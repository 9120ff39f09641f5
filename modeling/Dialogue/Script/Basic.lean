import Dialogue.Number.Basic
import Dialogue.Table

/-!
# Scripts

A script is a set of named nodes, each a list of statements. Operators,
comparison functions and directives stand here as they were written; whether
they mean anything is decided when the script is compiled.
-/

namespace Dialogue

inductive Operand
  | string (text : String)
  | number (value : Number)
  | bool (value : Bool)
  /-- The value of a variable. -/
  | reference (name : String)
  | null
  deriving DecidableEq, Repr

def Operand.kindName : Operand → String
  | .string _ => "string"
  | .number _ => "number"
  | .bool _ => "bool"
  | .reference _ => "variable"
  | .null => "null"

structure Comparison where
  function : String
  name : String
  value : Operand
  deriving DecidableEq, Repr

mutual

inductive Statement
  | line (text : String)
  /-- Goes on at another node. -/
  | jump (destination : String)
  | directive (raw : String)
  | choices (options : List Choice)
  /-- The first clause whose condition holds. -/
  | branch (clauses : List Clause)
  | assign (operation : String) (name : String) (value : Operand)
  /-- A statement of a kind that is not compiled. -/
  | unsupported

inductive Choice
  | mk (label : String) (body : List Statement)

inductive Clause
  | mk (condition : Option Comparison) (body : List Statement)

end

deriving instance Repr for Statement

def Choice.label : Choice → String
  | .mk label _ => label

def Choice.body : Choice → List Statement
  | .mk _ body => body

def Clause.condition : Clause → Option Comparison
  | .mk condition _ => condition

def Clause.body : Clause → List Statement
  | .mk _ body => body

structure Node where
  name : String := ""
  statements : List Statement := []

structure Script where
  name : String := ""
  nodes : Table Node

/-- Nodes under keys. A node is known by its key, whatever name it gives itself. -/
def Node.tableOf (members : List (String × Node)) : Table Node :=
  .ofList (members.map fun (key, node) => (key, { node with name := key }))

def Script.ofNodes (name : String) (nodes : List Node) : Script :=
  ⟨name, .ofList (nodes.map fun node => (node.name, node))⟩

end Dialogue
