import Dialogue.Json.Basic
import Dialogue.Script.Basic

/-!
# Statements from JSON trees

Every record of a script is an object, in any order of members and with members
of other names ignored, or an array of its fields in order. Nothing is
converted: a field has the type that it is declared with, or the tree is no
statement. Inside a statement there are two exceptions. The type of a statement,
and the kind of an operand that is an array, may also be given by position.
-/

namespace Dialogue

inductive OperandKind
  | string
  | number
  | bool
  | reference
  | null
  deriving DecidableEq, Repr

namespace OperandKind

def ofName? : String → Option OperandKind
  | "string" => some .string
  | "number" => some .number
  | "bool" => some .bool
  | "variable" => some .reference
  | "null" => some .null
  | _ => none

/-- A kind in an object is its name, or an object of that one key without content. -/
def ofJson? : Json → Option OperandKind
  | .string name => ofName? name
  | .object [(name, .null)] | .object [(name, .object [])] => ofName? name
  | _ => none

/-- A kind in an array is its name, or its position among the kinds. -/
def ofItem? : Json → Option OperandKind
  | .string name => ofName? name
  | .number numeral => numeral.natural?.bind ([string, number, bool, reference, null][·]?)
  | _ => none

end OperandKind

namespace Operand

def ofContent? : OperandKind → Json → Option Operand
  | .string, .string text => some (.string text)
  | .number, .number numeral => numeral.number?.map .number
  | .bool, .bool value => some (.bool value)
  | .reference, .string name => some (.reference name)
  | .null, .null => some .null
  | _, _ => none

/-- Only null can do without content, and in an array not even that. -/
def ofJson? (json : Json) : Option Operand := do
  match json, ← json.fields? ["type", "value"] with
  | .array _, [some kind, some content] => ofContent? (← OperandKind.ofItem? kind) content
  | .object _, [some kind, some content] => ofContent? (← OperandKind.ofJson? kind) content
  | .object _, [some kind, none] =>
    if (← OperandKind.ofJson? kind) = .null then some .null else none
  | _, _ => none

end Operand

def Comparison.ofJson? (json : Json) : Option Comparison := do
  match ← json.fields? ["function", "variable", "value"] with
  | [some (.string function), some (.string name), some value] =>
    some ⟨function, name, ← Operand.ofJson? value⟩
  | _ => none

/-- A condition is left out or null when there is none. -/
def Comparison.ofField? : Option Json → Option (Option Comparison)
  | none | some .null => some none
  | some json => (Comparison.ofJson? json).map some

namespace Statement

def bodyWith? (statement : Json → Option Statement) : Option Json → Option (List Statement)
  | none => some []
  | some (.array items) => items.mapM statement
  | some _ => none

def choiceWith? (statement : Json → Option Statement) (json : Json) : Option Choice := do
  match ← json.fields? ["label", "body"] with
  | [some (.string label), body] => some ⟨label, ← bodyWith? statement body⟩
  | _ => none

def clauseWith? (statement : Json → Option Statement) (json : Json) : Option Clause := do
  match ← json.fields? ["condition", "body"] with
  | [condition, body] =>
    some ⟨← Comparison.ofField? condition, ← bodyWith? statement body⟩
  | _ => none

/-- A statement by its type and its other fields, given how to read the
statements inside it. A type of another name is unsupported and has no fields. -/
def taggedWith? (statement : Json → Option Statement) (tag : String) (fields : Json) :
    Option Statement := do
  match tag with
  | "line" =>
    match ← fields.fields? ["text"] with
    | [some (.string text)] => some (.line text)
    | _ => none
  | "option" =>
    match ← fields.fields? ["destination"] with
    | [some (.string destination)] => some (.jump destination)
    | _ => none
  | "custom" =>
    match ← fields.fields? ["command"] with
    | [some (.string command)] => some (.directive command)
    | _ => none
  | "shortcut_options" =>
    match ← fields.fields? ["options"] with
    | [some (.array options)] => some (.choices (← options.mapM (choiceWith? statement)))
    | _ => none
  | "if" =>
    match ← fields.fields? ["clauses"] with
    | [some (.array clauses)] => some (.branch (← clauses.mapM (clauseWith? statement)))
    | _ => none
  | "assignment" =>
    match ← fields.fields? ["operation", "variable", "value"] with
    | [some (.string operation), some (.string name), some value] =>
      some (.assign operation name (← Operand.ofJson? value))
    | _ => none
  | _ =>
    discard (fields.fields? [])
    some .unsupported

def tags : List String :=
  ["line", "option", "custom", "shortcut_options", "if", "assignment"]

/-- A type inside another statement is its name, or its position. A position that
no type has is unsupported. -/
def nestedTag? : Json → Option String
  | .string tag => some tag
  | .number numeral => numeral.natural?.map (tags.getD · "unsupported")
  | _ => none

def taggedBy? (tag? : Json → Option String) : Json → Option (String × Json)
  | .array (tag :: fields) => (tag? tag).map (·, .array fields)
  | .object members =>
    match (Json.object members).fields? ["type"] with
    | some [some tag] => (tag? tag).map (·, .object members)
    | _ => none
  | _ => none

/-- A statement inside another one, with less than `depth` statements around one
another inside it. -/
def nestedWithin? : Nat → Json → Option Statement
  | 0, _ => none
  | depth + 1, json => do
    let (tag, fields) ← taggedBy? nestedTag? json
    taggedWith? (nestedWithin? depth) tag fields

def ofTagged? (tag : String) (fields : Json) : Option Statement :=
  taggedWith? (nestedWithin? fields.depth) tag fields

def ofJson? (json : Json) : Option Statement := do
  let (tag, fields) ← taggedBy? Json.text? json
  ofTagged? tag fields

end Statement

def Node.ofJson? (json : Json) : Option Node := do
  match ← json.fields? ["name", "statements"] with
  | [name, statements] =>
    let name ← match name with
      | none => some ""
      | some (.string name) => some name
      | some _ => none
    some ⟨name, ← Statement.bodyWith? Statement.ofJson? statements⟩
  | _ => none

end Dialogue
