import Dialogue.Compilation
import Dialogue.Json.Printer
import Dialogue.Script.Reader

/-!
# Compiled scripts as text

The JSON form of a compiled script, and the way from the text of a script to
the text of its flowchart.
-/

namespace Dialogue

def Literal.toJson (literal : Literal) : Json :=
  let value := match literal with
    | .string text => .string text
    | .number value => .ofNumber value
    | .bool value => .bool value
  .object [("kind", .string literal.kind.name), ("value", value)]

def BlockId.toJson (id : BlockId) : Json := .ofNat id.index.toNat

def CommandId.toJson (id : CommandId) : Json := .ofNat id.index.toNat

def VariableId.toJson (id : VariableId) : Json := .ofNat id.index.toNat

def Condition.members (condition : Condition) : List (String × Json) :=
  [("operator", .string condition.operator.name), ("variable", condition.subject.toJson),
    ("value", condition.value.toJson)]

def Command.typeName : Command → String
  | .say _ => "Say"
  | .menu _ _ => "Menu"
  | .call _ => "Call"
  | .set _ _ _ => "SetVariable"
  | .ifThen _ => "If"
  | .elseIf _ => "ElseIf"
  | .otherwise => "Else"
  | .endIf => "End"
  | .wait _ => "Wait"

def Command.members : Command → List (String × Json)
  | .say text => [("text", .string text)]
  | .menu text target => [("text", .string text), ("target", target.toJson)]
  | .call target => [("target", target.toJson)]
  | .set operator subject value =>
    [("operator", .string operator.name), ("variable", subject.toJson), ("value", value.toJson)]
  | .ifThen condition | .elseIf condition => condition.members
  | .otherwise | .endIf => []
  | .wait seconds => [("seconds", .ofNat seconds)]

def Command.toJson (command : Command) : Json :=
  .object (("type", .string command.typeName) :: command.members)

def Scope.name : Scope → String
  | .everywhere => "Public"

def Variable.toJson (found : Variable) : Json :=
  .object [("key", .string found.key), ("kind", .string found.kind.name),
    ("scope", .string found.scope.name), ("value", found.value.toJson)]

def BlockListing.toJson (block : BlockListing) : Json :=
  .object [("name", .string block.name), ("commands", .array (block.commands.map Command.toJson))]

def Listing.toJson (listing : Listing) : Json :=
  .object [("name", .string listing.name),
    ("blocks", .array (listing.blocks.map BlockListing.toJson)),
    ("variables", .array (listing.vars.map Variable.toJson))]

def Diagnostic.toJson (diagnostic : Diagnostic) : Json :=
  .object [("node", .string diagnostic.node), ("message", .string diagnostic.message)]

def Compiled.toJson (compiled : Compiled) : Json :=
  .object [("entry", compiled.entry.toJson), ("flowchart", compiled.flowchart.toJson),
    ("diagnostics", .array (compiled.diagnostics.map Diagnostic.toJson))]

inductive TextError
  | unreadable (fault : Json.Fault)
  | uncompilable (error : CompileError)
  deriving DecidableEq, Repr

def compileText (text : String) (options : Options) : Except TextError String :=
  match Script.parse text with
  | .error fault => .error (.unreadable fault)
  | .ok script =>
    match script.compile options with
    | .error error => .error (.uncompilable error)
    | .ok compiled => .ok compiled.toJson.pretty

end Dialogue
