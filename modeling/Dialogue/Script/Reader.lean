import Dialogue.Json.Reader.Value
import Dialogue.Script.Decoding

/-!
# Scripts from text

A script is read along its text down to the statements of its nodes, so its
first fault is reported, be it one of spelling or one of shape. A statement is
read as a tree before its shape is looked at, all but its type.
-/

namespace Dialogue

namespace Script.Reader

open Json (Reader Fault)
open Json.Reader

variable {α : Type}

def text : Reader String := do
  if (← peek) = '"' then string .keep else misshapen

/-- A value that has been left out so far and is given only once. -/
def once (given : Option α) (content : Reader α) : Reader (Option α) := do
  if given.isSome then fail .misshapen
  colon
  some <$> content

def shape (decoded : Option α) : Reader α :=
  match decoded with
  | some a => pure a
  | none => fail .misshapen

def named (depth : Nat) (field : String) (content : Nat → Reader α) :
    Reader (Option String × Option α) := do
  match ← peek with
  | '\x7b' =>
    let depth ← enter depth
    members .keep (fun (name, rest) key => do
      if key = "name" then pure (← once name text, rest)
      else if key = field then pure (name, ← once rest (content depth))
      else
        colon
        skip
        pure (name, rest)) (none, none)
  | '[' =>
    let depth ← enter depth
    let name ← firstItem? text
    let rest ← if name.isSome then nextItem? (content depth) else pure none
    closeItems
    pure (name, rest)
  | _ => misshapen

def tagged (depth : Nat) : Reader (String × Json) := do
  match ← peek with
  | '\x7b' =>
    let depth ← enter depth
    let (tag, fields) ← members .keep (fun (tag, fields) key => do
      if key = "type" then pure (← once tag text, fields)
      else
        colon
        pure (tag, fields ++ [(key, ← value .keep depth)])) (none, [])
    pure (← shape tag, .object fields)
  | '[' =>
    let depth ← enter depth
    let tag ← shape (← firstItem? text)
    let fields ← moreItems (value .keep depth)
    closeItems
    pure (tag, .array fields)
  | _ => misshapen

def statement (depth : Nat) : Reader Statement := do
  let (tag, fields) ← tagged depth
  shape (Statement.ofTagged? tag fields)

def statements (depth : Nat) : Reader (List Statement) := do
  if (← peek) = '[' then items (statement (← enter depth)) else misshapen

def node (depth : Nat) : Reader Node := do
  let (name, body) ← named depth "statements" statements
  pure ⟨name.getD "", body.getD []⟩

def nodes (depth : Nat) : Reader (Table Node) := do
  if (← peek) = '\x7b' then
    let depth ← enter depth
    Node.tableOf <$> memberList .keep (node depth)
  else misshapen

def script : Reader Script := do
  let (name, nodes) ← named Json.nestingLimit "nodes" nodes
  pure ⟨name.getD "", ← shape nodes⟩

end Script.Reader

def Script.parse (text : String) : Except Json.Fault Script := Script.Reader.script.parse text

namespace Operand.Reader

open Json (Reader)
open Json.Reader
open Script.Reader (text shape)

def kindName : Reader OperandKind := do
  shape (OperandKind.ofName? (← text))

/-- A kind in an object is its name, or an object of that one key without content.
Anything else is malformed. -/
def kind (depth : Nat) : Reader OperandKind := do
  match ← peek with
  | '"' => kindName
  | '\x7b' =>
    discard (enter depth)
    let kind ← shape (OperandKind.ofName? (← key .keep))
    colon
    if (← peek) = 'n' then discard (scalar .keep) else misshapen
    if (← peek) = '\x7d' then advance else fail .malformed
    pure kind
  | _ => fail .malformed

def content : OperandKind → Reader Operand
  | .string => .string <$> text
  | .reference => .reference <$> text
  | kind => do
    match ← peek with
    | '[' | '\x7b' => fail .misshapen
    | _ => shape (Operand.ofContent? kind (← scalar .keep))

inductive Progress
  | nothing
  | kind (kind : OperandKind)
  | content (content : Json)
  | both (operand : Operand)

/-- A member of an operand. Content is read for its kind if the kind came
first, and kept until then otherwise. -/
def member (depth : Nat) (progress : Progress) (key : String) : Reader Progress := do
  match key, progress with
  | "type", .nothing => colon; .kind <$> kind depth
  | "type", .content json => do
    colon
    .both <$> shape (Operand.ofContent? (← kind depth) json)
  | "value", .nothing => colon; .content <$> value .keep depth
  | "value", .kind kind => colon; .both <$> content kind
  | "type", _ | "value", _ => fail .misshapen
  | _, _ =>
    colon
    skip
    pure progress

def operand : Reader Operand := do
  match ← peek with
  | '\x7b' =>
    let depth ← enter Json.nestingLimit
    match ← members .keep (member depth) .nothing with
    | .both operand => pure operand
    | .kind .null => pure .null
    | _ => fail .misshapen
  | '[' =>
    discard (enter Json.nestingLimit)
    let kind ← shape (← firstItem? kindName)
    let operand ← shape (← nextItem? (content kind))
    closeItems
    pure operand
  | _ => misshapen

end Operand.Reader

def Operand.parse (text : String) : Except Json.Fault Operand := Operand.Reader.operand.parse text

end Dialogue
