import Dialogue.Json.Numeral

/-!
# JSON trees

A tree keeps what the text says: members in their order, repeated keys
included, and numbers as numerals.
-/

namespace Dialogue

inductive Json
  | null
  | bool (value : Bool)
  | number (numeral : Json.Numeral)
  | string (text : String)
  | array (items : List Json)
  | object (members : List (String × Json))
  deriving Repr, Inhabited

namespace Json

def ofNat (n : Nat) : Json := .number (.ofNat n)

def ofNumber (x : Number) : Json := (Numeral.ofNumber? x).elim .null .number

def text? : Json → Option String
  | .string text => some text
  | _ => none

mutual

def depth : Json → Nat
  | .array items => itemsDepth items + 1
  | .object members => membersDepth members + 1
  | _ => 0

def itemsDepth : List Json → Nat
  | [] => 0
  | item :: rest => max (depth item) (itemsDepth rest)

def membersDepth : List (String × Json) → Nat
  | [] => 0
  | (_, value) :: rest => max (depth value) (membersDepth rest)

end

/-- The values of the named fields of a record. A record is an object, in which
no named field is repeated and others are ignored, or an array of the fields in
order, which may stop early but not run on. -/
def fields? (names : List String) : Json → Option (List (Option Json))
  | .object members =>
    names.mapM fun name =>
      match members.filter (·.1 = name) with
      | [] => some none
      | [(_, value)] => some (some value)
      | _ => none
  | .array items =>
    if items.length ≤ names.length then
      some (items.map some ++ List.replicate (names.length - items.length) none)
    else none
  | _ => none

end Json

end Dialogue
