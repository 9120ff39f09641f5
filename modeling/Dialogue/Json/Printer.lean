import Dialogue.Json.Basic

/-!
# Printed JSON

The indented layout: two spaces a level, one element a line, and nothing
between the brackets of an empty array or object.
-/

namespace Dialogue.Json

def hexDigit (n : Nat) : Char := if n < 10 then Char.ofNat (48 + n) else Char.ofNat (87 + n)

def escape (c : Char) : List Char :=
  match c with
  | '"' => ['\\', '"']
  | '\\' => ['\\', '\\']
  | '\x08' => ['\\', 'b']
  | '\x0c' => ['\\', 'f']
  | '\n' => ['\\', 'n']
  | '\r' => ['\\', 'r']
  | '\t' => ['\\', 't']
  | c =>
    if c.toNat < 0x20 then
      ['\\', 'u', '0', '0', hexDigit (c.toNat / 16), hexDigit (c.toNat % 16)]
    else [c]

def quoted (text : String) : List Char := '"' :: text.toList.flatMap escape ++ ['"']

def lineBreak (level : Nat) : List Char := '\n' :: List.replicate (2 * level) ' '

mutual

/-- The layout of a value whose first line is already indented to `level`. -/
def layout (level : Nat) : Json → List Char
  | .null => "null".toList
  | .bool true => "true".toList
  | .bool false => "false".toList
  | .number numeral => numeral.text
  | .string text => quoted text
  | .array [] => ['[', ']']
  | .array (item :: rest) =>
    '[' :: lineBreak (level + 1) ++ layout (level + 1) item ++ layoutItems (level + 1) rest ++
      lineBreak level ++ [']']
  | .object [] => ['\x7b', '\x7d']
  | .object ((key, value) :: rest) =>
    '\x7b' :: lineBreak (level + 1) ++ quoted key ++ [':', ' '] ++ layout (level + 1) value ++
      layoutMembers (level + 1) rest ++ lineBreak level ++ ['\x7d']

def layoutItems (level : Nat) : List Json → List Char
  | [] => []
  | item :: rest => ',' :: lineBreak level ++ layout level item ++ layoutItems level rest

def layoutMembers (level : Nat) : List (String × Json) → List Char
  | [] => []
  | (key, value) :: rest =>
    ',' :: lineBreak level ++ quoted key ++ [':', ' '] ++ layout level value ++
      layoutMembers level rest

end

def pretty (json : Json) : String := String.ofList (layout 0 json)

end Dialogue.Json
