import Dialogue.Error

/-!
# Directives

Of the directives in a script only the pause is understood: `wait` and a whole
number of seconds. Whatever follows the number is ignored.
-/

namespace Dialogue

inductive Directive
  | wait (seconds : Nat)
  deriving DecidableEq, Repr

namespace Directive

/-- Digits, and perhaps an `s`, for a number below `2 ^ 32`. -/
def seconds? (word : String) : Option Nat :=
  match Digit.span word.toList with
  | ([], _) => none
  | (digits, rest) =>
    if (rest = [] ∨ rest = ['s']) ∧ Digit.value digits < 0x100000000 then some (Digit.value digits)
    else none

/-- The directive of a text; `none` if it is not understood. -/
def parse (raw : String) : Except CompileError (Option Directive) :=
  match Text.words raw with
  | "wait" :: [] => .error (.malformedDirective raw .missingDuration)
  | "wait" :: word :: _ =>
    match seconds? word with
    | some seconds => .ok (some (.wait seconds))
    | none => .error (.malformedDirective raw (.badDuration word))
  | _ => .ok none

end Directive

end Dialogue
