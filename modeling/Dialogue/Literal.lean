import Dialogue.Number.Text
import Dialogue.Text.Blank

/-!
# Literals and their kinds

A variable has one kind for as long as it exists. `coerce?` is the only way
from a literal of one kind to a literal of another.
-/

namespace Dialogue

inductive Kind
  | string
  | number
  | bool
  deriving DecidableEq, Repr

def Kind.name : Kind → String
  | .string => "string"
  | .number => "number"
  | .bool => "bool"

inductive Literal
  | string (text : String)
  | number (value : Number)
  | bool (value : Bool)
  deriving DecidableEq, Repr

namespace Literal

def kind : Literal → Kind
  | .string _ => .string
  | .number _ => .number
  | .bool _ => .bool

def zero : Kind → Literal
  | .string => .string ""
  | .number => .number .zero
  | .bool => .bool false

@[simp] theorem kind_zero (kind : Kind) : (zero kind).kind = kind := by cases kind <;> rfl

def truthText (value : Bool) : String := if value then "true" else "false"

/-- Only the two words themselves are truth values. -/
def truthOf? (text : String) : Option Bool :=
  if text = "true" then some true
  else if text = "false" then some false
  else none

/-- A literal as one of another kind, where it has a counterpart there. White
space around a text that is read does not matter. Every number but zero is
true. -/
def coerce? (kind : Kind) : Literal → Option Literal
  | .string text =>
    match kind with
    | .string => some (.string text)
    | .number => (Number.ofText? (Text.trim text)).map .number
    | .bool => (truthOf? (Text.trim text)).map .bool
  | .number value =>
    match kind with
    | .string => some (.string value.text)
    | .number => some (.number value)
    | .bool => some (.bool !value.isZero)
  | .bool value =>
    match kind with
    | .string => some (.string (truthText value))
    | .number => some (.number (if value then .one else .zero))
    | .bool => some (.bool value)

theorem kind_of_coerce? {kind : Kind} {literal result : Literal}
    (h : literal.coerce? kind = some result) : result.kind = kind := by
  cases literal with
  | string text =>
    cases kind with
    | string => simp only [coerce?, Option.some.injEq] at h; subst h; rfl
    | number | bool =>
      simp only [coerce?, Option.map_eq_some_iff] at h
      obtain ⟨_, _, rfl⟩ := h
      rfl
  | number value =>
    cases kind <;> simp only [coerce?, Option.some.injEq] at h <;> subst h <;> rfl
  | bool value =>
    cases kind <;> simp only [coerce?, Option.some.injEq] at h <;> subst h <;> rfl

end Literal

end Dialogue
