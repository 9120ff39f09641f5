/-!
# Decimal digits

Digits, the digits of a natural number, and the value of a row of digits.
`value_digits` says that writing a number and reading it gives it back.
-/

namespace Dialogue

abbrev Digit := Fin 10

namespace Digit

def zero : Digit := 0

def toChar (d : Digit) : Char := Char.ofNat (48 + d.val)

/-- Only the ten ASCII digits are digits. -/
def ofChar? (c : Char) : Option Digit :=
  if h : 48 ≤ c.toNat ∧ c.toNat < 58 then some ⟨c.toNat - 48, by omega⟩ else none

theorem ofChar?_toChar (d : Digit) : ofChar? (toChar d) = some d := by
  revert d
  decide

def digits (n : Nat) : List Digit :=
  if h : n < 10 then [⟨n, h⟩] else digits (n / 10) ++ [⟨n % 10, by omega⟩]

def value (ds : List Digit) : Nat := ds.foldl (fun n d => 10 * n + d.val) 0

theorem value_append_singleton (ds : List Digit) (d : Digit) :
    value (ds ++ [d]) = 10 * value ds + d.val := by
  simp [value]

theorem value_digits (n : Nat) : value (digits n) = n := by
  fun_induction digits n with
  | case1 n h => simp [value]
  | case2 n h ih =>
    rw [value_append_singleton, ih]
    simp only
    omega

def span : List Char → List Digit × List Char
  | [] => ([], [])
  | c :: rest =>
    match ofChar? c with
    | some d => (d :: (span rest).1, (span rest).2)
    | none => ([], c :: rest)

theorem span_suffix (text : List Char) : (span text).2 <:+ text := by
  induction text with
  | nil => exact List.suffix_rfl
  | cons c rest ih =>
    unfold span
    split
    · exact ih.trans (List.suffix_cons c rest)
    · exact List.suffix_rfl

def text (ds : List Digit) : List Char := ds.map toChar

end Digit

end Dialogue
