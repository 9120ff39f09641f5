import Dialogue.Json.Basic
import Dialogue.Json.Reader.Basic

/-!
# Numerals, strings and words

The values that are neither array nor object.
-/

namespace Dialogue.Json

/-- Whether a value is wanted, or only passed over. A value that is passed over
need not be in range, and its surrogates need not pair up. -/
inductive Purpose
  | keep
  | skip
  deriving DecidableEq, Repr

namespace Reader

variable {α : Type}

def digits : Reader (List Digit) where
  run text := .ok (Digit.span text)
  suffix {text a rest} h := by
    obtain ⟨ha, hr⟩ : (Digit.span text).1 = a ∧ (Digit.span text).2 = rest := by
      simpa [Prod.ext_iff] using h
    exact hr ▸ Digit.span_suffix text

/-- One digit or more. A number that is cut short is only noticed as such when
it is wanted. -/
def someDigits (purpose : Purpose) : Reader (List Digit) := do
  match ← digits with
  | [] =>
    match ← look, purpose with
    | none, .keep => fail .truncated
    | _, _ => fail .malformed
  | ds => pure ds

def wholePart (purpose : Purpose) : Reader (List Digit) := do
  match ← someDigits purpose with
  | 0 :: _ :: _ => fail .malformed
  | ds => pure ds

def fractionPart (purpose : Purpose) : Reader (List Digit) := do
  match ← look with
  | some '.' => advance; someDigits purpose
  | _ => pure []

def exponentSign : Reader (Option Sign) := do
  match ← look with
  | some '+' => advance; pure (some .plus)
  | some '-' => advance; pure (some .minus)
  | _ => pure none

def exponentPart (purpose : Purpose) : Reader (Option Exponent) := do
  match ← look with
  | some 'e' => exponent false
  | some 'E' => exponent true
  | _ => pure none
where
  exponent (capital : Bool) : Reader (Option Exponent) := do
    advance
    let sign ← exponentSign
    pure (some ⟨capital, sign, ← someDigits purpose⟩)

def minusSign : Reader Bool := do
  match ← look with
  | some '-' => advance; pure true
  | _ => pure false

def numeral (purpose : Purpose) : Reader Numeral := do
  let negative ← minusSign
  let whole ← wholePart purpose
  let fraction ← fractionPart purpose
  let numeral : Numeral := ⟨negative, whole, fraction, ← exponentPart purpose⟩
  if purpose = .keep ∧ numeral.number? = none then fail .malformed else pure numeral

def hexValue? (c : Char) : Option Nat :=
  if '0' ≤ c ∧ c ≤ '9' then some (c.toNat - 48)
  else if 'a' ≤ c ∧ c ≤ 'f' then some (c.toNat - 87)
  else if 'A' ≤ c ∧ c ≤ 'F' then some (c.toNat - 55)
  else none

/-- Four hexadecimal digits. Fewer than four bytes of text are a cut, whatever
they are. -/
def hexUnit : Reader Nat where
  run
    | a :: b :: c :: d :: rest =>
      match [a, b, c, d].mapM hexValue? with
      | some ds => .ok (ds.foldl (fun n d => 16 * n + d) 0, rest)
      | none => .error .malformed
    | short =>
      if short.foldl (fun n c => n + c.utf8Size) 0 < 4 then .error .truncated else .error .malformed
  suffix {text a rest} h := by
    split at h
    · next p q r s rest' =>
      split at h
      · cases h
        exact (List.suffix_cons s _).trans ((List.suffix_cons r _).trans
          ((List.suffix_cons q _).trans (List.suffix_cons p _)))
      · cases h
    · split at h <;> cases h

/-- The character of an escape by four hexadecimal digits; of two such escapes
when the first is a high surrogate. -/
def unicodeEscape (purpose : Purpose) : Reader Char := do
  let unit ← hexUnit
  if purpose = .skip ∨ unit < 0xD800 ∨ 0xDFFF < unit then pure (Char.ofNat unit)
  else if 0xDC00 ≤ unit then fail .malformed
  else
    word ['\\', 'u']
    let low ← hexUnit
    if 0xDC00 ≤ low ∧ low ≤ 0xDFFF then
      pure (Char.ofNat (0x10000 + (unit - 0xD800) * 0x400 + (low - 0xDC00)))
    else fail .malformed

def escapeSequence (purpose : Purpose) : Reader Char := do
  match ← next with
  | '"' => pure '"'
  | '\\' => pure '\\'
  | '/' => pure '/'
  | 'b' => pure '\x08'
  | 'f' => pure '\x0c'
  | 'n' => pure '\n'
  | 'r' => pure '\r'
  | 't' => pure '\t'
  | 'u' => unicodeEscape purpose
  | _ => fail .malformed

def charactersOf (purpose : Purpose) (text : List Char) : Except Fault (List Char × List Char) :=
  match text with
  | [] => .error .truncated
  | c :: rest =>
    if c = '"' then .ok ([], rest)
    else if c = '\\' then
      match _h : (escapeSequence purpose).run rest with
      | .error fault => .error fault
      | .ok (escaped, rest) => (charactersOf purpose rest).map fun (cs, rest) => (escaped :: cs, rest)
    else if c.toNat < 0x20 then .error .malformed
    else (charactersOf purpose rest).map fun (cs, rest) => (c :: cs, rest)
termination_by text.length
decreasing_by
  · have := ((escapeSequence purpose).suffix _h).length_le
    simp only [List.length_cons]
    omega
  · simp

theorem charactersOf_suffix (purpose : Purpose) (text : List Char) {cs rest : List Char}
    (h : charactersOf purpose text = .ok (cs, rest)) : rest <:+ text := by
  fun_induction charactersOf purpose text generalizing cs rest with
  | case1 => cases h
  | case2 => cases h; exact List.suffix_cons _ _
  | case3 => cases h
  | case4 tail escaped rest' he _ ih =>
    cases hc : charactersOf purpose rest' with
    | error fault => simp [hc, Except.map] at h
    | ok found =>
      simp only [hc, Except.map, Except.ok.injEq, Prod.mk.injEq] at h
      have := ih hc
      rw [h.2] at this
      exact (this.trans ((escapeSequence purpose).suffix he)).trans (List.suffix_cons _ _)
  | case5 => cases h
  | case6 c tail _ _ _ ih =>
    cases hc : charactersOf purpose tail with
    | error fault => simp [hc, Except.map] at h
    | ok found =>
      simp only [hc, Except.map, Except.ok.injEq, Prod.mk.injEq] at h
      have := ih hc
      rw [h.2] at this
      exact this.trans (List.suffix_cons _ _)

def characters (purpose : Purpose) : Reader (List Char) where
  run := charactersOf purpose
  suffix h := charactersOf_suffix purpose _ h

def string (purpose : Purpose) : Reader String := do
  advance
  String.ofList <$> characters purpose

def scalar (purpose : Purpose) : Reader Json := do
  match ← peek with
  | 'n' => advance; word ['u', 'l', 'l']; pure .null
  | 't' => advance; word ['r', 'u', 'e']; pure (.bool true)
  | 'f' => advance; word ['a', 'l', 's', 'e']; pure (.bool false)
  | '"' => .string <$> string purpose
  | c =>
    if c = '-' ∨ c.isDigit then .number <$> numeral purpose else fail .malformed

/-- Another shape was expected here. A scalar is read before it is refused. -/
def misshapen : Reader α := do
  match ← peek with
  | '[' | '\x7b' => fail .misshapen
  | _ => discard (scalar .keep); fail .misshapen

end Reader

end Dialogue.Json
