import Dialogue.Json.Printer
import Dialogue.Proofs.Containers
import Dialogue.Proofs.Grammar
import Dialogue.Proofs.Shortest

/-!
# Strings and numerals that are read as they were written

What a string or a numeral is written as is read as just that again, whatever text comes
after it (`Reader.run_string`, `Reader.run_numeral`). A numeral has to be one that is
properly written and in range, and the text after it must not go on with it.
-/

namespace Dialogue.Json

-- ---------------------------------------------------------------------------
-- Strings
-- ---------------------------------------------------------------------------

theorem hexValue?_hexDigit (h : n < 16) : Reader.hexValue? (hexDigit n) = some n := by
  have hall : ∀ d : Fin 16, Reader.hexValue? (hexDigit d.val) = some d.val := by decide
  exact hall ⟨n, h⟩

namespace Reader

theorem run_unicodeEscape {c : Char} (hc : c.toNat < 0x20) (rest : List Char) :
    (unicodeEscape .keep).run
      ('0' :: '0' :: hexDigit (c.toNat / 16) :: hexDigit (c.toNat % 16) :: rest) =
        .ok (c, rest) := by
  have hzero : hexValue? '0' = some 0 := by decide
  have hunit : hexUnit.run
      ('0' :: '0' :: hexDigit (c.toNat / 16) :: hexDigit (c.toNat % 16) :: rest) =
        .ok (c.toNat, rest) := by
    simp [hexUnit, hzero, hexValue?_hexDigit (show c.toNat / 16 < 16 by omega),
      hexValue?_hexDigit (show c.toNat % 16 < 16 by omega)]
    omega
  unfold unicodeEscape
  rw [bind_of_ok hunit, if_pos (.inr (.inl (by omega)))]
  simp

theorem charactersOf_backslash (h : (escapeSequence purpose).run text = .ok (c, rest)) :
    charactersOf purpose ('\\' :: text) =
      (charactersOf purpose rest).map fun (cs, rest) => (c :: cs, rest) := by
  rw [charactersOf, if_neg (by decide), if_pos rfl]
  split
  · simp_all
  · simp_all

theorem charactersOf_escape (c : Char) (text : List Char) :
    charactersOf .keep (escape c ++ text) =
      (charactersOf .keep text).map fun (cs, rest) => (c :: cs, rest) := by
  unfold escape
  split
  case h_8 hquote hbackslash _ _ _ _ _ =>
    split
    · rename_i hcontrol
      exact charactersOf_backslash (run_unicodeEscape hcontrol text)
    · rename_i hcontrol
      rw [List.singleton_append, charactersOf, if_neg hquote, if_neg hbackslash, if_neg hcontrol]
  all_goals exact charactersOf_backslash rfl

theorem run_string (text : String) (rest : List Char) :
    (string .keep).run (quoted text ++ rest) = .ok (text, rest) := by
  have hcharacters (cs : List Char) :
      charactersOf .keep (cs.flatMap escape ++ '"' :: rest) = .ok (cs, rest) := by
    induction cs with
    | nil => rw [List.flatMap_nil, List.nil_append, charactersOf, if_pos rfl]
    | cons c cs ih =>
      rw [List.flatMap_cons, List.append_assoc, charactersOf_escape, ih]
      rfl
  have hrun : (characters .keep).run (quoted text ++ rest).tail = .ok (text.toList, rest) := by
    have htail : (quoted text ++ rest).tail = text.toList.flatMap escape ++ '"' :: rest := by
      simp [quoted]
    rw [htail]
    exact hcharacters text.toList
  unfold string
  rw [bind_of_ok (run_advance _), map_of_ok hrun, String.ofList_toList]

-- ---------------------------------------------------------------------------
-- Numerals
-- ---------------------------------------------------------------------------

/-- No numeral goes on in this text. -/
def EndsNumeral (rest : List Char) : Prop :=
  ∀ c ∈ rest.head?, Digit.ofChar? c = none ∧ c ≠ '.' ∧ c ≠ 'e' ∧ c ≠ 'E'

theorem run_look (text : List Char) : look.run text = .ok (text.head?, text) := rfl

/-- A text that starts with a digit starts with none of the other marks of a numeral. -/
theorem ne_of_head?_text {ds : List Digit} (hds : ds ≠ []) (rest : List Char) {mark : Char}
    (hmark : Digit.ofChar? mark = none) : ∀ c ∈ (Digit.text ds ++ rest).head?, c ≠ mark := by
  cases ds with
  | nil => exact absurd rfl hds
  | cons d ds =>
    rintro c hc rfl
    cases hc
    rw [Digit.ofChar?_toChar] at hmark
    cases hmark

theorem run_someDigits {ds : List Digit} (hds : ds ≠ [])
    (hrest : ∀ c ∈ rest.head?, Digit.ofChar? c = none) :
    (someDigits purpose).run (Digit.text ds ++ rest) = .ok (ds, rest) := by
  have hdigits : digits.run (Digit.text ds ++ rest) = .ok (ds, rest) :=
    congrArg Except.ok (Digit.span_append hrest ds)
  unfold someDigits
  rw [bind_of_ok hdigits]
  split
  · exact absurd rfl hds
  · rfl

theorem run_wholePart {ds : List Digit} (hds : Digit.NoLeadingZero ds)
    (hrest : ∀ c ∈ rest.head?, Digit.ofChar? c = none) :
    (wholePart purpose).run (Digit.text ds ++ rest) = .ok (ds, rest) := by
  obtain ⟨first, more, rfl, hfirst⟩ := hds
  unfold wholePart
  rw [bind_of_ok (run_someDigits (List.cons_ne_nil _ _) hrest)]
  split
  · rename_i heq
    cases heq
    cases hfirst rfl
  · rfl

theorem run_fractionPart (ds : List Digit) (hrest : ∀ c ∈ rest.head?, Digit.ofChar? c = none)
    (hpoint : ∀ c ∈ rest.head?, c ≠ '.') :
    (fractionPart purpose).run ((if ds.isEmpty then [] else '.' :: Digit.text ds) ++ rest) =
      .ok (ds, rest) := by
  unfold fractionPart
  cases ds with
  | nil =>
    rw [List.isEmpty_nil, if_pos rfl, List.nil_append, bind_of_ok (run_look rest)]
    split
    · exact absurd rfl (hpoint '.' ‹_›)
    · rfl
  | cons d ds => exact run_someDigits (List.cons_ne_nil _ _) hrest

theorem run_exponentSign (sign : Option Sign) (hplus : ∀ c ∈ rest.head?, c ≠ '+')
    (hminus : ∀ c ∈ rest.head?, c ≠ '-') :
    exponentSign.run ((match sign with
      | none => []
      | some .plus => ['+']
      | some .minus => ['-']) ++ rest) = .ok (sign, rest) := by
  unfold exponentSign
  rcases sign with _ | _ | _
  · rw [List.nil_append, bind_of_ok (run_look rest)]
    split
    · exact absurd rfl (hplus '+' ‹_›)
    · exact absurd rfl (hminus '-' ‹_›)
    · rfl
  · rfl
  · rfl

theorem run_exponentPart {exponent : Option Exponent}
    (hdigits : ∀ found ∈ exponent, found.digits ≠ []) (hrest : EndsNumeral rest) :
    (exponentPart purpose).run ((exponent.map Exponent.text).getD [] ++ rest) =
      .ok (exponent, rest) := by
  have hnone : ∀ c ∈ rest.head?, Digit.ofChar? c = none := fun c hc => (hrest c hc).1
  unfold exponentPart
  cases exponent with
  | none =>
    rw [Option.map_none, Option.getD_none, List.nil_append, bind_of_ok (run_look rest)]
    split
    · exact absurd rfl (hrest 'e' ‹_›).2.2.1
    · exact absurd rfl (hrest 'E' ‹_›).2.2.2
    · rfl
  | some found =>
    obtain ⟨capital, sign, ds⟩ := found
    have hds : ds ≠ [] := hdigits _ rfl
    have hafter : (exponentPart.exponent purpose capital).run
        ((Exponent.text ⟨capital, sign, ds⟩) ++ rest) = .ok (some ⟨capital, sign, ds⟩, rest) := by
      unfold exponentPart.exponent Exponent.text
      rw [bind_of_ok (run_advance _)]
      simp only [List.cons_append, List.tail_cons, List.append_assoc]
      refine (bind_of_ok (run_exponentSign sign (ne_of_head?_text hds rest (by decide))
        (ne_of_head?_text hds rest (by decide))) _).trans ?_
      rw [bind_of_ok (run_someDigits hds hnone)]
      rfl
    cases capital <;> exact hafter

theorem run_minusSign (negative : Bool) (hrest : ∀ c ∈ rest.head?, c ≠ '-') :
    minusSign.run ((if negative then ['-'] else []) ++ rest) = .ok (negative, rest) := by
  unfold minusSign
  cases negative with
  | true => rfl
  | false =>
    rw [if_neg Bool.false_ne_true, List.nil_append, bind_of_ok (run_look rest)]
    split
    · exact absurd rfl (hrest '-' ‹_›)
    · rfl

theorem EndsNumeral.exponent (hrest : EndsNumeral rest) (exponent : Option Exponent) :
    ∀ c ∈ ((exponent.map Exponent.text).getD [] ++ rest).head?,
      Digit.ofChar? c = none ∧ c ≠ '.' := by
  intro c hc
  cases exponent with
  | none => exact ⟨(hrest c hc).1, (hrest c hc).2.1⟩
  | some found =>
    cases hc
    cases found.capital <;> exact ⟨by decide, by decide⟩

theorem ofChar?_fraction (fraction : List Digit)
    (hrest : ∀ c ∈ rest.head?, Digit.ofChar? c = none) :
    ∀ c ∈ ((if fraction.isEmpty then [] else '.' :: Digit.text fraction) ++ rest).head?,
      Digit.ofChar? c = none := by
  intro c hc
  cases fraction with
  | nil => exact hrest c hc
  | cons d ds =>
    cases hc
    decide

theorem run_numeral {n : Numeral} (hformed : n.WellFormed) (hsome : n.number?.isSome)
    (hrest : EndsNumeral rest) : (numeral .keep).run (n.text ++ rest) = .ok (n, rest) := by
  obtain ⟨negative, whole, fraction, exponent⟩ := n
  obtain ⟨hwhole, hdigits⟩ := hformed
  have hexponent := hrest.exponent exponent
  have hfraction := ofChar?_fraction fraction fun c hc => (hexponent c hc).1
  have hne : whole ≠ [] := by
    obtain ⟨first, more, rfl, _⟩ := hwhole
    exact List.cons_ne_nil _ _
  unfold numeral Numeral.text
  simp only [List.append_assoc]
  rw [bind_of_ok (run_minusSign negative (ne_of_head?_text hne _ (by decide))),
    bind_of_ok (run_wholePart hwhole hfraction),
    bind_of_ok (run_fractionPart fraction (fun c hc => (hexponent c hc).1)
      fun c hc => (hexponent c hc).2),
    bind_of_ok (run_exponentPart hdigits hrest), if_neg fun h => by simp [h.2] at hsome]
  rfl

end Reader

end Dialogue.Json
