import Dialogue.Directive
import Mathlib.Data.Nat.Digits.Defs
import Mathlib.Data.Set.List

/-!
# The grammar of directives

`Directive.parse` accepts exactly what the grammar of directives says
(`Directive.parse_grammar`). The grammar is given without the parser: which words a text
has (`Text.HasWords`), and which words write a number of seconds (`Directive.Lasts`).
Cutting a text gives the words that it has, and no others (`Text.words_eq_iff`); reading
a word gives the number that it writes, if it writes one (`Directive.seconds?_eq_some_iff`).
-/

namespace Dialogue

-- ---------------------------------------------------------------------------
-- Words
-- ---------------------------------------------------------------------------

namespace Text

/-- The words of a text, in order: runs of characters that are not blank, each up to the
next blank or the end of the text. -/
inductive HasWords : List Char → List String → Prop
  | nil : HasWords [] []
  | blank : isBlank c = true → HasWords rest more → HasWords (c :: rest) more
  | word : word ≠ [] → (∀ c ∈ word, isBlank c = false) → (∀ c ∈ rest.head?, isBlank c = true) →
    HasWords rest more → HasWords (word ++ rest) (String.ofList word :: more)

theorem pieces_cons_blank (h : isBlank c = true) (rest : List Char) :
    pieces (c :: rest) = [] :: pieces rest := by
  simp [pieces, h]

theorem pieces_append {word rest piece : List Char} {others : List (List Char)}
    (hword : ∀ c ∈ word, isBlank c = false) (hrest : pieces rest = piece :: others) :
    pieces (word ++ rest) = (word ++ piece) :: others := by
  induction word with
  | nil => exact hrest
  | cons c word ih =>
    have hc : isBlank c = false := hword c List.mem_cons_self
    have htail := ih fun other hother => hword other (List.mem_cons_of_mem _ hother)
    simp [pieces, hc, htail]

theorem exists_pieces_eq_nil_cons {rest : List Char} (h : ∀ c ∈ rest.head?, isBlank c = true) :
    ∃ others, pieces rest = [] :: others := by
  cases rest with
  | nil => exact ⟨[], rfl⟩
  | cons c rest => exact ⟨_, pieces_cons_blank (h c rfl) rest⟩

theorem HasWords.eq_pieces (h : HasWords text found) :
    ((pieces text).filter (· ≠ [])).map String.ofList = found := by
  induction h with
  | nil => rfl
  | blank hblank _ ih =>
    rw [pieces_cons_blank hblank]
    simpa using ih
  | word hne hword hrest _ ih =>
    obtain ⟨others, hothers⟩ := exists_pieces_eq_nil_cons hrest
    rw [pieces_append hword hothers]
    rw [hothers] at ih
    simpa [hne] using ih

/-- Every text has words. A character that is not blank lengthens the word that it stands
before, or is a word of its own. -/
theorem exists_hasWords (text : List Char) : ∃ found, HasWords text found := by
  induction text with
  | nil => exact ⟨[], .nil⟩
  | cons c rest ih =>
    obtain ⟨found, hfound⟩ := ih
    cases hc : isBlank c with
    | true => exact ⟨found, .blank hc hfound⟩
    | false =>
      have hself : ∀ other ∈ [c], isBlank other = false := by simpa using hc
      cases hfound with
      | nil => exact ⟨_, .word (List.cons_ne_nil c []) hself (by simp) .nil⟩
      | blank hblank hrest =>
        exact ⟨_, .word (List.cons_ne_nil c []) hself (by simpa using hblank)
          (.blank hblank hrest)⟩
      | @word word rest more hne hword hrest hmore =>
        have hlonger : ∀ other ∈ c :: word, isBlank other = false :=
          List.forall_mem_cons.mpr ⟨hc, hword⟩
        exact ⟨_, .word (List.cons_ne_nil c word) hlonger hrest hmore⟩

theorem words_eq_iff (text : String) (found : List String) :
    words text = found ↔ HasWords text.toList found := by
  constructor
  · rintro rfl
    obtain ⟨found, hfound⟩ := exists_hasWords text.toList
    have heq : words text = found := hfound.eq_pieces
    rwa [heq]
  · intro h
    exact h.eq_pieces

end Text

-- ---------------------------------------------------------------------------
-- Numbers of seconds
-- ---------------------------------------------------------------------------

namespace Digit

theorem ofChar?_eq_some_iff (c : Char) (d : Digit) : ofChar? c = some d ↔ c = toChar d := by
  constructor
  · intro h
    unfold ofChar? at h
    split at h
    · rename_i hc
      cases h
      have hcode : 48 + (c.toNat - 48) = c.toNat := by omega
      simp [toChar, hcode]
    · cases h
  · rintro rfl
    exact ofChar?_toChar d

theorem isDigit_toChar (d : Digit) : (toChar d).isDigit = true := by
  revert d
  decide

theorem toNat_toChar (d : Digit) : (toChar d).toNat - '0'.toNat = d.val := by
  revert d
  decide

theorem exists_toChar {c : Char} (h : c.isDigit = true) : ∃ d, toChar d = c := by
  simp only [Char.isDigit, Bool.and_eq_true, decide_eq_true_eq] at h
  have hrange : 48 ≤ c.toNat ∧ c.toNat < 58 := by
    have hlow : 48 ≤ c.toNat := h.1
    have hhigh : c.toNat ≤ 57 := h.2
    omega
  have hfound : ofChar? c = some ⟨c.toNat - 48, by omega⟩ := dif_pos hrange
  exact ⟨_, ((ofChar?_eq_some_iff c _).mp hfound).symm⟩

theorem span_append {rest : List Char} (hrest : ∀ c ∈ rest.head?, ofChar? c = none)
    (ds : List Digit) : span (text ds ++ rest) = (ds, rest) := by
  induction ds with
  | nil =>
    cases rest with
    | nil => rfl
    | cons c rest => simp [text, span, hrest c rfl]
  | cons d ds ih =>
    have htail : span (List.map toChar ds ++ rest) = (ds, rest) := ih
    simp [text, span, ofChar?_toChar, htail]

theorem text_span (chars : List Char) : text (span chars).1 ++ (span chars).2 = chars := by
  induction chars with
  | nil => rfl
  | cons c rest ih =>
    unfold span
    split
    · rename_i d hd
      rw [(ofChar?_eq_some_iff c d).mp hd]
      exact congrArg (toChar d :: ·) ih
    · rfl

theorem value_eq_ofDigits (ds : List Digit) :
    value ds = Nat.ofDigits 10 (ds.map Fin.val).reverse := by
  rw [Nat.ofDigits_eq_foldr, List.foldr_reverse, List.foldl_map]
  unfold value
  congr
  funext n d
  exact Nat.add_comm _ _

end Digit

-- ---------------------------------------------------------------------------
-- Directives
-- ---------------------------------------------------------------------------

namespace DirectiveFault

@[simp] theorem message_eq_missing_iff (fault : DirectiveFault) :
    fault.message = "missing duration" ↔ fault = .missingDuration := by
  cases fault with
  | missingDuration => simp [message]
  | badDuration word =>
    simp only [message, reduceCtorEq, iff_false]
    intro h
    have hhead := congrArg (fun text : String => text.toList.head?) h
    simp at hhead

@[simp] theorem message_eq_bad_iff (fault : DirectiveFault) (word : String) :
    fault.message = "`" ++ word ++ "` is not a whole number of seconds" ↔
      fault = .badDuration word := by
  cases fault with
  | missingDuration =>
    simp only [message, reduceCtorEq, iff_false]
    intro h
    have hhead := congrArg (fun text : String => text.toList.head?) h
    simp at hhead
  | badDuration other => simp [message]

end DirectiveFault

namespace Directive

/-- A word that writes a number of seconds below `2 ^ 32`: one or more of the ten ASCII
digits, and perhaps an `s` after them. -/
def Lasts (word : String) (seconds : Nat) : Prop :=
  ∃ digits : List Char, digits ≠ [] ∧ (∀ c ∈ digits, c.isDigit = true) ∧
    (word.toList = digits ∨ word.toList = digits ++ ['s']) ∧
    seconds = Nat.ofDigits 10 (digits.map fun c => c.toNat - '0'.toNat).reverse ∧
    seconds ≤ 4294967295

theorem lasts_iff (word : String) (seconds : Nat) :
    Lasts word seconds ↔ ∃ ds : List Digit, ds ≠ [] ∧
      (word.toList = Digit.text ds ∨ word.toList = Digit.text ds ++ ['s']) ∧
      seconds = Digit.value ds ∧ seconds < 0x100000000 := by
  have hvalue (ds : List Digit) :
      Nat.ofDigits 10 ((Digit.text ds).map fun c => c.toNat - '0'.toNat).reverse =
        Digit.value ds := by
    rw [Digit.value_eq_ofDigits, Digit.text, List.map_map]
    congr 2
    exact List.map_congr_left fun d _ => Digit.toNat_toChar d
  constructor
  · rintro ⟨digits, hne, hdigits, hword, hseconds, hbound⟩
    obtain ⟨ds, rfl⟩ : digits ∈ Set.range Digit.text := by
      unfold Digit.text
      rw [Set.range_list_map]
      exact fun c hc => Digit.exists_toChar (hdigits c hc)
    refine ⟨ds, ?_, hword, hseconds.trans (hvalue ds), Nat.lt_succ_of_le hbound⟩
    rintro rfl
    exact hne rfl
  · rintro ⟨ds, hne, hword, hseconds, hbound⟩
    refine ⟨Digit.text ds, ?_, ?_, hword, hseconds.trans (hvalue ds).symm, Nat.le_of_lt_succ hbound⟩
    · simpa [Digit.text] using hne
    · intro c hc
      obtain ⟨d, _, rfl⟩ := List.mem_map.mp hc
      exact Digit.isDigit_toChar d

theorem seconds?_eq_some_iff (word : String) (seconds : Nat) :
    seconds? word = some seconds ↔ Lasts word seconds := by
  rw [lasts_iff]
  unfold seconds?
  constructor
  · intro h
    have htext := Digit.text_span word.toList
    split at h
    · cases h
    · rename_i ds rest hne hspan
      rw [hspan] at htext
      split at h
      · rename_i hread
        cases h
        refine ⟨ds, ?_, ?_, rfl, hread.2⟩
        · rintro rfl
          exact hne rfl
        · rcases hread.1 with rfl | rfl
          · exact .inl (htext.symm.trans (List.append_nil _))
          · exact .inr htext.symm
      · cases h
  · rintro ⟨ds, hne, hword, rfl, hbound⟩
    have hspan : ∃ rest, Digit.span word.toList = (ds, rest) ∧ (rest = [] ∨ rest = ['s']) := by
      rcases hword with hword | hword
      · refine ⟨[], ?_, .inl rfl⟩
        rw [hword, ← List.append_nil (Digit.text ds)]
        exact Digit.span_append (by simp) ds
      · refine ⟨['s'], ?_, .inr rfl⟩
        have hunit : ∀ c ∈ ['s'].head?, Digit.ofChar? c = none := by
          rintro c ⟨⟩
          rfl
        rw [hword]
        exact Digit.span_append hunit ds
    obtain ⟨rest, hspan, hrest⟩ := hspan
    rw [hspan]
    cases ds with
    | nil => exact absurd rfl hne
    | cons d ds => exact if_pos ⟨hrest, hbound⟩

/-- Why a text that asks for a pause is malformed: it names no duration, or the word in its
place is none. -/
def Malformed (raw reason : String) : Prop :=
  (Text.HasWords raw.toList ["wait"] ∧ reason = "missing duration") ∨
    ∃ word more, Text.HasWords raw.toList ("wait" :: word :: more) ∧
      (∀ seconds, ¬ Lasts word seconds) ∧
      reason = "`" ++ word ++ "` is not a whole number of seconds"

theorem parse_cases (raw : String) :
    (Text.words raw = ["wait"] ∧
        parse raw = .error (.malformedDirective raw .missingDuration)) ∨
      (∃ word more, Text.words raw = "wait" :: word :: more ∧ seconds? word = none ∧
        parse raw = .error (.malformedDirective raw (.badDuration word))) ∨
      (∃ word more seconds, Text.words raw = "wait" :: word :: more ∧
        seconds? word = some seconds ∧ parse raw = .ok (some (.wait seconds))) ∨
      ((∀ more, Text.words raw ≠ "wait" :: more) ∧ parse raw = .ok none) := by
  unfold parse
  split
  · rename_i hwords
    exact .inl ⟨hwords, rfl⟩
  · rename_i word more hwords
    cases hseconds : seconds? word with
    | none => exact .inr (.inl ⟨word, more, hwords, hseconds, rfl⟩)
    | some seconds => exact .inr (.inr (.inl ⟨word, more, seconds, hwords, hseconds, rfl⟩))
  · rename_i hmissing hword
    refine .inr (.inr (.inr ⟨?_, rfl⟩))
    rintro (_ | ⟨word, more⟩) hwords
    · exact hmissing hwords
    · exact hword word more hwords

/-- What a directive comes to is told by its words: a pause of less than `2 ^ 32` seconds is
understood, one without such a number is malformed, and everything else is passed over. -/
theorem parse_grammar (raw : String) :
    (∀ seconds, parse raw = .ok (some (.wait seconds)) ↔
      ∃ word more, Text.HasWords raw.toList ("wait" :: word :: more) ∧ Lasts word seconds) ∧
    (∀ error, parse raw = .error error ↔
      ∃ fault, error = .malformedDirective raw fault ∧ Malformed raw fault.message) ∧
    (parse raw = .ok none ↔ ∀ more, ¬ Text.HasWords raw.toList ("wait" :: more)) := by
  simp only [Malformed, ← Text.words_eq_iff, ← seconds?_eq_some_iff]
  obtain ⟨hwords, hparse⟩ | ⟨word, more, hwords, hseconds, hparse⟩ |
    ⟨word, more, seconds, hwords, hseconds, hparse⟩ | ⟨hwords, hparse⟩ := parse_cases raw
  · refine ⟨by simp [hparse, hwords], fun error => ?_, by simp [hparse, hwords]⟩
    rw [hparse, Except.error.injEq, eq_comm]
    simp [hwords]
  · refine ⟨by simp [hparse, hwords, hseconds], fun error => ?_, by simp [hparse, hwords]⟩
    rw [hparse, Except.error.injEq, eq_comm]
    simp [hwords, hseconds]
  · simp [hparse, hwords, hseconds]
  · simp [hparse, hwords]

example : (parse "wait 04294967295s").toOption = some (some (.wait 4294967295)) ∧
    (parse "wait 4294967296").toOption = none := by decide +kernel

end Directive

end Dialogue
