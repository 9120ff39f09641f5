import Dialogue.Proofs.Scalars

/-!
# Trees that are read as they were written

`Json.Readable` trees are not nested too deep, and their numerals are properly written and in
range. The layout of such a tree, at any indentation, is read as that tree with nothing left
over (`Json.Readable.reads`), by induction on the tree: what comes after a value in a layout
is a comma or a line break, and neither goes on with a numeral.
-/

namespace Dialogue.Json

/-- A tree that can be read where so many arrays and objects may be open at once: it is not
nested deeper, and its numerals are properly written and in range. -/
inductive Readable : Nat → Json → Prop
  | null {n : Nat} : Readable n .null
  | bool {n : Nat} {value : Bool} : Readable n (.bool value)
  | number {n : Nat} {numeral : Numeral} : numeral.WellFormed → numeral.number?.isSome →
    Readable n (.number numeral)
  | string {n : Nat} : Readable n (.string text)
  | array {n : Nat} : (∀ item ∈ items, Readable n item) → Readable (n + 1) (.array items)
  | object {n : Nat} : (∀ member ∈ members, Readable n member.2) →
    Readable (n + 1) (.object members)

@[simp] theorem readable_string {n : Nat} (text : String) : Readable n (.string text) := .string

@[simp] theorem readable_array_iff {n : Nat} {items : List Json} :
    Readable (n + 1) (.array items) ↔ ∀ item ∈ items, Readable n item :=
  ⟨fun h => by cases h; assumption, .array⟩

@[simp] theorem readable_object_iff {n : Nat} {members : List (String × Json)} :
    Readable (n + 1) (.object members) ↔ ∀ member ∈ members, Readable n member.2 :=
  ⟨fun h => by cases h; assumption, .object⟩

-- ---------------------------------------------------------------------------
-- White space
-- ---------------------------------------------------------------------------

namespace Reader

theorem peek_cons (hc : isSpace c = false) (rest : List Char) :
    peek.run (c :: rest) = .ok (c, c :: rest) := by
  simp [peek, space, look, hc]

theorem isSpace_of_mem_lineBreak (hc : c ∈ lineBreak level) : isSpace c = true := by
  rcases List.mem_cons.mp hc with rfl | hc
  · rfl
  · rw [List.eq_of_mem_replicate hc]
    rfl

section

variable {blank : List Char} (hblank : ∀ c ∈ blank, isSpace c = true)
include hblank

theorem peek_append (text : List Char) : peek.run (blank ++ text) = peek.run text := by
  simp only [peek, run_bind, space, List.dropWhile_append_of_pos hblank]

theorem Spells.append {n : Nat} (h : Spells purpose n text json rest) :
    Spells purpose n (blank ++ text) json rest := by
  have hsame := peek_append hblank text
  cases h with
  | array hpeek hitems => exact .array (hsame.trans hpeek) hitems
  | object hpeek hmembers => exact .object (hsame.trans hpeek) hmembers
  | scalar hpeek harray hobject hscalar =>
    exact .scalar (hsame.trans hpeek) harray hobject hscalar

theorem IsMember.append {value : Reader α} (h : IsMember purpose value text name a rest) :
    IsMember purpose value (blank ++ text) name a rest := by
  obtain ⟨middle, hkey, hvalue⟩ := h
  refine ⟨middle, ?_, hvalue⟩
  unfold key at hkey ⊢
  rwa [run_bind, peek_append hblank, ← run_bind]

end

theorem peek_lineBreak (level : Nat) (text : List Char) :
    peek.run (lineBreak level ++ text) = peek.run text :=
  peek_append (fun _ => isSpace_of_mem_lineBreak) text

theorem comma_close {close : Char} (hclose : isSpace close = false) (level : Nat)
    (rest : List Char) :
    (comma close).run (lineBreak level ++ close :: rest) = .ok (false, close :: rest) := by
  unfold comma
  rw [bind_of_ok ((peek_lineBreak level _).trans (peek_cons hclose rest)), if_pos rfl]
  rfl

theorem comma_more {close : Char} (hclose : close ≠ ',') (rest : List Char) :
    (comma close).run (',' :: rest) = .ok (true, rest) := by
  unfold comma
  rw [bind_of_ok (peek_cons (by decide) rest), if_neg hclose.symm, if_pos rfl]
  rfl

end Reader

open Reader (EndsNumeral Spells isSpace)

def StartsNumeral (c : Char) : Prop := c = '-' ∨ c.isDigit = true

theorem StartsNumeral.not_mem (h : StartsNumeral c) :
    c ∉ ['n', 't', 'f', '"', '[', ']', '\x7b', ' ', '\t', '\n', '\r'] := by
  rcases h with rfl | hdigit
  · decide
  · obtain ⟨d, rfl⟩ := Digit.exists_toChar hdigit
    clear hdigit
    revert d
    decide

theorem StartsNumeral.isSpace_eq (h : StartsNumeral c) : isSpace c = false := by
  have hmarks := h.not_mem
  simp only [List.mem_cons, not_or] at hmarks
  simp [isSpace, hmarks]

theorem Numeral.WellFormed.text_eq_cons {n : Numeral} (h : n.WellFormed) :
    ∃ c tail, n.text = c :: tail ∧ StartsNumeral c := by
  obtain ⟨first, more, hwhole, _⟩ := h.1
  unfold Numeral.text
  rw [hwhole]
  cases n.negative with
  | true => exact ⟨'-', _, rfl, .inl rfl⟩
  | false => exact ⟨Digit.toChar first, _, rfl, .inr (Digit.isDigit_toChar first)⟩

theorem Readable.layout_eq_cons {n : Nat} (h : Readable n json) (level : Nat) :
    ∃ c tail, layout level json = c :: tail ∧ isSpace c = false ∧ c ≠ ']' := by
  cases h with
  | null => exact ⟨'n', _, rfl, by decide, by decide⟩
  | @bool _ value => cases value <;> exact ⟨_, _, rfl, by decide, by decide⟩
  | number hformed =>
    obtain ⟨c, tail, htext, hc⟩ := hformed.text_eq_cons
    refine ⟨c, tail, htext, hc.isSpace_eq, ?_⟩
    rintro rfl
    exact hc.not_mem (by decide)
  | string => exact ⟨'"', _, rfl, by decide, by decide⟩
  | @array items => cases items <;> exact ⟨'[', _, rfl, by decide, by decide⟩
  | @object members => cases members <;> exact ⟨'\x7b', _, rfl, by decide, by decide⟩

/-- A tree is read where it stands in a text. -/
def Reads (n : Nat) (json : Json) : Prop :=
  ∀ level rest, EndsNumeral rest → Spells .keep n (layout level json ++ rest) json rest

-- ---------------------------------------------------------------------------
-- Arrays
-- ---------------------------------------------------------------------------

theorem endsNumeral_cons (h : Digit.ofChar? c = none ∧ c ≠ '.' ∧ c ≠ 'e' ∧ c ≠ 'E')
    (rest : List Char) : EndsNumeral (c :: rest) := by
  rintro _ ⟨⟩
  exact h

theorem endsNumeral_lineBreak (level : Nat) (rest : List Char) :
    EndsNumeral (lineBreak level ++ rest) :=
  endsNumeral_cons (by decide) _

theorem endsNumeral_layoutItems (level : Nat) (items : List Json) (hrest : EndsNumeral rest) :
    EndsNumeral (layoutItems level items ++ rest) := by
  cases items with
  | nil => exact hrest
  | cons item more => exact endsNumeral_cons (by decide) _

theorem endsNumeral_layoutMembers (level : Nat) (members : List (String × Json))
    (hrest : EndsNumeral rest) :
    EndsNumeral (layoutMembers level members ++ rest) := by
  cases members with
  | nil => exact hrest
  | cons member more => exact endsNumeral_cons (by decide) _

theorem run_layoutItems {n : Nat} {items : List Json} (hitems : ∀ item ∈ items, Reads n item)
    (level outer : Nat) (rest : List Char) :
    (Reader.moreItems (Reader.value .keep n)).run
      (layoutItems level items ++ (lineBreak outer ++ ']' :: rest)) = .ok (items, ']' :: rest) := by
  induction items with
  | nil => exact Reader.run_moreItems_close (Reader.comma_close (by decide) outer rest) _
  | cons item more ih =>
    obtain ⟨hitem, hmore⟩ := List.forall_mem_cons.mp hitems
    rw [layoutItems]
    simp only [List.cons_append, List.append_assoc]
    have hends := endsNumeral_layoutItems level more (endsNumeral_lineBreak outer (']' :: rest))
    exact Reader.run_moreItems_more (Reader.comma_more (by decide) _)
      (Reader.value_eq_ok_iff.mpr
        ((hitem level _ hends).append fun _ => Reader.isSpace_of_mem_lineBreak)) (ih hmore)

theorem reads_array {n : Nat} {items : List Json} (hreadable : ∀ item ∈ items, Readable n item)
    (hitems : ∀ item ∈ items, Reads n item) : Reads (n + 1) (.array items) := by
  intro level rest _
  have hpeek (text : List Char) : Reader.peek.run ('[' :: text) = .ok ('[', '[' :: text) :=
    Reader.peek_cons (by decide) text
  cases items with
  | nil => exact .array (hpeek _) rfl
  | cons item more =>
    obtain ⟨hitem, hmore⟩ := List.forall_mem_cons.mp hitems
    obtain ⟨c, tail, hlayout, hspace, hclose⟩ :=
      (List.forall_mem_cons.mp hreadable).1.layout_eq_cons (level + 1)
    have hends :=
      endsNumeral_layoutItems (level + 1) more (endsNumeral_lineBreak level (']' :: rest))
    have hstart (text : List Char) : Reader.peek.run (lineBreak (level + 1) ++
        (layout (level + 1) item ++ text)) = .ok (c, layout (level + 1) item ++ text) := by
      rw [Reader.peek_lineBreak, hlayout]
      exact Reader.peek_cons hspace _
    rw [layout]
    simp only [List.cons_append, List.nil_append, List.append_assoc]
    refine .array (hpeek _) ?_
    unfold Reader.items
    rw [List.tail_cons, Reader.bind_of_ok (hstart _), if_neg hclose,
      Reader.bind_of_ok (Reader.value_eq_ok_iff.mpr (hitem (level + 1) _ hends)),
      Reader.bind_of_ok (run_layoutItems hmore (level + 1) level rest)]
    rfl

-- ---------------------------------------------------------------------------
-- Objects
-- ---------------------------------------------------------------------------

theorem peek_quoted (text : String) (rest : List Char) :
    Reader.peek.run (quoted text ++ rest) = .ok ('"', quoted text ++ rest) :=
  Reader.peek_cons (by decide) _

theorem isMember_layout {n : Nat} {json : Json} (h : Reads n json) (name : String) (level : Nat)
    (hrest : EndsNumeral rest) :
    Reader.IsMember .keep (Reader.value .keep n)
      (quoted name ++ (':' :: ' ' :: (layout level json ++ rest))) name json rest := by
  refine ⟨':' :: ' ' :: (layout level json ++ rest), ?_, ?_⟩
  · unfold Reader.key
    rw [Reader.bind_of_ok (peek_quoted name _), if_pos rfl]
    exact Reader.run_string name _
  · have hcolon : Reader.colon.run (':' :: ' ' :: (layout level json ++ rest)) =
        .ok ((), ' ' :: (layout level json ++ rest)) := rfl
    have hblank : ∀ c ∈ [' '], isSpace c = true := by
      intro c hc
      rw [List.mem_singleton.mp hc]
      rfl
    rw [Reader.bind_of_ok hcolon]
    exact Reader.value_eq_ok_iff.mpr ((h level rest hrest).append hblank)

theorem membersRest_layout {n : Nat} {members : List (String × Json)}
    (hmembers : ∀ member ∈ members, Reads n member.2) (level outer : Nat) (rest : List Char) :
    Reader.MembersRest .keep (Reader.value .keep n)
      (layoutMembers level members ++ (lineBreak outer ++ '\x7d' :: rest)) members
        ('\x7d' :: rest) := by
  induction members with
  | nil => exact .close (Reader.comma_close (by decide) outer rest)
  | cons member more ih =>
    obtain ⟨hmember, hmore⟩ := List.forall_mem_cons.mp hmembers
    have hends :=
      endsNumeral_layoutMembers level more (endsNumeral_lineBreak outer ('\x7d' :: rest))
    rw [layoutMembers]
    simp only [List.cons_append, List.nil_append, List.append_assoc]
    exact .more (Reader.comma_more (by decide) _) ((isMember_layout hmember _ level hends).append
      fun _ => Reader.isSpace_of_mem_lineBreak) (ih hmore)

theorem reads_object {n : Nat} {members : List (String × Json)}
    (hmembers : ∀ member ∈ members, Reads n member.2) : Reads (n + 1) (.object members) := by
  intro level rest _
  have hpeek (text : List Char) :
      Reader.peek.run ('\x7b' :: text) = .ok ('\x7b', '\x7b' :: text) :=
    Reader.peek_cons (by decide) text
  cases members with
  | nil => exact .object (hpeek _) (.none (Reader.peek_cons (by decide) _))
  | cons member more =>
    obtain ⟨hmember, hmore⟩ := List.forall_mem_cons.mp hmembers
    have hends :=
      endsNumeral_layoutMembers (level + 1) more (endsNumeral_lineBreak level ('\x7d' :: rest))
    rw [layout]
    simp only [List.cons_append, List.nil_append, List.append_assoc]
    refine .object (hpeek _) (.some ((Reader.peek_lineBreak _ _).trans (peek_quoted member.1 _))
      (by decide) (isMember_layout hmember _ (level + 1) hends)
      (membersRest_layout hmore (level + 1) level rest))

-- ---------------------------------------------------------------------------
-- Trees
-- ---------------------------------------------------------------------------

theorem reads_number {n : Nat} {numeral : Numeral} (hformed : numeral.WellFormed)
    (hsome : numeral.number?.isSome) : Reads n (.number numeral) := by
  intro level rest hrest
  obtain ⟨c, tail, htext, hc⟩ := hformed.text_eq_cons
  have hmarks := hc.not_mem
  simp only [List.mem_cons, not_or] at hmarks
  have hpeek : Reader.peek.run (layout level (.number numeral) ++ rest) =
      .ok (c, layout level (.number numeral) ++ rest) := by
    rw [layout, htext]
    exact Reader.peek_cons hc.isSpace_eq _
  refine .scalar hpeek hmarks.2.2.2.2.1 hmarks.2.2.2.2.2.2.1 ?_
  unfold Reader.scalar
  rw [Reader.bind_of_ok hpeek]
  split
  · exact absurd rfl hmarks.1
  · exact absurd rfl hmarks.2.1
  · exact absurd rfl hmarks.2.2.1
  · exact absurd rfl hmarks.2.2.2.1
  · rw [if_pos (show c = '-' ∨ c.isDigit = true from hc)]
    exact Reader.map_of_ok (Reader.run_numeral hformed hsome hrest) _

theorem Readable.reads {n : Nat} (h : Readable n json) : Reads n json := by
  induction h with
  | null =>
    exact fun level rest _ => .scalar (Reader.peek_cons (by decide) _) (by decide) (by decide) rfl
  | @bool _ value =>
    intro level rest _
    cases value
    · exact .scalar (Reader.peek_cons (by decide) _) (by decide) (by decide) rfl
    · exact .scalar (Reader.peek_cons (by decide) _) (by decide) (by decide) rfl
  | number hformed hsome => exact reads_number hformed hsome
  | @string text =>
    intro level rest _
    refine .scalar (peek_quoted text rest) (by decide) (by decide) ?_
    unfold Reader.scalar
    rw [Reader.bind_of_ok (peek_quoted text rest)]
    exact Reader.map_of_ok (Reader.run_string text rest) _
  | array hreadable ih => exact reads_array hreadable ih
  | object _ ih => exact reads_object ih

theorem Readable.parse_pretty (h : Readable nestingLimit json) : parse json.pretty = .ok json := by
  have hrun := Reader.value_eq_ok_iff.mpr (h.reads 0 [] (by simp [EndsNumeral]))
  rw [List.append_nil] at hrun
  unfold parse Reader.parse pretty
  rw [String.toList_ofList, hrun]
  rfl

end Dialogue.Json
