import Dialogue.Json.Reader.Value
import Mathlib.Data.List.Basic

/-!
# What arrays and objects hold

`HasMembers` says which members the text of an object has, in the order of the text, and
without saying what becomes of them. `memberList` reads just these
(`memberList_eq_ok_iff`), and so does every other reader of the object, as far as it gets:
if what it does with a member depends on the value alone, then what it does with the object
is a fold over the members (`HasMembers.run_members`). `Spells` says in the same way what
tree a text begins with, which is just the tree that is read from it (`value_eq_ok_iff`).
-/

namespace Dialogue.Json.Reader

variable {α β σ : Type}

theorem bind_of_ok {x : Reader α} (h : x.run text = .ok (a, rest)) (f : α → Reader β) :
    (x >>= f).run text = (f a).run rest := by
  rw [run_bind, h]

theorem bind_eq_ok {x : Reader α} {f : α → Reader β} (h : (x >>= f).run text = .ok (b, rest)) :
    ∃ a middle, x.run text = .ok (a, middle) ∧ (f a).run middle = .ok (b, rest) := by
  rw [run_bind] at h
  split at h
  · rename_i a middle hx
    exact ⟨a, middle, hx, h⟩
  · cases h

-- ---------------------------------------------------------------------------
-- Elements
-- ---------------------------------------------------------------------------

theorem run_moreItems_close (h : (comma ']').run text = .ok (false, rest)) (item : Reader α) :
    (moreItems item).run text = .ok ([], rest) := by
  show moreItemsOf item text = _
  rw [moreItemsOf]
  split <;> simp_all

theorem run_moreItems_more {item : Reader α} (hcomma : (comma ']').run text = .ok (true, first))
    (hitem : item.run first = .ok (a, later))
    (hmore : (moreItems item).run later = .ok (found, rest)) :
    (moreItems item).run text = .ok (a :: found, rest) := by
  show moreItemsOf item text = _
  rw [moreItemsOf]
  split
  · simp_all
  · simp_all
  · rename_i rest hcomma'
    cases hcomma.symm.trans hcomma'
    split
    · simp_all
    · rename_i hitem'
      cases hitem.symm.trans hitem'
      rw [show moreItemsOf item later = _ from hmore]
      rfl

-- ---------------------------------------------------------------------------
-- Members
-- ---------------------------------------------------------------------------

def IsMember (purpose : Purpose) (value : Reader α) (text : List Char) (name : String) (a : α)
    (rest : List Char) : Prop :=
  ∃ middle, (key purpose).run text = .ok (name, middle) ∧
    (do colon; value).run middle = .ok (a, rest)

/-- The members after one that has been read, up to the closing brace. -/
inductive MembersRest (purpose : Purpose) (value : Reader α) :
    List Char → List (String × α) → List Char → Prop
  | close : (comma '\x7d').run text = .ok (false, rest) → MembersRest purpose value text [] rest
  | more : (comma '\x7d').run text = .ok (true, first) →
    IsMember purpose value first name a later → MembersRest purpose value later found rest →
    MembersRest purpose value text ((name, a) :: found) rest

inductive HasMembers (purpose : Purpose) (value : Reader α) :
    List Char → List (String × α) → List Char → Prop
  | none : peek.run text = .ok ('\x7d', rest) → HasMembers purpose value text [] rest.tail
  | some : peek.run text = .ok (c, first) → c ≠ '\x7d' →
    IsMember purpose value first name a later → MembersRest purpose value later found rest →
    HasMembers purpose value text ((name, a) :: found) rest.tail

section

variable {purpose : Purpose} {member : σ → String → Reader σ}

theorem run_moreMembers_close (h : (comma '\x7d').run text = .ok (false, rest)) (state : σ) :
    (moreMembers purpose member state).run text = .ok (state, rest) := by
  show moreMembersOf purpose member state text = _
  rw [moreMembersOf]
  split <;> simp_all

theorem run_moreMembers_more (h : (comma '\x7d').run text = .ok (true, first)) (state : σ) :
    (moreMembers purpose member state).run text =
      (do moreMembers purpose member (← key purpose >>= member state)).run first := by
  show moreMembersOf purpose member state text = _
  rw [moreMembersOf, run_bind]
  split
  · simp_all
  · simp_all
  · rename_i rest hcomma
    cases h.symm.trans hcomma
    split
    · simp_all
    · simp_all
      rfl

end

def Follows (member : σ → String → Reader σ) (value : Reader α)
    (step : σ → String × α → Except Fault σ) : Prop :=
  ∀ state name text a rest, (do colon; value).run text = .ok (a, rest) →
    (member state name).run text = (step state (name, a)).map (·, rest)

section

variable {purpose : Purpose} {value : Reader α} {member : σ → String → Reader σ}
  {step : σ → String × α → Except Fault σ} (hmember : Follows member value step)
include hmember

theorem IsMember.run (h : IsMember purpose value text name a rest) (state : σ) :
    (key purpose >>= member state).run text = (step state (name, a)).map (·, rest) := by
  obtain ⟨middle, hkey, hcontent⟩ := h
  rw [bind_of_ok hkey]
  exact hmember state name middle a rest hcontent

theorem MembersRest.run (h : MembersRest purpose value text found rest) (state : σ) :
    (moreMembers purpose member state).run text = (found.foldlM step state).map (·, rest) := by
  induction h generalizing state with
  | close hcomma => exact run_moreMembers_close hcomma state
  | more hcomma hentry _ ih =>
    rw [run_moreMembers_more hcomma, run_bind, hentry.run hmember, List.foldlM_cons]
    cases step state _ with
    | error fault => rfl
    | ok state => exact ih state

/-- What a reader makes of an object is a fold over the members. -/
theorem HasMembers.run_members (h : HasMembers purpose value text found rest) (state : σ) :
    (members purpose member state).run text = (found.foldlM step state).map (·, rest) := by
  unfold members
  cases h with
  | none hpeek =>
    rw [bind_of_ok hpeek]
    rfl
  | some hpeek hclose hentry hmore =>
    rw [bind_of_ok hpeek, if_neg hclose, run_bind, hentry.run hmember, List.foldlM_cons]
    cases step state _ with
    | error fault => rfl
    | ok state =>
      simp only [Except.map, run_bind, hmore.run hmember]
      cases hfold : List.foldlM step state _ <;> simp [bind, Except.bind, hfold]

end

-- ---------------------------------------------------------------------------
-- Members in a list
-- ---------------------------------------------------------------------------

section

variable {purpose : Purpose} {value : Reader α}

def gather (value : Reader α) (found : List (String × α)) (name : String) :
    Reader (List (String × α)) := do
  colon
  pure (found ++ [(name, ← value)])

theorem follows_gather (value : Reader α) :
    Follows (gather value) value fun found entry => .ok (found ++ [entry]) := by
  intro found name text a rest h
  obtain ⟨_, middle, hcolon, hvalue⟩ := bind_eq_ok h
  unfold gather
  rw [bind_of_ok hcolon, bind_of_ok hvalue]
  rfl

theorem foldlM_gather (found start : List α) :
    found.foldlM (fun found entry => (.ok (found ++ [entry]) : Except Fault _)) start =
      .ok (start ++ found) := by
  induction found generalizing start with
  | nil => simp [pure, Except.pure]
  | cons entry rest ih =>
    rw [List.foldlM_cons]
    show List.foldlM _ (start ++ [entry]) rest = _
    rw [ih, List.append_assoc]
    rfl

theorem isMember_of_gather
    (h : (key purpose >>= gather value start).run text = .ok (final, rest)) :
    ∃ name a, IsMember purpose value text name a rest ∧ final = start ++ [(name, a)] := by
  obtain ⟨name, middle, hkey, h⟩ := bind_eq_ok h
  obtain ⟨_, later, hcolon, h⟩ := bind_eq_ok h
  obtain ⟨a, rest, hvalue, h⟩ := bind_eq_ok h
  cases h
  refine ⟨name, a, ⟨middle, hkey, ?_⟩, rfl⟩
  rw [bind_of_ok hcolon, hvalue]

theorem membersRest_of_gather
    (h : (moreMembers purpose (gather value) start).run text = .ok (final, rest)) :
    ∃ found, MembersRest purpose value text found rest ∧ final = start ++ found := by
  change moreMembersOf purpose (gather value) start text = .ok (final, rest) at h
  fun_induction moreMembersOf purpose (gather value) start text with
  | case1 => cases h
  | case2 start text rest' hcomma =>
    cases h
    exact ⟨[], .close hcomma, (List.append_nil _).symm⟩
  | case3 => cases h
  | case4 start text first hcomma gathered later hentry ih =>
    obtain ⟨name, a, hmember, rfl⟩ := isMember_of_gather hentry
    obtain ⟨found, hfound, rfl⟩ := ih h
    exact ⟨(name, a) :: found, .more hcomma hmember hfound, List.append_assoc _ _ _⟩

theorem memberList_eq_ok_iff :
    (memberList purpose value).run text = .ok (found, rest) ↔
      HasMembers purpose value text found rest := by
  constructor
  · intro h
    change (members purpose (gather value) []).run text = .ok (found, rest) at h
    obtain ⟨c, first, hpeek, h⟩ := bind_eq_ok h
    split at h
    · rename_i hclose
      subst hclose
      cases h
      exact .none hpeek
    · rename_i hclose
      obtain ⟨start, later, hentry, h⟩ := bind_eq_ok h
      obtain ⟨final, last, hmore, h⟩ := bind_eq_ok h
      cases h
      obtain ⟨name, a, hmember, rfl⟩ := isMember_of_gather hentry
      obtain ⟨more, hrest, rfl⟩ := membersRest_of_gather hmore
      exact .some hpeek hclose hmember hrest
  · intro h
    have hrun := h.run_members (follows_gather value) []
    rw [foldlM_gather, List.nil_append] at hrun
    exact hrun

end

-- ---------------------------------------------------------------------------
-- Values
-- ---------------------------------------------------------------------------

theorem peek_again (h : peek.run text = .ok (c, first)) : peek.run first = .ok (c, first) := by
  simp only [peek, run_bind, space, look] at h ⊢
  cases hd : text.dropWhile isSpace with
  | nil => simp [hd] at h
  | cons d tail =>
    have hspace : isSpace d = false := by
      have hhead := List.head_dropWhile_not (p := isSpace) (l := text) (by simp [hd])
      simpa [hd] using hhead
    simp only [hd, List.head?_cons, run_pure, Except.ok.injEq, Prod.mk.injEq] at h
    obtain ⟨rfl, rfl⟩ := h
    simp [hspace]

/-- How a value is spelled that has at most so many arrays and objects around one another. -/
inductive Spells (purpose : Purpose) : Nat → List Char → Json → List Char → Prop
  | array {n : Nat} : peek.run text = .ok ('[', first) →
    (items (value purpose n)).run first.tail = .ok (found, rest) →
    Spells purpose (n + 1) text (.array found) rest
  | object {n : Nat} : peek.run text = .ok ('\x7b', first) →
    HasMembers purpose (value purpose n) first.tail found rest →
    Spells purpose (n + 1) text (.object found) rest
  | scalar {n : Nat} : peek.run text = .ok (c, first) → c ≠ '[' → c ≠ '\x7b' →
    (scalar purpose).run first = .ok (json, rest) → Spells purpose n text json rest

theorem scalar_of_bracket (h : peek.run text = .ok (c, first)) (hc : c = '[' ∨ c = '\x7b')
    (purpose : Purpose) : (scalar purpose).run text = .error .malformed := by
  unfold scalar
  rw [bind_of_ok h]
  rcases hc with rfl | rfl <;> rfl

theorem map_of_ok {x : Reader α} (h : x.run text = .ok (a, rest)) (f : α → β) :
    (f <$> x).run text = .ok (f a, rest) :=
  bind_of_ok h _

theorem map_eq_ok {x : Reader α} {f : α → β} (h : (f <$> x).run text = .ok (b, rest)) :
    ∃ a, x.run text = .ok (a, rest) ∧ f a = b := by
  obtain ⟨a, middle, hx, h⟩ := bind_eq_ok h
  cases h
  exact ⟨a, hx, rfl⟩

theorem valueWith_of_scalar (hpeek : peek.run text = .ok (c, first)) (harray : c ≠ '[')
    (hobject : c ≠ '\x7b') (nested : Option (Reader Json)) :
    (valueWith purpose nested).run text = (scalar purpose).run first := by
  unfold valueWith
  rw [bind_of_ok hpeek]
  split
  · exact absurd rfl harray
  · exact absurd rfl hobject
  · rfl

theorem spells_scalar {n : Nat} (hpeek : peek.run text = .ok (c, first))
    (h : (scalar purpose).run first = .ok (json, rest)) : Spells purpose n text json rest := by
  have hnone (hc : c = '[' ∨ c = '\x7b') : False := by
    rw [scalar_of_bracket (peek_again hpeek) hc] at h
    cases h
  exact .scalar hpeek (fun hc => hnone (.inl hc)) (fun hc => hnone (.inr hc)) h

theorem value_eq_ok_iff {n : Nat} :
    (value purpose n).run text = .ok (json, rest) ↔ Spells purpose n text json rest := by
  constructor
  · intro h
    cases n with
    | zero =>
      obtain ⟨c, first, hpeek, h⟩ := bind_eq_ok h
      split at h
      · cases ‹none = some _›
      · cases ‹none = some _›
      · exact spells_scalar hpeek h
    | succ n =>
      obtain ⟨c, first, hpeek, h⟩ := bind_eq_ok (show (valueWith purpose _).run text = _ from h)
      split at h
      · cases ‹some _ = some _›
        obtain ⟨found, hitems, rfl⟩ := map_eq_ok h
        exact .array hpeek hitems
      · cases ‹some _ = some _›
        obtain ⟨found, hmembers, rfl⟩ := map_eq_ok h
        exact .object hpeek (memberList_eq_ok_iff.mp hmembers)
      · exact spells_scalar hpeek h
  · intro h
    cases h with
    | array hpeek hitems =>
      show (valueWith purpose _).run text = _
      unfold valueWith
      rw [bind_of_ok hpeek]
      exact map_of_ok hitems _
    | object hpeek hmembers =>
      show (valueWith purpose _).run text = _
      unfold valueWith
      rw [bind_of_ok hpeek]
      exact map_of_ok (memberList_eq_ok_iff.mpr hmembers) _
    | scalar hpeek harray hobject hscalar =>
      cases n with
      | zero => exact (valueWith_of_scalar hpeek harray hobject _).trans hscalar
      | succ n => exact (valueWith_of_scalar hpeek harray hobject _).trans hscalar

end Dialogue.Json.Reader
