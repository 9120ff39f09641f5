import Dialogue.Json.Reader.Scalar

/-!
# Arrays, objects and whole values

An array is read element by element, an object member by member, so that a
reader of a particular shape can follow the text. `value` reads any shape, down
to a given number of nested arrays and objects.
-/

namespace Dialogue.Json

namespace Reader

variable {α σ : Type}

/-- After an element or member: a comma, or the closing bracket, which is left. -/
def comma (close : Char) : Reader Bool := do
  let c ← peek
  if c = close then pure false
  else if c = ',' then advance; pure true
  else fail .malformed

theorem peek_eq_cons {text rest : List Char} {c : Char} (h : peek.run text = .ok (c, rest)) :
    ∃ tail, rest = c :: tail := by
  simp only [peek, run_bind, space, look] at h
  cases hd : text.dropWhile isSpace with
  | nil => simp [hd] at h
  | cons d tail =>
    simp only [hd, List.head?_cons, run_pure, Except.ok.injEq, Prod.mk.injEq] at h
    exact ⟨tail, by rw [← h.2, ← h.1]⟩

theorem length_lt_of_comma {close : Char} {text rest : List Char}
    (h : (comma close).run text = .ok (true, rest)) : rest.length < text.length := by
  simp only [comma, run_bind] at h
  cases hp : peek.run text with
  | error fault => simp [hp] at h
  | ok found =>
    obtain ⟨c, middle⟩ := found
    obtain ⟨tail, rfl⟩ := peek_eq_cons hp
    have hl := (peek.suffix hp).length_le
    simp only [hp] at h
    split at h
    · simp at h
    · split at h
      · obtain rfl : tail = rest := by simpa using h
        exact hl
      · simp at h

def moreItemsOf (item : Reader α) (text : List Char) : Except Fault (List α × List Char) :=
  match _hc : (comma ']').run text with
  | .error fault => .error fault
  | .ok (false, rest) => .ok ([], rest)
  | .ok (true, rest) =>
    match _hi : item.run rest with
    | .error fault => .error fault
    | .ok (a, rest) => (moreItemsOf item rest).map fun (found, rest) => (a :: found, rest)
termination_by text.length
decreasing_by
  have := length_lt_of_comma _hc
  have := (item.suffix _hi).length_le
  omega

theorem moreItemsOf_suffix (item : Reader α) (text : List Char) {found : List α}
    {rest : List Char} (h : moreItemsOf item text = .ok (found, rest)) : rest <:+ text := by
  fun_induction moreItemsOf item text generalizing found rest with
  | case1 => cases h
  | case2 text rest' hc => cases h; exact (comma ']').suffix hc
  | case3 => cases h
  | case4 text rest' hc a rest'' hi ih =>
    cases hm : moreItemsOf item rest'' with
    | error fault => simp [hm, Except.map] at h
    | ok more =>
      simp only [hm, Except.map, Except.ok.injEq, Prod.mk.injEq] at h
      have := ih hm
      rw [h.2] at this
      exact (this.trans (item.suffix hi)).trans ((comma ']').suffix hc)

def moreItems (item : Reader α) : Reader (List α) where
  run := moreItemsOf item
  suffix h := moreItemsOf_suffix item _ h

def items (item : Reader α) : Reader (List α) := do
  if (← peek) = ']' then advance; pure []
  else
    let first ← item
    let more ← moreItems item
    advance
    pure (first :: more)

def firstItem? (item : Reader α) : Reader (Option α) := do
  if (← peek) = ']' then pure none else some <$> item

def nextItem? (item : Reader α) : Reader (Option α) := do
  if ← comma ']' then some <$> item else pure none

def closeItems : Reader Unit := do
  if (← peek) = ']' then advance else fail .malformed

def key (purpose : Purpose) : Reader String := do
  if (← peek) = '"' then string purpose else fail .malformed

def moreMembersOf (purpose : Purpose) (member : σ → String → Reader σ) (state : σ)
    (text : List Char) : Except Fault (σ × List Char) :=
  match _hc : (comma '\x7d').run text with
  | .error fault => .error fault
  | .ok (false, rest) => .ok (state, rest)
  | .ok (true, rest) =>
    match _hk : (key purpose >>= member state).run rest with
    | .error fault => .error fault
    | .ok (gathered, rest) => moreMembersOf purpose member gathered rest
termination_by text.length
decreasing_by
  have := length_lt_of_comma _hc
  have := ((key purpose >>= member state).suffix _hk).length_le
  omega

theorem moreMembersOf_suffix (purpose : Purpose) (member : σ → String → Reader σ) (state : σ)
    (text : List Char) {final : σ} {rest : List Char}
    (h : moreMembersOf purpose member state text = .ok (final, rest)) : rest <:+ text := by
  fun_induction moreMembersOf purpose member state text with
  | case1 => cases h
  | case2 state text rest' hc => cases h; exact (comma '\x7d').suffix hc
  | case3 => cases h
  | case4 state text rest' hc state' rest'' hk ih =>
    exact ((ih h).trans ((key purpose >>= member state).suffix hk)).trans
      ((comma '\x7d').suffix hc)

def moreMembers (purpose : Purpose) (member : σ → String → Reader σ) (state : σ) : Reader σ where
  run := moreMembersOf purpose member state
  suffix h := moreMembersOf_suffix purpose member state _ h

/-- The members of an object, after its opening brace. `member` is given what
has been gathered and the key, and reads on from the colon. -/
def members (purpose : Purpose) (member : σ → String → Reader σ) (state : σ) : Reader σ := do
  if (← peek) = '\x7d' then advance; pure state
  else
    let state ← key purpose >>= member state
    let state ← moreMembers purpose member state
    advance
    pure state

def memberList (purpose : Purpose) (value : Reader α) : Reader (List (String × α)) :=
  members purpose (fun found key => do colon; pure (found ++ [(key, ← value)])) []

/-- A value, given how to read the values inside it. Where nothing may be
nested any more, a bracket is malformed like any other character. -/
def valueWith (purpose : Purpose) (nested : Option (Reader Json)) : Reader Json := do
  match ← peek, nested with
  | '[', some nested => advance; .array <$> items nested
  | '\x7b', some nested => advance; .object <$> memberList purpose nested
  | _, _ => scalar purpose

def value (purpose : Purpose) : Nat → Reader Json
  | 0 => valueWith purpose none
  | depth + 1 => delay fun _ => valueWith purpose (some (value purpose depth))

/-- Passes over a value. It may be nested as deep as its text is long. -/
def skip : Reader Unit := do
  discard (value .skip (← size))

/-- Passes over an opening bracket or brace, if one more may be opened, and
tells how many may be opened inside. -/
def enter : Nat → Reader Nat
  | 0 => fail .malformed
  | depth + 1 => do advance; pure depth

end Reader

def nestingLimit : Nat := 127

def parse (text : String) : Except Fault Json := (Reader.value .keep nestingLimit).parse text

end Dialogue.Json
