import Dialogue.Proofs.Containers
import Dialogue.Proofs.Records

/-!
# Statements in text and as trees

A statement is read along its text, its type as soon as it comes and everything else as a
tree. Whatever text spells a tree, reading a statement from it is the same as reading the
tree first and then giving it its shape (`Script.Reader.statement_of_value`).
-/

namespace Dialogue

-- ---------------------------------------------------------------------------
-- Types and other fields
-- ---------------------------------------------------------------------------

namespace Statement

theorem taggedWith?_without_type (read : Json → Option Statement) (tag : String)
    (members : List (String × Json)) :
    taggedWith? read tag (.object (members.filter (·.1 ≠ "type"))) =
      taggedWith? read tag (.object members) := by
  have hfields {names : List String} (hnames : "type" ∉ names) :
      (Json.object (members.filter (·.1 ≠ "type"))).fields? names =
        (Json.object members).fields? names := by
    rw [Json.fields?_object, Json.fields?_object]
    refine mapM_congr fun name hname => ?_
    have hother : name ≠ "type" := fun heq => hnames (heq ▸ hname)
    rw [List.filter_filter]
    congr 1
    refine List.filter_congr fun member _ => ?_
    by_cases hmember : member.1 = name <;> simp [hmember, hother]
  unfold taggedWith?
  split <;> rw [hfields (by simp)]

end Statement

-- ---------------------------------------------------------------------------
-- Texts
-- ---------------------------------------------------------------------------

namespace Json.Reader

variable {α : Type} {n : Nat}

theorem run_after_peek (h : peek.run text = .ok (c, first)) (f : Char → Reader α) :
    (peek >>= f).run first = (peek >>= f).run text := by
  rw [bind_of_ok (peek_again h), bind_of_ok h]

/-- Where a value of one shape is expected, any other value is refused. -/
theorem misshapen_of_value (h : (value .keep n).run text = .ok (json, rest)) :
    (misshapen : Reader α).run text = .error .misshapen := by
  unfold misshapen
  cases value_eq_ok_iff.mp h with
  | array hpeek _ =>
    rw [bind_of_ok hpeek]
    rfl
  | object hpeek _ =>
    rw [bind_of_ok hpeek]
    rfl
  | scalar hpeek harray hobject hscalar =>
    rw [bind_of_ok hpeek]
    split
    · exact absurd rfl harray
    · exact absurd rfl hobject
    · exact bind_of_ok (map_of_ok hscalar _) _

theorem scalar_eq_ok (hpeek : peek.run text = .ok (c, first))
    (h : (scalar purpose).run text = .ok (json, rest)) :
    (∃ found, c = '"' ∧ json = .string found ∧ (string purpose).run first = .ok (found, rest)) ∨
      c ≠ '"' ∧ Json.text? json = none ∧ json.depth = 0 := by
  unfold scalar at h
  rw [bind_of_ok hpeek] at h
  have hword {letters : List Char} {found : Json}
      (h : (do advance; word letters; pure found).run first = .ok (json, rest)) :
      found = json := by
    obtain ⟨_, middle, _, h⟩ := bind_eq_ok h
    obtain ⟨_, later, _, h⟩ := bind_eq_ok h
    cases h
    rfl
  split at h
  · obtain rfl := hword h
    exact .inr ⟨by decide, rfl, rfl⟩
  · obtain rfl := hword h
    exact .inr ⟨by decide, rfl, rfl⟩
  · obtain rfl := hword h
    exact .inr ⟨by decide, rfl, rfl⟩
  · obtain ⟨found, hfound, rfl⟩ := map_eq_ok h
    exact .inl ⟨found, rfl, rfl, hfound⟩
  · rename_i hquote
    split at h
    · obtain ⟨numeral, _, rfl⟩ := map_eq_ok h
      exact .inr ⟨hquote, rfl, rfl⟩
    · cases h

theorem moreItems_eq_cons {item : Reader α} (h : (moreItems item).run text = .ok (found, rest)) :
    ∃ tail, rest = ']' :: tail := by
  change moreItemsOf item text = .ok (found, rest) at h
  fun_induction moreItemsOf item text generalizing found with
  | case1 => cases h
  | case2 text rest' hcomma =>
    cases h
    obtain ⟨c, first, hpeek, hcomma⟩ := bind_eq_ok hcomma
    obtain ⟨tail, rfl⟩ := peek_eq_cons hpeek
    split at hcomma
    · cases hcomma
      exact ⟨tail, by simp_all⟩
    · split at hcomma <;> cases hcomma
  | case3 => cases h
  | case4 text first hcomma a later hitem ih =>
    cases hmore : moreItemsOf item later with
    | error fault => simp [hmore, Except.map] at h
    | ok more =>
      simp only [hmore, Except.map, Except.ok.injEq, Prod.mk.injEq] at h
      exact ih (hmore.trans (by rw [← h.2]))

end Json.Reader

namespace Script.Reader

open Json.Reader

variable {n : Nat}

theorem text_of_value (h : (value .keep n).run source = .ok (json, rest)) :
    text.run source = (shape (Json.text? json)).run rest := by
  have hother {c : Char} {first : List Char} (hpeek : peek.run source = .ok (c, first))
      (hc : c ≠ '"') : text.run source = .error .misshapen := by
    unfold text
    rw [bind_of_ok hpeek, if_neg hc, ← misshapen_of_value h]
    exact run_after_peek hpeek _
  cases value_eq_ok_iff.mp h with
  | array hpeek _ => exact hother hpeek (by decide)
  | object hpeek _ => exact hother hpeek (by decide)
  | scalar hpeek harray hobject hscalar =>
    rcases scalar_eq_ok (peek_again hpeek) hscalar with ⟨found, rfl, rfl, hstring⟩ | ⟨hc, hnone, _⟩
    · unfold text
      rw [bind_of_ok hpeek, if_pos rfl, hstring]
      rfl
    · rw [hother hpeek hc, hnone]
      rfl

-- ---------------------------------------------------------------------------
-- The type of an object
-- ---------------------------------------------------------------------------

abbrev Sorted := Option String × List (String × Json)

/-- What `tagged` does with a member of an object. -/
def sortMember (depth : Nat) (sorted : Sorted) (key : String) : Json.Reader Sorted := do
  if key = "type" then pure (← once sorted.1 text, sorted.2)
  else
    colon
    pure (sorted.1, sorted.2 ++ [(key, ← value .keep depth)])

def sort (sorted : Sorted) (member : String × Json) : Except Json.Fault Sorted :=
  if member.1 = "type" then
    match sorted.1, Json.text? member.2 with
    | none, some tag => .ok (some tag, sorted.2)
    | _, _ => .error .misshapen
  else .ok (sorted.1, sorted.2 ++ [member])

theorem follows_sort (depth : Nat) : Follows (sortMember depth) (value .keep depth) sort := by
  intro sorted name source json rest h
  obtain ⟨_, middle, hcolon, hvalue⟩ := bind_eq_ok h
  unfold sortMember sort
  by_cases hname : name = "type"
  · rw [if_pos hname, if_pos hname]
    rcases sorted with ⟨_ | tag, fields⟩
    · have honce : (once none text).run source = (some <$> shape (Json.text? json)).run rest := by
        show (do colon; some <$> text).run source = _
        rw [bind_of_ok hcolon]
        show (text >>= _).run middle = _
        rw [run_bind, text_of_value hvalue]
        rfl
      rw [run_bind, honce]
      cases Json.text? json <;> rfl
    · rfl
  · rw [if_neg hname, if_neg hname, bind_of_ok hcolon, bind_of_ok hvalue]
    rfl

theorem foldlM_sort_some (found : List (String × Json)) (tag : String)
    (fields : List (String × Json)) :
    found.foldlM sort (some tag, fields) =
      if found.filter (·.1 = "type") = [] then
        .ok (some tag, fields ++ found.filter (·.1 ≠ "type"))
      else .error .misshapen := by
  induction found generalizing fields with
  | nil => simp [pure, Except.pure]
  | cons member rest ih =>
    rw [List.foldlM_cons, sort]
    by_cases hname : member.1 = "type"
    · simp [hname, bind, Except.bind]
    · rw [if_neg hname]
      show List.foldlM sort (some tag, fields ++ [member]) rest = _
      rw [ih, List.filter_cons_of_neg (by simpa using hname),
        List.filter_cons_of_pos (by simpa using hname), List.append_assoc]
      rfl

theorem foldlM_sort_none (found fields : List (String × Json)) :
    found.foldlM sort (none, fields) =
      match (Json.only? (found.filter (·.1 = "type"))).map (Option.map Json.text?) with
      | some none => .ok (none, fields ++ found.filter (·.1 ≠ "type"))
      | some (some (some tag)) => .ok (some tag, fields ++ found.filter (·.1 ≠ "type"))
      | _ => .error .misshapen := by
  induction found generalizing fields with
  | nil => simp [pure, Except.pure, Json.only?]
  | cons member rest ih =>
    rw [List.foldlM_cons, sort]
    by_cases hname : member.1 = "type"
    · rw [if_pos hname, List.filter_cons_of_pos (by simpa using hname),
        List.filter_cons_of_neg (by simpa using hname)]
      cases htag : Json.text? member.2 with
      | none =>
        cases hmore : rest.filter (·.1 = "type") with
        | nil => simp [Json.only?, htag, bind, Except.bind]
        | cons other more => simp [Json.only?, bind, Except.bind]
      | some tag =>
        show List.foldlM sort (some tag, fields) rest = _
        rw [foldlM_sort_some]
        cases hmore : rest.filter (·.1 = "type") with
        | nil => simp [Json.only?, htag]
        | cons other more => simp [Json.only?]
    · rw [if_neg hname]
      show List.foldlM sort (none, fields ++ [member]) rest = _
      rw [ih, List.filter_cons_of_neg (by simpa using hname),
        List.filter_cons_of_pos (by simpa using hname), List.append_assoc]
      rfl

theorem tagged_of_object (hpeek : peek.run source = .ok ('\x7b', first))
    (h : HasMembers .keep (value .keep n) first.tail found rest) :
    (tagged (n + 1)).run source =
      (shape ((Statement.taggedBy? Json.text? (.object found)).map fun (tag, _) =>
        (tag, .object (found.filter (·.1 ≠ "type"))))).run rest := by
  unfold tagged
  rw [bind_of_ok hpeek]
  show (do
    let sorted ← members .keep (sortMember n) (none, [])
    pure (← shape sorted.1, Json.object sorted.2)).run first.tail = _
  rw [run_bind, h.run_members (follows_sort n), foldlM_sort_none, Statement.taggedBy?,
    Json.fields?_object, List.mapM_cons, List.mapM_nil]
  rcases Json.only? (found.filter (·.1 = "type")) with _ | _ | json
  · rfl
  · rfl
  · cases json <;> rfl

theorem tagged_of_array (hpeek : peek.run source = .ok ('[', first))
    (h : (items (value .keep n)).run first.tail = .ok (found, rest)) :
    (tagged (n + 1)).run source =
      (shape (Statement.taggedBy? Json.text? (.array found))).run rest := by
  unfold tagged
  rw [bind_of_ok hpeek]
  show (do
    let tag ← shape (← firstItem? text)
    let fields ← moreItems (value .keep n)
    closeItems
    pure (tag, Json.array fields)).run first.tail = _
  obtain ⟨c, opened, hfirst, h⟩ := bind_eq_ok h
  split at h
  · rename_i hclose
    cases h
    have hnone : (firstItem? text).run first.tail = .ok (none, opened) := by
      unfold firstItem?
      rw [bind_of_ok hfirst, if_pos hclose]
      rfl
    rw [bind_of_ok hnone]
    rfl
  · rename_i hclose
    obtain ⟨head, later, hhead, h⟩ := bind_eq_ok h
    obtain ⟨fields, last, hfields, h⟩ := bind_eq_ok h
    cases h
    have htext : (firstItem? text).run first.tail =
        (some <$> shape (Json.text? head)).run later := by
      unfold firstItem?
      rw [bind_of_ok hfirst, if_neg hclose]
      show (text >>= _).run opened = _
      rw [run_bind, text_of_value hhead]
      rfl
    rw [run_bind, htext]
    obtain ⟨tail, rfl⟩ := moreItems_eq_cons hfields
    cases head with
    | string tag =>
      show (do
        let fields ← moreItems (value .keep n)
        closeItems
        pure (tag, Json.array fields)).run later = _
      rw [bind_of_ok hfields]
      rfl
    | _ => rfl

/-- Reading a statement is reading a tree and then giving it its shape. -/
theorem statement_of_value (h : (value .keep n).run source = .ok (json, rest)) :
    (statement n).run source = (shape (Statement.ofJson? json)).run rest := by
  unfold statement Statement.ofJson?
  rw [run_bind]
  cases value_eq_ok_iff.mp h with
  | array hpeek hitems =>
    rw [tagged_of_array hpeek hitems]
    cases Statement.taggedBy? Json.text? (.array _) <;> rfl
  | object hpeek hmembers =>
    rw [tagged_of_object hpeek hmembers]
    cases htagged : Statement.taggedBy? Json.text? (.object _) with
    | none => rfl
    | some found =>
      obtain ⟨_, hfields⟩ := Place.taggedBy?_object_iff.mp htagged
      show (shape (Statement.ofTagged? found.1 _)).run rest = _
      rw [Statement.ofTagged?_eq, Statement.taggedWith?_without_type, ← hfields,
        ← Statement.ofTagged?_eq]
      rfl
  | scalar hpeek harray hobject hscalar =>
    have hnone : Statement.taggedBy? Json.text? json = none := by
      rcases scalar_eq_ok (peek_again hpeek) hscalar with ⟨found, _, rfl, _⟩ | ⟨_, _, hdepth⟩
      · rfl
      · exact Statement.taggedBy?_of_depth_eq_zero hdepth _
    have htagged : (tagged n).run source = .error .misshapen := by
      unfold tagged
      rw [bind_of_ok hpeek]
      split
      · exact absurd rfl hobject
      · exact absurd rfl harray
      · exact (run_after_peek hpeek _).trans (misshapen_of_value h)
    rw [htagged, hnone]
    rfl

end Script.Reader

end Dialogue
