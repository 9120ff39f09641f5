import Dialogue.Proofs.Reading
import Mathlib.Data.List.Basic

/-!
# Records by their fields

A statement and all that stands inside it is read from a tree through `Json.fields?`, place
by place: `Place` tells the places apart, and `Place.schema` says which fields a record has
in a place and what place each of them is. What a record is read as depends on its fields
alone: if each of them is still read as it was, so is the record (`Place.keepsValue_of_fields`).
-/

namespace Dialogue

theorem mapM_congr {f g : α → Option β} {items : List α} (h : ∀ item ∈ items, f item = g item) :
    items.mapM f = items.mapM g := by
  induction items with
  | nil => rfl
  | cons item rest ih =>
    obtain ⟨hitem, hrest⟩ := List.forall_mem_cons.mp h
    rw [List.mapM_cons, List.mapM_cons, hitem, ih hrest]

-- ---------------------------------------------------------------------------
-- Fields
-- ---------------------------------------------------------------------------

namespace Json

def only? : List (String × Json) → Option (Option Json)
  | [] => some none
  | [(_, value)] => some (some value)
  | _ => none

theorem fields?_object (names : List String) (members : List (String × Json)) :
    (Json.object members).fields? names =
      names.mapM fun name => only? (members.filter (·.1 = name)) := rfl

theorem depth_lt_of_mem_items (h : item ∈ items) : item.depth < (Json.array items).depth := by
  rw [depth, Nat.lt_succ_iff]
  induction items with
  | nil => cases h
  | cons first rest ih =>
    rw [itemsDepth]
    rcases List.mem_cons.mp h with rfl | hrest
    · exact Nat.le_max_left _ _
    · exact Nat.le_trans (ih hrest) (Nat.le_max_right _ _)

theorem depth_lt_of_mem_members (h : (name, value) ∈ members) :
    value.depth < (Json.object members).depth := by
  rw [depth, Nat.lt_succ_iff]
  induction members with
  | nil => cases h
  | cons first rest ih =>
    obtain ⟨key, other⟩ := first
    rw [membersDepth]
    rcases List.mem_cons.mp h with heq | hrest
    · cases heq
      exact Nat.le_max_left _ _
    · exact Nat.le_trans (ih hrest) (Nat.le_max_right _ _)

theorem depth_lt_of_fields? {json : Json} (h : json.fields? names = some found)
    (hmem : some value ∈ found) : value.depth < json.depth := by
  cases json with
  | object members =>
    rw [fields?_object] at h
    obtain ⟨name, _, honly⟩ := exists_of_mapM h hmem
    have hvalue : ∃ key, (key, value) ∈ members.filter (·.1 = name) := by
      unfold only? at honly
      split at honly
      · cases honly
      · rename_i key _ hfilter
        cases honly
        exact ⟨key, hfilter ▸ List.mem_singleton_self _⟩
      · cases honly
    obtain ⟨key, hkey⟩ := hvalue
    exact depth_lt_of_mem_members (List.mem_of_mem_filter hkey)
  | array items =>
    simp only [fields?] at h
    split at h
    · cases h
      simp at hmem
      exact depth_lt_of_mem_items hmem
    · cases h
  | _ => cases h

end Json

-- ---------------------------------------------------------------------------
-- Statements inside statements
-- ---------------------------------------------------------------------------

namespace Statement

section

variable {read other : Json → Option Statement} {json : Json}
  (h : ∀ inner : Json, inner.depth < json.depth → read inner = other inner)
include h

theorem bodyWith?_congr (hfields : json.fields? names = some found) (hmem : field ∈ found) :
    bodyWith? read field = bodyWith? other field := by
  unfold bodyWith?
  split
  · rfl
  · have hitems := Json.depth_lt_of_fields? hfields hmem
    exact mapM_congr fun item hitem =>
      h item (Nat.lt_trans (Json.depth_lt_of_mem_items hitem) hitems)
  · rfl

theorem choiceWith?_congr : choiceWith? read json = choiceWith? other json := by
  unfold choiceWith?
  refine Option.bind_congr fun found hfound => ?_
  split
  · rw [bodyWith?_congr h hfound (by simp)]
  · rfl

theorem clauseWith?_congr : clauseWith? read json = clauseWith? other json := by
  unfold clauseWith?
  refine Option.bind_congr fun found hfound => ?_
  split
  · rw [bodyWith?_congr h hfound (by simp)]
  · rfl

/-- What a statement is read as depends on how the statements deeper in it are read. -/
theorem taggedWith?_congr (tag : String) :
    taggedWith? read tag json = taggedWith? other tag json := by
  have hdeeper {names found items item} (hfields : json.fields? names = some found)
      (hmem : some (Json.array items) ∈ found) (hitem : item ∈ items) :
      ∀ inner : Json, inner.depth < item.depth → read inner = other inner := by
    intro inner hinner
    refine h inner (Nat.lt_trans hinner ?_)
    exact Nat.lt_trans (Json.depth_lt_of_mem_items hitem) (Json.depth_lt_of_fields? hfields hmem)
  unfold taggedWith?
  split
  case h_4 =>
    refine Option.bind_congr fun found hfound => ?_
    split
    · rw [mapM_congr fun item hitem => choiceWith?_congr (hdeeper hfound (by simp) hitem)]
    · rfl
  case h_5 =>
    refine Option.bind_congr fun found hfound => ?_
    split
    · rw [mapM_congr fun item hitem => clauseWith?_congr (hdeeper hfound (by simp) hitem)]
    · rfl
  all_goals rfl

end

theorem depth_of_taggedBy? {tag? : Json → Option String} {json : Json}
    (h : taggedBy? tag? json = some (tag, fields)) :
    0 < json.depth ∧ fields.depth ≤ json.depth := by
  unfold taggedBy? at h
  split at h
  · obtain ⟨_, _, heq⟩ := Option.map_eq_some_iff.mp h
    cases heq
    exact ⟨Nat.succ_pos _, Nat.succ_le_succ (Nat.le_max_right _ _)⟩
  · split at h
    · obtain ⟨_, _, heq⟩ := Option.map_eq_some_iff.mp h
      cases heq
      exact ⟨Nat.succ_pos _, Nat.le_refl _⟩
    · cases h
  · cases h

theorem taggedBy?_of_depth_eq_zero {json : Json} (h : json.depth = 0)
    (tag? : Json → Option String) : taggedBy? tag? json = none := by
  cases htagged : taggedBy? tag? json with
  | none => rfl
  | some found => exact absurd (depth_of_taggedBy? htagged).1 (by omega)

theorem nestedWithin?_of_depth_eq_zero {json : Json} (h : json.depth = 0) (depth : Nat) :
    nestedWithin? depth json = none := by
  cases depth with
  | zero => rfl
  | succ depth => rw [nestedWithin?, taggedBy?_of_depth_eq_zero h]; rfl

/-- A depth that is enough for a tree is as good as any other. -/
theorem nestedWithin?_eq {depth other : Nat} {json : Json} (hdepth : json.depth ≤ depth)
    (hother : json.depth ≤ other) : nestedWithin? depth json = nestedWithin? other json := by
  induction depth generalizing other json with
  | zero =>
    rw [nestedWithin?_of_depth_eq_zero (by omega), nestedWithin?_of_depth_eq_zero (by omega)]
  | succ depth ih =>
    cases other with
    | zero =>
      rw [nestedWithin?_of_depth_eq_zero (by omega), nestedWithin?_of_depth_eq_zero (by omega)]
    | succ other =>
      refine Option.bind_congr fun found hfound => ?_
      have hfields := (depth_of_taggedBy? hfound).2
      exact taggedWith?_congr (fun inner hinner => ih (by omega) (by omega)) found.1

def nested? (json : Json) : Option Statement := nestedWithin? json.depth json

/-- A statement is read by its type, with the statements inside it read alike. -/
theorem ofTagged?_eq (tag : String) (fields : Json) :
    ofTagged? tag fields = taggedWith? nested? tag fields :=
  taggedWith?_congr (fun _ hinner => nestedWithin?_eq (Nat.le_of_lt hinner) (Nat.le_refl _)) tag

theorem ofJson?_eq (json : Json) :
    ofJson? json =
      (taggedBy? Json.text? json).bind fun found => taggedWith? nested? found.1 found.2 :=
  Option.bind_congr fun found _ => ofTagged?_eq found.1 found.2

theorem nested?_eq (json : Json) :
    nested? json =
      (taggedBy? nestedTag? json).bind fun found => taggedWith? nested? found.1 found.2 := by
  rw [nested?, nestedWithin?_eq (Nat.le_refl _) (Nat.le_succ _)]
  refine Option.bind_congr fun found hfound => ?_
  have hfields := (depth_of_taggedBy? hfound).2
  exact taggedWith?_congr (fun inner hinner => nestedWithin?_eq (by omega) (Nat.le_refl _)) found.1

-- The sixth type and the third kind, by their positions.
example :
    ofJson? (.array [.string "if", .array [.array [.null, .array [.array [
        .number ⟨false, [⟨5, by decide⟩], [], none⟩, .string "AddAssign", .string "x",
        .array [.number ⟨false, [⟨2, by decide⟩], [], none⟩, .bool true]]]]]]) =
      some (.branch [.mk none [.assign "AddAssign" "x" (.bool true)]]) := by
  rfl

end Statement

-- ---------------------------------------------------------------------------
-- Places of a statement
-- ---------------------------------------------------------------------------

/-- What a tree stands for. A `leaf` is a name, a type, a kind or the content of an operand;
a statement is `nested` if it stands inside another one. -/
inductive Place
  | leaf
  | operand
  | condition
  | choice
  | clause
  | statement
  | nested
  | each (inner : Place)

namespace Place

def Value : Place → Type
  | .leaf => Option Json × Option OperandKind
  | .operand => Operand
  | .condition => Option Comparison
  | .choice => Choice
  | .clause => Clause
  | .statement | .nested => Statement
  | .each inner => List inner.Value

def scalar? : Json → Option Json
  | .array _ | .object _ => none
  | json => some json

def items? : Json → Option (List Json)
  | .array items => some items
  | _ => none

def decode? : (place : Place) → Json → Option place.Value
  | .leaf, json => some (scalar? json, OperandKind.ofJson? json)
  | .operand, json => Operand.ofJson? json
  | .condition, json => Comparison.ofField? (some json)
  | .choice, json => Statement.choiceWith? Statement.nested? json
  | .clause, json => Statement.clauseWith? Statement.nested? json
  | .statement, json => Statement.ofJson? json
  | .nested, json => Statement.nested? json
  | .each inner, json => (items? json).bind (·.mapM inner.decode?)

def ofTag : String → List (String × Place)
  | "line" => [("text", .leaf)]
  | "option" => [("destination", .leaf)]
  | "custom" => [("command", .leaf)]
  | "shortcut_options" => [("options", .each .choice)]
  | "if" => [("clauses", .each .clause)]
  | "assignment" => [("operation", .leaf), ("variable", .leaf), ("value", .operand)]
  | _ => []

def ofType (found : Option (String × Json)) : List (String × Place) :=
  ("type", .leaf) :: (found.map fun found => ofTag found.1).getD []

/-- The fields that are known of a tree, in order, and what place each of them is. A tree
that is no record has none. -/
def schema : Place → Json → List (String × Place)
  | .operand, _ => [("type", .leaf), ("value", .leaf)]
  | .condition, _ => [("function", .leaf), ("variable", .leaf), ("value", .operand)]
  | .choice, _ => [("label", .leaf), ("body", .each .nested)]
  | .clause, _ => [("condition", .condition), ("body", .each .nested)]
  | .statement, json => ofType (Statement.taggedBy? Json.text? json)
  | .nested, json => ofType (Statement.taggedBy? Statement.nestedTag? json)
  | _, _ => []

/-- In this place, the second tree is read as what the first is read as. -/
def KeepsValue (place : Place) (json other : Json) : Prop :=
  ∀ value, place.decode? json = some value → place.decode? other = some value

/-- Fields that are given or left out as they were, each read as it was. -/
inductive Kept : List (String × Place) → List (Option Json) → List (Option Json) → Prop
  | nil : Kept [] [] []
  | absent : Kept fields found later → Kept (field :: fields) (none :: found) (none :: later)
  | given : field.2.KeepsValue json other → Kept fields found later →
    Kept (field :: fields) (some json :: found) (some other :: later)

def FieldsKept (fields : List (String × Place)) (json other : Json) : Prop :=
  ∀ found, json.fields? (fields.map Prod.fst) = some found →
    ∃ later, other.fields? (fields.map Prod.fst) = some later ∧ Kept fields found later

theorem Kept.exists_given (h : Kept (field :: fields) (some json :: found) later) :
    ∃ other more, later = some other :: more ∧ field.2.KeepsValue json other ∧
      Kept fields found more := by
  cases h with
  | given hkeeps hrest => exact ⟨_, _, rfl, hkeeps, hrest⟩

theorem each_eq_some {inner : Place} {found : List inner.Value}
    (h : (each inner).decode? json = some found) :
    ∃ items, json = .array items ∧ items.mapM inner.decode? = some found := by
  cases json with
  | array items => exact ⟨items, rfl, h⟩
  | _ => cases h

theorem KeepsValue.eq_of_scalar (h : leaf.KeepsValue json other)
    (hscalar : scalar? json = some json) : other = json := by
  have hsame : scalar? other = scalar? json := congrArg Prod.fst (Option.some.inj (h _ rfl))
  rw [hscalar] at hsame
  unfold scalar? at hsame
  split at hsame
  · cases hsame
  · cases hsame
  · exact Option.some.inj hsame

theorem KeepsValue.kind_eq (h : leaf.KeepsValue json other) :
    OperandKind.ofJson? other = OperandKind.ofJson? json :=
  congrArg Prod.snd (Option.some.inj (h _ rfl))

theorem scalar_of_text? (h : json.text? = some text) : scalar? json = some json := by
  cases json with
  | string => rfl
  | _ => cases h

theorem scalar_of_nestedTag? (h : Statement.nestedTag? json = some tag) :
    scalar? json = some json := by
  cases json with
  | string | number => rfl
  | _ => cases h

theorem scalar_of_item? (h : OperandKind.ofItem? json = some kind) : scalar? json = some json := by
  cases json with
  | string | number => rfl
  | _ => cases h

theorem scalar_of_content? (h : Operand.ofContent? kind json = some value) :
    scalar? json = some json := by
  cases json with
  | array | object => cases kind <;> cases h
  | _ => rfl

theorem Kept.exists_text (h : Kept ((name, .leaf) :: fields) (some (.string text) :: found) later) :
    ∃ more, later = some (.string text) :: more ∧ Kept fields found more := by
  obtain ⟨other, more, rfl, htext, hrest⟩ := h.exists_given
  exact ⟨more, by rw [htext.eq_of_scalar rfl], hrest⟩

theorem Kept.exists_items {inner : Place} {made : List inner.Value}
    (h : Kept [(name, .each inner)] [some (.array items)] later)
    (hitems : items.mapM inner.decode? = some made) :
    ∃ others, later = [some (.array others)] ∧ others.mapM inner.decode? = some made := by
  obtain ⟨other, more, rfl, hkeeps, hnil⟩ := h.exists_given
  obtain ⟨others, rfl, hothers⟩ := each_eq_some (hkeeps made hitems)
  cases hnil
  exact ⟨others, rfl, hothers⟩

theorem Kept.body (h : Kept [(name, .each .nested)] [field] later) :
    ∃ kept, later = [kept] ∧
      ∀ body, Statement.bodyWith? Statement.nested? field = some body →
        Statement.bodyWith? Statement.nested? kept = some body := by
  have hdecode (json : Json) :
      Statement.bodyWith? Statement.nested? (some json) = (each nested).decode? json := by
    cases json <;> rfl
  cases h with
  | absent hrest =>
    cases hrest
    exact ⟨none, rfl, fun _ hbody => hbody⟩
  | given hkeeps hrest =>
    cases hrest
    refine ⟨_, rfl, fun body hbody => ?_⟩
    rw [hdecode] at hbody ⊢
    exact hkeeps body hbody

theorem keepsValue_choice (h : FieldsKept (choice.schema json) json other) :
    choice.KeepsValue json other := by
  intro value hvalue
  obtain ⟨found, hfound, hbuilt⟩ := Option.bind_eq_some_iff.mp hvalue
  obtain ⟨later, hlater, hkept⟩ := h found hfound
  split at hbuilt
  · obtain ⟨body, hbody, hchoice⟩ := Option.bind_eq_some_iff.mp hbuilt
    obtain ⟨_, rfl, hrest⟩ := hkept.exists_text
    obtain ⟨kept, rfl, hsame⟩ := hrest.body
    refine Option.bind_eq_some_iff.mpr ⟨_, hlater, ?_⟩
    exact Option.bind_eq_some_iff.mpr ⟨body, hsame body hbody, hchoice⟩
  · cases hbuilt

theorem keepsValue_clause (h : FieldsKept (clause.schema json) json other) :
    clause.KeepsValue json other := by
  intro value hvalue
  obtain ⟨found, hfound, hbuilt⟩ := Option.bind_eq_some_iff.mp hvalue
  obtain ⟨later, hlater, hkept⟩ := h found hfound
  split at hbuilt
  · obtain ⟨guard, hguard, hbuilt⟩ := Option.bind_eq_some_iff.mp hbuilt
    obtain ⟨body, hbody, hclause⟩ := Option.bind_eq_some_iff.mp hbuilt
    have hbuild {condition kept : Option Json}
        (hlater : other.fields? ["condition", "body"] = some [condition, kept])
        (hguard : Comparison.ofField? condition = some guard)
        (hbody : Statement.bodyWith? Statement.nested? kept = some body) :
        clause.decode? other = some value := by
      refine Option.bind_eq_some_iff.mpr ⟨_, hlater, ?_⟩
      exact Option.bind_eq_some_iff.mpr
        ⟨guard, hguard, Option.bind_eq_some_iff.mpr ⟨body, hbody, hclause⟩⟩
    cases hkept with
    | absent hrest =>
      obtain ⟨kept, rfl, hkept⟩ := hrest.body
      exact hbuild hlater hguard (hkept body hbody)
    | given hcondition hrest =>
      obtain ⟨kept, rfl, hkept⟩ := hrest.body
      exact hbuild hlater (hcondition guard hguard) (hkept body hbody)
  · cases hbuilt

inductive SameShape : Json → Json → Prop
  | array : SameShape (.array items) (.array others)
  | object : SameShape (.object members) (.object others)

theorem keepsValue_condition (hshape : SameShape json other)
    (h : FieldsKept (condition.schema json) json other) : condition.KeepsValue json other := by
  have hjson : condition.decode? json = (Comparison.ofJson? json).map some := by
    cases hshape <;> rfl
  have hother : condition.decode? other = (Comparison.ofJson? other).map some := by
    cases hshape <;> rfl
  intro value hvalue
  rw [hjson] at hvalue
  rw [hother]
  obtain ⟨comparison, hcomparison, rfl⟩ := Option.map_eq_some_iff.mp hvalue
  obtain ⟨found, hfound, hbuilt⟩ := Option.bind_eq_some_iff.mp hcomparison
  obtain ⟨later, hlater, hkept⟩ := h found hfound
  split at hbuilt
  · obtain ⟨operand, hoperand, hmade⟩ := Option.bind_eq_some_iff.mp hbuilt
    obtain ⟨_, rfl, hrest⟩ := hkept.exists_text
    obtain ⟨_, rfl, hlast⟩ := hrest.exists_text
    obtain ⟨compared, _, rfl, hcompared, hnil⟩ := hlast.exists_given
    cases hnil
    refine Option.map_eq_some_iff.mpr ⟨comparison, ?_, rfl⟩
    refine Option.bind_eq_some_iff.mpr ⟨_, hlater, ?_⟩
    exact Option.bind_eq_some_iff.mpr ⟨operand, hcompared operand hoperand, hmade⟩
  · cases hbuilt

theorem keepsValue_operand (hshape : SameShape json other)
    (h : FieldsKept (operand.schema json) json other) : operand.KeepsValue json other := by
  intro value hvalue
  obtain ⟨found, hfound, hbuilt⟩ := Option.bind_eq_some_iff.mp hvalue
  obtain ⟨later, hlater, hkept⟩ := h found hfound
  refine Option.bind_eq_some_iff.mpr ⟨later, hlater, ?_⟩
  split at hbuilt
  · obtain ⟨kind, _, rfl, hkind, hkept⟩ := hkept.exists_given
    obtain ⟨content, _, rfl, hcontent, hkept⟩ := hkept.exists_given
    cases hkept
    cases hshape
    obtain ⟨named, hnamed, hbuilt⟩ := Option.bind_eq_some_iff.mp hbuilt
    rw [hkind.eq_of_scalar (scalar_of_item? hnamed),
      hcontent.eq_of_scalar (scalar_of_content? hbuilt)]
    exact Option.bind_eq_some_iff.mpr ⟨named, hnamed, hbuilt⟩
  · obtain ⟨kind, _, rfl, hkind, hkept⟩ := hkept.exists_given
    obtain ⟨content, _, rfl, hcontent, hkept⟩ := hkept.exists_given
    cases hkept
    cases hshape
    obtain ⟨named, hnamed, hbuilt⟩ := Option.bind_eq_some_iff.mp hbuilt
    rw [hcontent.eq_of_scalar (scalar_of_content? hbuilt)]
    exact Option.bind_eq_some_iff.mpr ⟨named, hkind.kind_eq.trans hnamed, hbuilt⟩
  · obtain ⟨kind, _, rfl, hkind, hkept⟩ := hkept.exists_given
    cases hkept with
    | absent hnil =>
      cases hnil
      cases hshape
      obtain ⟨named, hnamed, hbuilt⟩ := Option.bind_eq_some_iff.mp hbuilt
      refine Option.bind_eq_some_iff.mpr ⟨named, hkind.kind_eq.trans hnamed, ?_⟩
      exact hbuilt
  · cases hbuilt

theorem map_pair_eq_some_iff {found : Option α} {b other : β} :
    found.map (·, b) = some (a, other) ↔ found = some a ∧ other = b := by
  cases found <;> simp [eq_comm]

section

variable {tag? : Json → Option String}

theorem taggedBy?_array_iff :
    Statement.taggedBy? tag? (.array (first :: rest)) = some (tag, fields) ↔
      tag? first = some tag ∧ fields = .array rest := by
  rw [Statement.taggedBy?, map_pair_eq_some_iff]

theorem taggedBy?_object_iff :
    Statement.taggedBy? tag? (.object members) = some (tag, fields) ↔
      (∃ first, Json.only? (members.filter (·.1 = "type")) = some (some first) ∧
        tag? first = some tag) ∧ fields = .object members := by
  have hfields : (Json.object members).fields? ["type"] =
      (Json.only? (members.filter (·.1 = "type"))).map ([·]) := by
    rw [Json.fields?_object, List.mapM_cons, List.mapM_nil]
    cases Json.only? (members.filter (·.1 = "type")) <;> rfl
  rw [Statement.taggedBy?, hfields]
  rcases Json.only? (members.filter (·.1 = "type")) with _ | _ | json
  · simp
  · simp
  · show (tag? json).map (·, Json.object members) = some (tag, fields) ↔ _
    rw [map_pair_eq_some_iff]
    simp

theorem taggedBy?_iff {names : List String} {found : List (Option Json)} {json : Json} :
    (∃ fields, Statement.taggedBy? tag? json = some (tag, fields) ∧
        fields.fields? names = some found) ↔
      ∃ first, tag? first = some tag ∧
        json.fields? ("type" :: names) = some (some first :: found) := by
  cases json with
  | array items =>
    cases items with
    | nil => simp [Statement.taggedBy?, Json.fields?, List.replicate_succ]
    | cons first rest =>
      simp only [taggedBy?_array_iff, and_assoc, exists_and_left, exists_eq_left, Json.fields?,
        List.length_cons, Nat.add_le_add_iff_right, Nat.add_sub_add_right, List.map_cons,
        List.cons_append]
      by_cases hlength : rest.length ≤ names.length <;> simp [hlength]
  | object members =>
    simp only [taggedBy?_object_iff, Json.fields?_object, List.mapM_cons, Option.bind_eq_bind,
      Option.bind_eq_some_iff]
    constructor
    · rintro ⟨_, ⟨⟨first, hfirst, htag⟩, rfl⟩, hfound⟩
      exact ⟨first, htag, _, hfirst, found, hfound, rfl⟩
    · rintro ⟨first, htag, _, hfirst, _, hfound, hsame⟩
      cases hsame
      exact ⟨_, ⟨⟨first, hfirst, htag⟩, rfl⟩, hfound⟩
  | _ => simp [Statement.taggedBy?, Json.fields?]

end

theorem taggedWith?_of_other
    (h : tag ∉ Statement.tags) (read : Json → Option Statement) (fields : Json) :
    ofTag tag = [] ∧
      Statement.taggedWith? read tag fields = (fields.fields? []).map fun _ => .unsupported := by
  simp only [Statement.tags, List.mem_cons, List.not_mem_nil, or_false, not_or] at h
  unfold ofTag Statement.taggedWith?
  constructor
  · split <;> simp_all
  · split <;> simp_all
    cases fields.fields? [] <;> rfl

/-- A statement has the fields of its type, and these alone decide what it is. -/
theorem tagged_of_fields {fields : Json}
    (hstatement : Statement.taggedWith? Statement.nested? tag fields = some source) :
    ∃ found, fields.fields? ((ofTag tag).map Prod.fst) = some found ∧
      ∀ other later, Json.fields? ((ofTag tag).map Prod.fst) other = some later →
        Kept (ofTag tag) found later →
          Statement.taggedWith? Statement.nested? tag other = some source := by
  unfold Statement.taggedWith? at hstatement
  split at hstatement <;>
    obtain ⟨found, hfound, hbuilt⟩ := Option.bind_eq_some_iff.mp hstatement
  case h_7 =>
    have hother : tag ∉ Statement.tags := by
      simp_all [Statement.tags]
    cases hempty : fields.fields? [] with
    | none =>
      rw [hempty] at hfound
      cases hfound
    | some empty =>
      obtain ⟨hnone, _⟩ := taggedWith?_of_other hother Statement.nested? fields
      rw [hnone]
      refine ⟨empty, hempty, fun other later hlater _ => ?_⟩
      rw [(taggedWith?_of_other hother Statement.nested? other).2,
        show other.fields? [] = _ from hlater]
      exact hbuilt
  case h_4 =>
    refine ⟨found, hfound, fun other later hlater hkept => ?_⟩
    split at hbuilt
    · obtain ⟨options, hoptions, hsource⟩ := Option.bind_eq_some_iff.mp hbuilt
      obtain ⟨items, rfl, hitems⟩ := hkept.exists_items hoptions
      refine Option.bind_eq_some_iff.mpr ⟨_, hlater, ?_⟩
      exact Option.bind_eq_some_iff.mpr ⟨options, hitems, hsource⟩
    · cases hbuilt
  case h_5 =>
    refine ⟨found, hfound, fun other later hlater hkept => ?_⟩
    split at hbuilt
    · obtain ⟨clauses, hclauses, hsource⟩ := Option.bind_eq_some_iff.mp hbuilt
      obtain ⟨items, rfl, hitems⟩ := hkept.exists_items hclauses
      refine Option.bind_eq_some_iff.mpr ⟨_, hlater, ?_⟩
      exact Option.bind_eq_some_iff.mpr ⟨clauses, hitems, hsource⟩
    · cases hbuilt
  case h_6 =>
    refine ⟨found, hfound, fun other later hlater hkept => ?_⟩
    split at hbuilt
    · obtain ⟨value, hvalue, hsource⟩ := Option.bind_eq_some_iff.mp hbuilt
      obtain ⟨_, rfl, hrest⟩ := hkept.exists_text
      obtain ⟨_, rfl, hlast⟩ := hrest.exists_text
      obtain ⟨operand, _, rfl, hoperand, hnil⟩ := hlast.exists_given
      cases hnil
      refine Option.bind_eq_some_iff.mpr ⟨_, hlater, ?_⟩
      exact Option.bind_eq_some_iff.mpr ⟨value, hoperand value hvalue, hsource⟩
    · cases hbuilt
  all_goals
    refine ⟨found, hfound, fun other later hlater hkept => ?_⟩
    split at hbuilt
    · obtain ⟨_, rfl, hnil⟩ := hkept.exists_text
      cases hnil
      exact Option.bind_eq_some_iff.mpr ⟨_, hlater, hbuilt⟩
    · cases hbuilt

/-- A statement is kept if the fields of its type are, whatever tree its type may be that
has no parts. -/
theorem keepsValue_typed {tag? : Json → Option String}
    (htype : ∀ json tag, tag? json = some tag → scalar? json = some json)
    (h : FieldsKept (ofType (Statement.taggedBy? tag? json)) json other)
    (hsource : ((Statement.taggedBy? tag? json).bind fun found =>
      Statement.taggedWith? Statement.nested? found.1 found.2) = some source) :
    ((Statement.taggedBy? tag? other).bind fun found =>
      Statement.taggedWith? Statement.nested? found.1 found.2) = some source := by
  obtain ⟨⟨tag, fields⟩, htagged, hsource⟩ := Option.bind_eq_some_iff.mp hsource
  obtain ⟨found, hfound, hbuild⟩ := tagged_of_fields hsource
  obtain ⟨first, hfirst, hfields⟩ := taggedBy?_iff.mp ⟨fields, htagged, hfound⟩
  rw [ofType, htagged] at h
  obtain ⟨later, hlater, hkept⟩ := h _ hfields
  obtain ⟨type, more, rfl, hsame, hrest⟩ := hkept.exists_given
  rw [hsame.eq_of_scalar (htype first tag hfirst)] at hlater
  obtain ⟨others, hothers, hmore⟩ := taggedBy?_iff.mpr ⟨first, hfirst, hlater⟩
  exact Option.bind_eq_some_iff.mpr ⟨(tag, others), hothers, hbuild others more hmore hrest⟩

theorem keepsValue_statement (h : FieldsKept (statement.schema json) json other) :
    statement.KeepsValue json other := by
  intro source hsource
  rw [decode?, Statement.ofJson?_eq] at hsource ⊢
  exact keepsValue_typed (fun _ _ => scalar_of_text?) h hsource

theorem keepsValue_nested (h : FieldsKept (nested.schema json) json other) :
    nested.KeepsValue json other := by
  intro source hsource
  rw [decode?, Statement.nested?_eq] at hsource ⊢
  exact keepsValue_typed (fun _ _ => scalar_of_nestedTag?) h hsource

theorem keepsValue_of_fields {place : Place} (hplace : place.schema json ≠ [])
    (hshape : SameShape json other) (h : FieldsKept (place.schema json) json other) :
    place.KeepsValue json other := by
  cases place with
  | operand => exact keepsValue_operand hshape h
  | condition => exact keepsValue_condition hshape h
  | choice => exact keepsValue_choice h
  | clause => exact keepsValue_clause h
  | statement => exact keepsValue_statement h
  | nested => exact keepsValue_nested h
  | _ => exact absurd rfl hplace

end Place

end Dialogue
