import Dialogue.Proofs.Spelling
import Mathlib.Data.List.Perm.Basic
import Mathlib.Logic.Relation

/-!
# Members in any order, and members that nobody knows

`Json.Permutes` changes the order of the members of one object somewhere in a tree, and
`Json.Widens` adds a member to one record of a statement that does not know it. Neither has
an effect on what is read: the first on no tree (`Json.Permutes.keeps`), the second on none
that is a statement (`Json.Widens.keeps`). `Statement.read_alike` says so of any number of
such changes, and of texts as well as of trees.
-/

namespace Dialogue

-- ---------------------------------------------------------------------------
-- Fields of changed records
-- ---------------------------------------------------------------------------

namespace Json

theorem only?_of_length (h : 1 < members.length) : only? members = none := by
  unfold only?
  split <;> simp_all

theorem only?_of_perm {members others : List (String × Json)} (h : members.Perm others) :
    only? members = only? others := by
  cases members with
  | nil => rw [List.nil_perm.mp h]
  | cons first rest =>
    cases rest with
    | nil => rw [List.singleton_perm.mp h]
    | cons second rest =>
      rw [only?_of_length (by simp), only?_of_length (by simp [← h.length_eq])]

theorem only?_append_cons (h : only? (before ++ (name, value) :: after) = some found) :
    before = [] ∧ after = [] ∧ found = some value := by
  by_cases hlength : 1 < (before ++ (name, value) :: after).length
  · rw [only?_of_length hlength] at h
    cases h
  · simp only [List.length_append, List.length_cons] at hlength
    cases List.length_eq_zero_iff.mp (show before.length = 0 by omega)
    cases List.length_eq_zero_iff.mp (show after.length = 0 by omega)
    cases h
    exact ⟨rfl, rfl, rfl⟩

end Json

theorem mapM_replace {f : α → Option β} (h : ∀ b, f value = some b → f other = some b)
    (hfound : (before ++ value :: after).mapM f = some found) :
    (before ++ other :: after).mapM f = some found := by
  simp only [List.mapM_append, List.mapM_cons, Option.bind_eq_bind, Option.bind_eq_some_iff]
    at hfound ⊢
  obtain ⟨first, hfirst, rest, ⟨made, hmade, more, hmore, hcons⟩, happend⟩ := hfound
  exact ⟨first, hfirst, rest, ⟨made, h made hmade, more, hmore, hcons⟩, happend⟩

namespace Place

theorem keepsValue_refl (place : Place) (json : Json) : place.KeepsValue json json := fun _ h => h

theorem KeepsValue.trans {place : Place} (h : place.KeepsValue json middle)
    (hmore : place.KeepsValue middle other) :
    place.KeepsValue json other :=
  fun value hvalue => hmore value (h value hvalue)

theorem kept_refl {fields : List (String × Place)} {found : List (Option Json)}
    (h : fields.length = found.length) : Kept fields found found := by
  induction fields generalizing found with
  | nil =>
    cases List.length_eq_zero_iff.mp h.symm
    exact .nil
  | cons field fields ih =>
    obtain ⟨value, more, rfl⟩ := List.exists_cons_of_length_eq_add_one h.symm
    have hmore := ih (Nat.succ.inj h)
    cases value with
    | none => exact .absent hmore
    | some json => exact .given (keepsValue_refl _ json) hmore

theorem fieldsKept_object {fields : List (String × Place)}
    (h : ∀ field ∈ fields, ∀ value, Json.only? (members.filter (·.1 = field.1)) = some value →
      ∃ later, Json.only? (others.filter (·.1 = field.1)) = some later ∧
        Kept [field] [value] [later]) :
    FieldsKept fields (.object members) (.object others) := by
  unfold FieldsKept
  simp only [Json.fields?_object]
  induction fields with
  | nil =>
    intro found hfound
    cases hfound
    exact ⟨[], rfl, .nil⟩
  | cons field fields ih =>
    obtain ⟨hfield, hfields⟩ := List.forall_mem_cons.mp h
    intro found hfound
    simp only [List.map_cons, List.mapM_cons, Option.bind_eq_bind, Option.bind_eq_some_iff]
      at hfound ⊢
    obtain ⟨value, hvalue, more, hmore, hcons⟩ := hfound
    cases hcons
    obtain ⟨later, hlater, hkept⟩ := hfield value hvalue
    obtain ⟨rest, hrest, hrestKept⟩ := ih hfields more hmore
    refine ⟨later :: rest, ⟨later, hlater, rest, hrest, rfl⟩, ?_⟩
    cases hkept with
    | absent _ => exact .absent hrestKept
    | given hkeeps _ => exact .given hkeeps hrestKept

theorem fieldsKept_perm (h : members.Perm others) (fields : List (String × Place)) :
    FieldsKept fields (.object members) (.object others) := by
  refine fieldsKept_object fun field _ value hvalue => ⟨value, ?_, kept_refl rfl⟩
  rw [← hvalue]
  exact Json.only?_of_perm (h.filter _).symm

theorem fieldsKept_gain {fields : List (String × Place)} (h : name ∉ fields.map Prod.fst) :
    FieldsKept fields (.object (before ++ after)) (.object (before ++ (name, json) :: after)) := by
  refine fieldsKept_object fun field hfield value hvalue => ⟨value, ?_, kept_refl rfl⟩
  have hother : name ≠ field.1 := fun heq => h (List.mem_map.mpr ⟨field, hfield, heq.symm⟩)
  rw [List.filter_append] at hvalue ⊢
  simpa [hother] using hvalue

theorem fieldsKept_member {fields : List (String × Place)}
    (h : ∀ field ∈ fields, field.1 = name → field.2.KeepsValue value other) :
    FieldsKept fields (.object (before ++ (name, value) :: after))
      (.object (before ++ (name, other) :: after)) := by
  refine fieldsKept_object fun field hfield found hfound => ?_
  rw [List.filter_append] at hfound ⊢
  by_cases hname : field.1 = name
  · simp only [hname, List.filter_cons, decide_true, if_true] at hfound ⊢
    obtain ⟨hbefore, hafter, rfl⟩ := Json.only?_append_cons hfound
    rw [hbefore, hafter]
    exact ⟨some other, rfl, .given (h field hfield hname) .nil⟩
  · have hother : name ≠ field.1 := Ne.symm hname
    simp only [List.filter_cons, hother, decide_false, Bool.false_eq_true, if_false]
      at hfound ⊢
    exact ⟨found, hfound, kept_refl rfl⟩

theorem kept_append {fields : List (String × Place)} {before : List Json}
    (h : ∀ field, fields[before.length]? = some field → field.2.KeepsValue value other)
    (hlength : fields.length = before.length + (rest.length + 1)) :
    Kept fields (before.map some ++ some value :: rest)
      (before.map some ++ some other :: rest) := by
  induction before generalizing fields with
  | nil =>
    rw [List.length_nil, Nat.zero_add] at hlength
    obtain ⟨field, more, rfl⟩ := List.exists_cons_of_length_eq_add_one hlength
    exact .given (h field rfl) (kept_refl (Nat.succ.inj hlength))
  | cons first before ih =>
    rw [List.length_cons, Nat.add_right_comm] at hlength
    obtain ⟨field, more, rfl⟩ := List.exists_cons_of_length_eq_add_one hlength
    exact .given (keepsValue_refl _ first) (ih h (Nat.succ.inj hlength))

theorem fieldsKept_array {fields : List (String × Place)} {before after : List Json}
    (h : ∀ field, fields[before.length]? = some field → field.2.KeepsValue value other) :
    FieldsKept fields (.array (before ++ value :: after)) (.array (before ++ other :: after)) := by
  intro found hfound
  simp only [Json.fields?, List.length_append, List.length_cons, List.length_map, List.map_append,
    List.map_cons, List.append_assoc, List.cons_append] at hfound ⊢
  split at hfound
  · rename_i hlength
    cases hfound
    rw [if_pos hlength]
    refine ⟨_, rfl, kept_append h ?_⟩
    simp only [List.length_append, List.length_map, List.length_replicate]
    omega
  · cases hfound

end Place

-- ---------------------------------------------------------------------------
-- Members in another order
-- ---------------------------------------------------------------------------

/-- One object, at any depth, has its members in another order. -/
inductive Json.Permutes : Json → Json → Prop
  | members : members.Perm others → Permutes (.object members) (.object others)
  | item (before after : List Json) : Permutes value other →
    Permutes (.array (before ++ value :: after)) (.array (before ++ other :: after))
  | member (before after : List (String × Json)) : Permutes value other →
    Permutes (.object (before ++ (name, value) :: after))
      (.object (before ++ (name, other) :: after))

namespace Json.Permutes

theorem symm (h : Permutes json other) : Permutes other json := by
  induction h with
  | members hperm => exact .members hperm.symm
  | item before after _ ih => exact .item before after ih
  | member before after _ ih => exact .member before after ih

end Json.Permutes

namespace Place

theorem leaf_array (items others : List Json) : leaf.KeepsValue (.array items) (.array others) := by
  intro value hvalue
  exact hvalue

theorem leaf_object
    (h : OperandKind.ofJson? (.object others) = OperandKind.ofJson? (.object members)) :
    leaf.KeepsValue (.object members) (.object others) := by
  have hsame : leaf.decode? (.object others) = leaf.decode? (.object members) :=
    congrArg some (Prod.ext rfl h)
  exact fun value hvalue => hsame.trans hvalue

theorem each_array {inner : Place} (h : inner.KeepsValue value other) :
    (each inner).KeepsValue (.array (before ++ value :: after))
      (.array (before ++ other :: after)) := by
  intro found hfound
  exact mapM_replace h hfound

/-- No place tells apart two trees of one shape if as leaves, as lists and by their fields
they are the same. -/
theorem keepsValue_of_parts (hshape : SameShape json other) (hleaf : leaf.KeepsValue json other)
    (heach : ∀ inner, (each inner).KeepsValue json other)
    (hfields : ∀ fields, FieldsKept fields json other) (place : Place) :
    place.KeepsValue json other := by
  cases place with
  | leaf => exact hleaf
  | each inner => exact heach inner
  | _ => exact keepsValue_of_fields (List.cons_ne_nil _ _) hshape (hfields _)

end Place

namespace OperandKind

def IsBare (json : Json) : Prop := json = .null ∨ json = .object []

theorem ofJson?_singleton (name : String) (json : Json) :
    (IsBare json → ofJson? (.object [(name, json)]) = ofName? name) ∧
      (¬ IsBare json → ofJson? (.object [(name, json)]) = none) := by
  constructor
  · rintro (rfl | rfl) <;> rfl
  · intro hbare
    unfold ofJson?
    split <;> simp_all [IsBare]

theorem ofJson?_of_length (h : members.length ≠ 1) : ofJson? (.object members) = none := by
  unfold ofJson?
  split <;> simp_all

end OperandKind

namespace Json

theorem Permutes.isBare (h : Permutes json other) (hbare : OperandKind.IsBare json) :
    OperandKind.IsBare other := by
  generalize hjson : json = tree at h
  cases h with
  | members hperm =>
    rcases hbare with rfl | rfl
    · cases hjson
    · cases hjson
      rw [List.nil_perm.mp hperm]
      exact .inr rfl
  | item => rcases hbare with rfl | rfl <;> cases hjson
  | member => rcases hbare with rfl | rfl <;> simp at hjson

theorem kind_of_perm {members others : List (String × Json)} (h : members.Perm others) :
    OperandKind.ofJson? (.object others) = OperandKind.ofJson? (.object members) := by
  by_cases hlength : members.length = 1
  · obtain ⟨member, rfl⟩ := List.length_eq_one_iff.mp hlength
    rw [List.singleton_perm.mp h]
  · rw [OperandKind.ofJson?_of_length hlength,
      OperandKind.ofJson?_of_length (h.length_eq ▸ hlength)]

theorem Permutes.kind_of_member (h : Permutes value other) (name : String)
    (before after : List (String × Json)) :
    OperandKind.ofJson? (.object (before ++ (name, other) :: after)) =
      OperandKind.ofJson? (.object (before ++ (name, value) :: after)) := by
  by_cases hlength : (before ++ (name, value) :: after).length = 1
  · obtain ⟨rfl, rfl⟩ : before = [] ∧ after = [] := by
      simp only [List.length_append, List.length_cons] at hlength
      exact ⟨List.length_eq_zero_iff.mp (by omega), List.length_eq_zero_iff.mp (by omega)⟩
    by_cases hbare : OperandKind.IsBare value
    · exact ((OperandKind.ofJson?_singleton name other).1 (h.isBare hbare)).trans
        ((OperandKind.ofJson?_singleton name value).1 hbare).symm
    · have hother : ¬ OperandKind.IsBare other := fun hother => hbare (h.symm.isBare hother)
      exact ((OperandKind.ofJson?_singleton name other).2 hother).trans
        ((OperandKind.ofJson?_singleton name value).2 hbare).symm
  · rw [OperandKind.ofJson?_of_length hlength,
      OperandKind.ofJson?_of_length (by simpa using hlength)]

theorem Permutes.keeps (h : Permutes json other) (place : Place) : place.KeepsValue json other := by
  induction h generalizing place with
  | members hperm =>
    refine Place.keepsValue_of_parts .object (Place.leaf_object (kind_of_perm hperm)) ?_ ?_ place
    · exact fun inner _ hnone => nomatch hnone
    · exact Place.fieldsKept_perm hperm
  | item before after _ ih =>
    refine Place.keepsValue_of_parts .array (Place.leaf_array _ _) ?_ ?_ place
    · exact fun inner => Place.each_array (ih inner)
    · exact fun fields => Place.fieldsKept_array fun field _ => ih field.2
  | member before after hvalue ih =>
    refine Place.keepsValue_of_parts .object (Place.leaf_object (hvalue.kind_of_member ..)) ?_ ?_
      place
    · exact fun inner _ hnone => nomatch hnone
    · exact fun fields => Place.fieldsKept_member fun field _ _ => ih field.2

end Json

-- ---------------------------------------------------------------------------
-- Members that nobody knows
-- ---------------------------------------------------------------------------

/-- One record of what stands in a place gains a member that it does not know. -/
inductive Json.Widens : Place → Json → Json → Prop
  | gain (before after : List (String × Json)) : place.schema (.object (before ++ after)) ≠ [] →
    name ∉ (place.schema (.object (before ++ after))).map Prod.fst →
    Widens place (.object (before ++ after)) (.object (before ++ (name, value) :: after))
  | member {inner : Place} (before after : List (String × Json)) :
    (name, inner) ∈ place.schema (.object (before ++ (name, value) :: after)) →
    Widens inner value other →
    Widens place (.object (before ++ (name, value) :: after))
      (.object (before ++ (name, other) :: after))
  | position {inner : Place} (before after : List Json) :
    (place.schema (.array (before ++ value :: after)))[before.length]? = some (name, inner) →
    Widens inner value other →
    Widens place (.array (before ++ value :: after)) (.array (before ++ other :: after))
  | item {inner : Place} (before after : List Json) : Widens inner value other →
    Widens (.each inner) (.array (before ++ value :: after)) (.array (before ++ other :: after))

namespace Place

theorem nodup_schema (place : Place) (json : Json) :
    ((place.schema json).map Prod.fst).Nodup := by
  have htype (found : Option (String × Json)) : ((ofType found).map Prod.fst).Nodup := by
    unfold ofType
    cases found with
    | none => simp
    | some found =>
      simp only [Option.map_some, Option.getD_some, ofTag]
      split <;> simp
  cases place with
  | statement => exact htype _
  | nested => exact htype _
  | _ => simp [schema]

end Place

theorem Json.Widens.keeps (h : Widens place json other) : place.KeepsValue json other := by
  induction h with
  | gain before after hrecord hname =>
    exact Place.keepsValue_of_fields hrecord .object (Place.fieldsKept_gain hname)
  | member before after hinner _ ih =>
    refine Place.keepsValue_of_fields (List.ne_nil_of_mem hinner) .object
      (Place.fieldsKept_member fun field hfield hname => ?_)
    cases List.inj_on_of_nodup_map (Place.nodup_schema _ _) hfield hinner hname
    exact ih
  | position before after hinner _ ih =>
    refine Place.keepsValue_of_fields ?_ .array (Place.fieldsKept_array fun field hfield => ?_)
    · rintro hnil
      simp [hnil] at hinner
    · cases hinner.symm.trans hfield
      exact ih
  | item before after _ ih => exact Place.each_array ih

-- ---------------------------------------------------------------------------
-- Any number of changes
-- ---------------------------------------------------------------------------

open Relation (ReflTransGen)

/-- The tree is read as a statement or, if as none, refused for its shape, and so is any text
that spells the tree. -/
def Json.ReadAs (json : Json) (read : Option Statement) : Prop :=
  Statement.ofJson? json = read ∧
    ∀ depth source rest, (Reader.value .keep depth).run source = .ok (json, rest) →
      (Script.Reader.statement depth).run source =
        match read with
        | some statement => .ok (statement, rest)
        | none => .error .misshapen

theorem Json.readAs_iff {json : Json} {read : Option Statement} :
    json.ReadAs read ↔ Statement.ofJson? json = read := by
  refine ⟨And.left, fun h => ⟨h, fun depth source rest hvalue => ?_⟩⟩
  rw [Script.Reader.statement_of_value hvalue, h]
  cases read <;> rfl

namespace Place

theorem keepsValue_of_reflTransGen {place : Place} {change : Json → Json → Prop}
    (hchange : ∀ json other, change json other → place.KeepsValue json other)
    (h : ReflTransGen change json other) : place.KeepsValue json other := by
  induction h with
  | refl => exact keepsValue_refl place json
  | tail _ hlast ih => exact ih.trans (hchange _ _ hlast)

end Place

/-- A statement is read whatever order its members are in, and whatever members it has that
it does not know. -/
theorem Statement.read_alike {json permuted widened : Json}
    (hpermuted : ReflTransGen Json.Permutes json permuted)
    (hwidened : ReflTransGen (Json.Widens .statement) json widened) :
    ∃ read, json.ReadAs read ∧ permuted.ReadAs read ∧ (read.isSome → widened.ReadAs read) := by
  have hthere : Place.statement.KeepsValue json permuted :=
    Place.keepsValue_of_reflTransGen (fun _ _ hstep => hstep.keeps _) hpermuted
  have hback : Place.statement.KeepsValue permuted json :=
    Place.keepsValue_of_reflTransGen (fun _ _ hstep => Json.Permutes.keeps hstep.symm _)
      hpermuted.swap
  have hsame : ofJson? permuted = ofJson? json :=
    Option.ext fun statement => ⟨hback statement, hthere statement⟩
  refine ⟨ofJson? json, Json.readAs_iff.mpr rfl, Json.readAs_iff.mpr hsame, fun hsome => ?_⟩
  obtain ⟨statement, hstatement⟩ := Option.isSome_iff_exists.mp hsome
  have hwiden : Place.statement.KeepsValue json widened :=
    Place.keepsValue_of_reflTransGen (fun _ _ hstep => hstep.keeps) hwidened
  rw [hstatement, Json.readAs_iff]
  exact hwiden statement hstatement

def signpost (operand : List (String × Json)) : List (String × Json) :=
  [("clauses", .array [.object [
      ("body", .array [.object [("text", .string "North"), ("type", .string "line")]]),
      ("condition", .object [
        ("variable", .string "$way"), ("function", .string "EQ"), ("value", .object operand)])]]),
    ("type", .string "if")]

theorem Statement.read_alike_signpost :
    let kind := ("type", .string "string")
    let content := ("value", .string "n")
    let json := Json.object (signpost [content, kind])
    let permuted := Json.object (signpost [kind, content]).reverse
    let widened := Json.object (signpost [content, ("unit", .null), kind] ++ [("text", .null)])
    ReflTransGen Json.Permutes json permuted ∧
      ReflTransGen (Json.Widens .statement) json widened ∧
      ∃ statement, statement = .branch [.mk (some ⟨"EQ", "$way", .string "n"⟩) [.line "North"]] ∧
        json.ReadAs (some statement) ∧ permuted.ReadAs (some statement) ∧
        widened.ReadAs (some statement) := by
  intro kind content json permuted widened
  have hpermuted : ReflTransGen Json.Permutes json permuted := by
    have hinner : Json.Permutes json (.object (signpost [kind, content])) :=
      .member [] [_] <| .item [] [] <| .member [_] [] <| .member [_, _] [] <| .members (.swap ..)
    exact .tail (.single hinner) (.members (List.reverse_perm _).symm)
  have hwidened : ReflTransGen (Json.Widens .statement) json widened := by
    have hinner : Json.Widens .statement json
        (.object (signpost [content, ("unit", .null), kind])) :=
      .member [] [_] (.tail _ (.head _)) <| .item [] [] <| .member [_] [] (.head _) <|
        .member [_, _] [] (.tail _ (.tail _ (.head _))) <|
          .gain [content] [kind] (List.cons_ne_nil _ _) (by decide)
    have houter : Json.Widens .statement (.object (signpost [content, ("unit", .null), kind]))
        widened :=
      .gain (signpost _) [] (List.cons_ne_nil _ _) (by decide)
    exact .tail (.single hinner) houter
  have hread : Statement.ofJson? json =
      some (.branch [.mk (some ⟨"EQ", "$way", .string "n"⟩) [.line "North"]]) := by rfl
  obtain ⟨read, hjson, hthere, hwide⟩ := Statement.read_alike hpermuted hwidened
  obtain rfl := hread.symm.trans hjson.1
  exact ⟨hpermuted, hwidened, _, rfl, hjson, hthere, hwide rfl⟩

end Dialogue
