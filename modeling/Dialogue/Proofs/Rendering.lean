import Dialogue.Report
import Mathlib.Data.List.Basic

/-!
# The literals of a tree

In the JSON form of a compiled script a literal is an object of just a kind and a
value. `Compiled.literals_toJson` says that these objects are the literals of the
commands and variables of the flowchart and nothing else.
-/

namespace Dialogue

namespace Json

def literal? : List (String × Json) → Option (String × Json)
  | [("kind", .string kind), ("value", value)] => some (kind, value)
  | _ => none

mutual

def literals : Json → List (String × Json)
  | .array items => itemLiterals items
  | .object members => (literal? members).toList ++ memberLiterals members
  | _ => []

def itemLiterals : List Json → List (String × Json)
  | [] => []
  | item :: rest => literals item ++ itemLiterals rest

def memberLiterals : List (String × Json) → List (String × Json)
  | [] => []
  | (_, value) :: rest => literals value ++ memberLiterals rest

end

theorem itemLiterals_map (toJson : α → Json) (items : List α) :
    itemLiterals (items.map toJson) = items.flatMap fun item => (toJson item).literals := by
  induction items with
  | nil => rfl
  | cons item rest ih => rw [List.map_cons, itemLiterals, ih, List.flatMap_cons]

/-- The value of every literal whose kind is that of numbers is a number. -/
def Numeric (json : Json) : Prop :=
  ∀ literal ∈ json.literals, literal.1 = Kind.number.name → ∃ numeral, literal.2 = .number numeral

end Json

-- ---------------------------------------------------------------------------
-- Literals of flowcharts
-- ---------------------------------------------------------------------------

def Command.literal? : Command → Option Literal
  | .set _ _ value => some value
  | .ifThen condition | .elseIf condition => some condition.value
  | _ => none

def Listing.literals (listing : Listing) : List Literal :=
  listing.blocks.flatMap (fun block => block.commands.filterMap Command.literal?) ++
    listing.vars.map (·.value)

def Literal.content : Literal → Json
  | .string text => .string text
  | .number value => .ofNumber value
  | .bool value => .bool value

namespace Literal

theorem literals_toJson (literal : Literal) :
    literal.toJson.literals = [(literal.kind.name, literal.content)] := by
  have hcontent : literal.content.literals = [] := by
    cases literal with
    | number value =>
      change (Json.ofNumber value).literals = []
      unfold Json.ofNumber
      cases Json.Numeral.ofNumber? value <;> rfl
    | _ => rfl
  cases literal <;> simp only [content] at hcontent <;>
    simp [toJson, content, Json.literals, Json.literal?, Json.memberLiterals, hcontent]

end Literal

theorem Command.literals_toJson (command : Command) :
    command.toJson.literals =
      command.literal?.toList.map fun literal => (literal.kind.name, literal.content) := by
  cases command <;>
    simp [toJson, members, Condition.members, literal?, typeName, Json.literals, Json.literal?,
      Json.memberLiterals, Literal.literals_toJson, BlockId.toJson, VariableId.toJson, Json.ofNat]

theorem Variable.literals_toJson (found : Variable) :
    found.toJson.literals = [(found.value.kind.name, found.value.content)] := by
  simp [toJson, Json.literals, Json.literal?, Json.memberLiterals, Literal.literals_toJson]

theorem BlockListing.literals_toJson (block : BlockListing) :
    block.toJson.literals = (block.commands.filterMap Command.literal?).map fun literal =>
      (literal.kind.name, literal.content) := by
  rw [List.filterMap_eq_flatMap_toList, List.map_flatMap]
  simp [toJson, Json.literals, Json.literal?, Json.memberLiterals, Json.itemLiterals_map,
    Command.literals_toJson]

theorem Listing.literals_toJson (listing : Listing) :
    listing.toJson.literals = listing.literals.map fun literal =>
      (literal.kind.name, literal.content) := by
  have hblocks : Json.itemLiterals (listing.blocks.map BlockListing.toJson) =
      listing.blocks.flatMap fun block =>
        (block.commands.filterMap Command.literal?).map fun literal =>
          (literal.kind.name, literal.content) := by
    simp only [Json.itemLiterals_map, BlockListing.literals_toJson]
  have hvars : Json.itemLiterals (listing.vars.map Variable.toJson) =
      listing.vars.map fun found => (found.value.kind.name, found.value.content) := by
    rw [Json.itemLiterals_map, List.map_eq_flatMap]
    simp only [Variable.literals_toJson]
  rw [literals, List.map_append, List.map_flatMap, List.map_map]
  simp [toJson, Json.literals, Json.literal?, Json.memberLiterals, hblocks, hvars]

theorem Compiled.literals_toJson (compiled : Compiled) :
    compiled.toJson.literals = compiled.flowchart.literals.map fun literal =>
      (literal.kind.name, literal.content) := by
  have hdiagnostics (diagnostic : Diagnostic) : diagnostic.toJson.literals = [] := by
    simp [Diagnostic.toJson, Json.literals, Json.literal?, Json.memberLiterals]
  simp [toJson, Json.literals, Json.literal?, Json.memberLiterals, Json.itemLiterals_map,
    BlockId.toJson, Json.ofNat, Listing.literals_toJson, hdiagnostics]

-- ---------------------------------------------------------------------------
-- Numbers
-- ---------------------------------------------------------------------------

def Literal.Finite : Literal → Prop
  | .number value => value.isFinite = true
  | _ => True

theorem Json.isSome_ofNumber? (value : Number) :
    (Numeral.ofNumber? value).isSome = value.isFinite := by
  cases value with
  | finite negative magnitude =>
    simp only [Numeral.ofNumber?]
    split <;> rfl
  | _ => rfl

theorem Json.ofNumber_eq_number_iff {value : Number} :
    (∃ numeral, ofNumber value = .number numeral) ↔ value.isFinite = true := by
  rw [← isSome_ofNumber?, ofNumber]
  cases Numeral.ofNumber? value <;> simp

/-- A compiled script is written with numbers for its numbers exactly if they are finite. -/
theorem Compiled.numeric_toJson_iff {compiled : Compiled} :
    compiled.toJson.Numeric ↔ ∀ literal ∈ compiled.flowchart.literals, literal.Finite := by
  have hstring : Kind.string.name ≠ Kind.number.name := by decide
  have hbool : Kind.bool.name ≠ Kind.number.name := by decide
  unfold Json.Numeric
  rw [literals_toJson, List.forall_mem_map]
  refine forall₂_congr fun literal _ => ?_
  cases literal with
  | string text => exact iff_of_true (fun hkind => absurd hkind hstring) trivial
  | number value => exact (forall_prop_of_true rfl).trans Json.ofNumber_eq_number_iff
  | bool value => exact iff_of_true (fun hkind => absurd hkind hbool) trivial

end Dialogue
