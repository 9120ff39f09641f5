import Dialogue.Proofs.Numerals
import Dialogue.Proofs.Readback
import Dialogue.Proofs.Steps
import Mathlib.Data.List.Forall2

/-!
# What the text of a flowchart says

The tree of a compiled script can be read (`Compiled.readable_toJson`), and it says all that
is in the script, of numbers how they are written (`Compiled.toJson_eq_iff`). The same holds
of its text (`Compiled.recovered_from_text`).
-/

namespace Dialogue

open Json (Readable)

-- ---------------------------------------------------------------------------
-- Trees of compiled scripts can be read
-- ---------------------------------------------------------------------------

/-- A pause, if it is one, is as short as a directive can ask for. -/
def Command.Brief : Command → Prop
  | .wait seconds => seconds < 0x100000000
  | _ => True

def Compiled.Brief (compiled : Compiled) : Prop :=
  ∀ block ∈ compiled.flowchart.blocks, ∀ command ∈ block.commands, command.Brief

section

variable {n : Nat}

theorem Json.readable_ofNat {k : Nat} (h : k < 0x100000000) : Readable n (.ofNat k) := by
  have hceiling : 0x100000000 ≤ Magnitude.ceiling := by decide +kernel
  obtain ⟨hformed, hsome⟩ := Numeral.readable_ofNat (h.le.trans hceiling)
  exact .number hformed hsome

theorem Literal.toJson_eq (literal : Literal) :
    literal.toJson =
      .object [("kind", .string literal.kind.name), ("value", literal.content)] := by
  cases literal <;> rfl

theorem Literal.readable_toJson (literal : Literal) : Readable (n + 1) literal.toJson := by
  have hcontent : Readable n literal.content := by
    cases literal with
    | string text => exact .string
    | bool value => exact .bool
    | number value =>
      show Readable n (Json.ofNumber value)
      unfold Json.ofNumber
      cases hnumeral : Json.Numeral.ofNumber? value with
      | none => exact .null
      | some numeral =>
        obtain ⟨hformed, hsome⟩ := Json.Numeral.readable_of_ofNumber? hnumeral
        exact .number hformed hsome
  simp [toJson_eq, hcontent]

theorem readable_block (id : BlockId) : Readable n id.toJson :=
  Json.readable_ofNat id.index.toNat_lt

theorem readable_variable (id : VariableId) : Readable n id.toJson :=
  Json.readable_ofNat id.index.toNat_lt

theorem Command.readable_toJson {command : Command} (h : command.Brief) :
    Readable (n + 2) command.toJson := by
  cases command with
  | wait seconds => simpa [toJson, members] using Json.readable_ofNat h
  | _ =>
    simp [toJson, members, Condition.members, readable_block, readable_variable,
      Literal.readable_toJson]

theorem Compiled.readable_toJson {compiled : Compiled} (h : compiled.Brief) :
    Readable (n + 7) compiled.toJson := by
  have hblock : ∀ block ∈ compiled.flowchart.blocks, Readable (n + 4) block.toJson := by
    intro block hmem
    have hcommands : ∀ command ∈ block.commands, Readable (n + 2) command.toJson :=
      fun command hcommand => Command.readable_toJson (h block hmem command hcommand)
    simpa [BlockListing.toJson] using hcommands
  have hvariable (found : Variable) : Readable (n + 4) found.toJson := by
    simp [Variable.toJson, Literal.readable_toJson]
  have hdiagnostic (diagnostic : Diagnostic) : Readable (n + 5) diagnostic.toJson := by
    simp [Diagnostic.toJson]
  simpa [toJson, Listing.toJson, readable_block, hvariable, hdiagnostic] using hblock

end

-- ---------------------------------------------------------------------------
-- Trees of compiled scripts tell them apart
-- ---------------------------------------------------------------------------

theorem map_eq_map_iff {f : α → β} {R : α → α → Prop} (h : ∀ a b, f a = f b ↔ R a b)
    {items others : List α} : items.map f = others.map f ↔ List.Forall₂ R items others := by
  rw [← List.forall₂_eq_eq_eq, List.forall₂_map_left_iff, List.forall₂_map_right_iff]
  simp only [h]

@[mk_iff] structure Literal.Agrees (literal other : Literal) : Prop where
  kind : literal.kind = other.kind
  content : literal.content = other.content

@[mk_iff] structure Condition.Agrees (condition other : Condition) : Prop where
  operator : condition.operator = other.operator
  subject : condition.subject = other.subject
  value : condition.value.Agrees other.value

def Command.Agrees : Command → Command → Prop
  | .set operator subject value, .set operation object content =>
    operator = operation ∧ subject = object ∧ value.Agrees content
  | .ifThen condition, .ifThen other | .elseIf condition, .elseIf other => condition.Agrees other
  | command, other => command = other

@[mk_iff] structure Variable.Agrees (found other : Variable) : Prop where
  key : found.key = other.key
  kind : found.kind = other.kind
  scope : found.scope = other.scope
  value : found.value.Agrees other.value

@[mk_iff] structure BlockListing.Agrees (block other : BlockListing) : Prop where
  name : block.name = other.name
  commands : List.Forall₂ Command.Agrees block.commands other.commands

/-- Compiled scripts that are the same in everything but numbers, and the same in numbers as
they are written. -/
@[mk_iff] structure Compiled.Agrees (compiled other : Compiled) : Prop where
  entry : compiled.entry = other.entry
  name : compiled.flowchart.name = other.flowchart.name
  blocks : List.Forall₂ BlockListing.Agrees compiled.flowchart.blocks other.flowchart.blocks
  vars : List.Forall₂ Variable.Agrees compiled.flowchart.vars other.flowchart.vars
  diagnostics : compiled.diagnostics = other.diagnostics

theorem Json.ofNat_inj {n k : Nat} : Json.ofNat n = .ofNat k ↔ n = k := by
  refine ⟨fun h => ?_, congrArg _⟩
  have hdigits : Digit.digits n = Digit.digits k := by
    simpa [ofNat, Numeral.ofNat] using h
  rw [← Digit.value_digits n, hdigits, Digit.value_digits]

theorem BlockId.toJson_inj {id other : BlockId} : id.toJson = other.toJson ↔ id = other := by
  rw [toJson, toJson, Json.ofNat_inj, UInt32.toNat_inj]
  cases id; cases other
  simp

theorem VariableId.toJson_inj {id other : VariableId} : id.toJson = other.toJson ↔ id = other := by
  rw [toJson, toJson, Json.ofNat_inj, UInt32.toNat_inj]
  cases id; cases other
  simp

theorem Kind.name_inj {kind other : Kind} : kind.name = other.name ↔ kind = other := by
  cases kind <;> cases other <;> decide

theorem SetOperator.name_inj {operator other : SetOperator} :
    operator.name = other.name ↔ operator = other := by
  cases operator <;> cases other <;> decide

theorem CompareOperator.name_inj {operator other : CompareOperator} :
    operator.name = other.name ↔ operator = other := by
  cases operator <;> cases other <;> decide

theorem Literal.toJson_eq_iff {literal other : Literal} :
    literal.toJson = other.toJson ↔ literal.Agrees other := by
  simp [toJson_eq, Kind.name_inj, agrees_iff]

theorem Command.toJson_eq_iff {command other : Command} :
    command.toJson = other.toJson ↔ command.Agrees other := by
  cases command <;> cases other <;>
    simp [toJson, typeName, members, Condition.members, Agrees, Condition.agrees_iff,
      SetOperator.name_inj, CompareOperator.name_inj, BlockId.toJson_inj, VariableId.toJson_inj,
      Literal.toJson_eq_iff, Json.ofNat_inj]

theorem Variable.toJson_eq_iff {found other : Variable} :
    found.toJson = other.toJson ↔ found.Agrees other := by
  have hscope : found.scope = other.scope := by
    cases found.scope; cases other.scope; rfl
  simp [toJson, agrees_iff, Kind.name_inj, Literal.toJson_eq_iff, hscope]

theorem BlockListing.toJson_eq_iff {block other : BlockListing} :
    block.toJson = other.toJson ↔ block.Agrees other := by
  simp [toJson, agrees_iff, map_eq_map_iff fun _ _ => Command.toJson_eq_iff]

/-- The tree of a compiled script says all that is in it, and of numbers how they are
written. -/
theorem Compiled.toJson_eq_iff {compiled other : Compiled} :
    compiled.toJson = other.toJson ↔ compiled.Agrees other := by
  have hdiagnostics : compiled.diagnostics.map Diagnostic.toJson =
      other.diagnostics.map Diagnostic.toJson ↔ compiled.diagnostics = other.diagnostics := by
    refine List.map_inj_right fun first second h => ?_
    cases first; cases second
    simpa [Diagnostic.toJson] using h
  simp [toJson, Listing.toJson, agrees_iff, BlockId.toJson_inj, hdiagnostics,
    map_eq_map_iff fun _ _ => BlockListing.toJson_eq_iff,
    map_eq_map_iff fun _ _ => Variable.toJson_eq_iff, and_assoc]

-- ---------------------------------------------------------------------------
-- Texts of compiled scripts
-- ---------------------------------------------------------------------------

theorem Action.Step.seconds_lt {kinds : Kinds} (h : Step policy names kinds action)
    (hwait : action = .emit target (.wait seconds)) : seconds < 0x100000000 := by
  cases h with
  | wait _ hseconds =>
    cases hwait
    exact hseconds
  | marker first check _ => rcases check with _ | check <;> cases first <;> cases hwait
  | _ => cases hwait

theorem Script.brief_of_compile {script : Script} (h : script.compile options = .ok compiled) :
    compiled.Brief := by
  obtain ⟨hplan, rfl⟩ := compile_eq_ok_iff.mp h
  intro block hblock command hcommand
  obtain ⟨target, emitted, hemit, _, rfl⟩ :=
    Session.exists_emission (Flowchart.mem_commands hblock hcommand)
  cases emitted with
  | wait seconds =>
    obtain ⟨first, hfirst⟩ := find?_of_failure_eq_none hplan
    rw [plan_eq hfirst] at hemit
    rcases Plan.mem_andThen hemit with hnodes | hfinish
    · obtain ⟨_, hstep⟩ := (Plan.steps_nodes [] (List.Subset.refl _)).exists_step hnodes
      exact hstep.seconds_lt rfl
    · cases List.mem_singleton.mp hfinish
  | _ => trivial

/-- The text of a compiled script is well formed and is read as the tree of that script. So
two compiled scripts have the same text only if they agree, and what is compiled from a text
to a text is read back as the tree of what the script in the text compiles to. -/
theorem Compiled.recovered_from_text :
    (∀ compiled : Compiled, compiled.Brief →
      Json.parse compiled.toJson.pretty = .ok compiled.toJson ∧
      ∀ other : Compiled, other.Brief →
        (Json.parse other.toJson.pretty = .ok compiled.toJson ↔ other.Agrees compiled)) ∧
    ∀ text options output, compileText text options = .ok output →
      ∃ script compiled, Script.parse text = .ok script ∧
        script.compile options = .ok compiled ∧ compiled.Brief ∧
        output = compiled.toJson.pretty ∧ Json.parse output = .ok compiled.toJson := by
  have hread (compiled : Compiled) (h : compiled.Brief) :
      Json.parse compiled.toJson.pretty = .ok compiled.toJson :=
    (Compiled.readable_toJson (n := 120) h).parse_pretty
  refine ⟨fun compiled h => ⟨hread compiled h, fun other hother => ?_⟩, ?_⟩
  · rw [hread other hother, Except.ok.injEq, toJson_eq_iff]
  · intro text options output houtput
    obtain ⟨script, compiled, hparse, hcompile, rfl⟩ := compileText_eq_ok_iff.mp houtput
    have hbrief := Script.brief_of_compile hcompile
    exact ⟨script, compiled, hparse, hcompile, hbrief, rfl, hread compiled hbrief⟩

def notice (value : Number) : Compiled where
  entry := ⟨0⟩
  flowchart := ⟨"a \"notice\"", [⟨"Tür\\", [.say "\x01\t", .wait 4294967295]⟩, ⟨"", []⟩],
    [⟨"x", .number, .everywhere, .number value⟩]⟩
  diagnostics := [⟨"Tür\\", "\n"⟩]

/-- Numbers that are written alike cannot be told apart. -/
theorem Compiled.recovered_from_text_notice :
    (notice .nan).Brief ∧ (notice (.infinite true)).Brief ∧
      Json.parse (notice .nan).toJson.pretty = .ok (notice .nan).toJson ∧
      (Json.parse (notice (.infinite true)).toJson.pretty = .ok (notice .nan).toJson ↔
        (notice (.infinite true)).Agrees (notice .nan)) ∧
      ∃ output, compileText (retold "7.5") { mismatch := .coerce } = .ok output ∧
        ∃ script compiled, Script.parse (retold "7.5") = .ok script ∧
          script.compile { mismatch := .coerce } = .ok compiled ∧ compiled.Brief ∧
          output = compiled.toJson.pretty ∧ Json.parse output = .ok compiled.toJson := by
  have hbrief (value : Number) : (notice value).Brief := by
    simp [Brief, notice, Command.Brief]
  have hread := Compiled.recovered_from_text.1 (notice .nan) (hbrief .nan)
  refine ⟨hbrief _, hbrief _, hread.1, hread.2 _ (hbrief _), ?_⟩
  have hsome : (compileText (retold "7.5") { mismatch := .coerce }).toOption.isSome = true := by
    decide +kernel
  obtain ⟨output, houtput⟩ := Option.isSome_iff_exists.mp hsome
  have hcompile := eq_ok_of_toOption houtput
  exact ⟨output, hcompile, Compiled.recovered_from_text.2 _ _ _ hcompile⟩

end Dialogue
