import Dialogue.Proofs.Fitting
import Dialogue.Proofs.References

/-!
# Numbers in the text of a flowchart

A number that is not finite is written as null. `compileText_numeric` says when
the text of a flowchart has no such null in place of a number: exactly if no text
that the script uses with a number names one that is not finite. That is always so
under the strict policy.
-/

namespace Dialogue

-- ---------------------------------------------------------------------------
-- Variables hold zeros
-- ---------------------------------------------------------------------------

namespace Session

def Zeroed (session : Session Flowchart) : Prop :=
  ∀ (position : Nat) (found : Variable), session.ledger.host.vars[position]? = some found →
    ∃ kind, found.value = .zero kind

namespace Zeroed

variable {session : Session Flowchart}

theorem withBlock (h : session.Zeroed) (name : String) : (session.withBlock name).Zeroed := by
  cases hfind : session.blocks.find? name with
  | some block => rwa [withBlock_of_find? hfind]
  | none =>
    unfold Zeroed
    rwa [host_withBlock hfind]

theorem withVariable (h : session.Zeroed) (name : String) (kind : Kind) :
    (session.withVariable name kind).Zeroed := by
  cases hfind : session.vars.find? name with
  | some found => rwa [withVariable_of_find? hfind]
  | none =>
    unfold Zeroed
    rw [host_withVariable hfind]
    intro position found hfound
    have hpushed {old : Variable} (hold : (session.ledger.host.vars.push
        ⟨name, kind, .everywhere, .zero kind⟩)[position]? = some old) :
        ∃ kind, old.value = .zero kind := by
      rw [Array.getElem?_push] at hold
      split at hold
      · cases hold
        exact ⟨kind, rfl⟩
      · exact h position old hold
    rw [Array.getElem?_modify] at hfound
    split at hfound
    · obtain ⟨old, _, rfl⟩ := Option.map_eq_some_iff.mp hfound
      exact ⟨kind, rfl⟩
    · exact hpushed hfound

theorem action (h : session.Zeroed) (action : Action) : (action.perform session).Zeroed := by
  cases action with
  | mention name => exact h.withBlock name
  | emit target command =>
    have hopen := h.withBlock target
    have hdeclared : (command.declare (session.withBlock target)).Zeroed := by
      obtain hsame | ⟨name, hblock⟩ | ⟨name, kind, hvar⟩ :=
        command.declare_cases (session.withBlock target)
      · rw [hsame]
        exact hopen
      · rw [hblock]
        exact hopen.withBlock name
      · rw [hvar]
        exact hopen.withVariable name kind
    exact hdeclared
  | _ => exact h

theorem perform (h : session.Zeroed) (actions : List Action) :
    (session.perform actions).Zeroed := by
  induction actions generalizing session with
  | nil => exact h
  | cons action rest ih => exact ih (h.action action)

end Zeroed

end Session

-- ---------------------------------------------------------------------------
-- The literals of a compiled script
-- ---------------------------------------------------------------------------

theorem NamedCommand.literal?_resolve (session : Session Flowchart) (command : NamedCommand) :
    (command.resolve session).literal? = command.literal? := by
  cases command <;> rfl

namespace Script

variable {script : Script} {options : Options}

theorem finite_literals_of_finite (h : Action.Finite (script.plan options).actions) :
    ∀ literal ∈ (script.compilation options).ledger.host.listing.literals, literal.Finite := by
  intro literal hliteral
  rcases List.mem_append.mp hliteral with hcommand | hvar
  · obtain ⟨block, hblock, hmem⟩ := List.mem_flatMap.mp hcommand
    obtain ⟨command, hcommand, hsome⟩ := List.mem_filterMap.mp hmem
    obtain ⟨target, emitted, hemit, _, rfl⟩ :=
      Session.exists_emission (Flowchart.mem_commands hblock hcommand)
    rw [NamedCommand.literal?_resolve] at hsome
    refine h literal (List.mem_filterMap.mpr ⟨(target, emitted), ?_, hsome⟩)
    exact List.mem_filterMap.mpr ⟨_, hemit, rfl⟩
  · obtain ⟨found, hfound, rfl⟩ := List.mem_map.mp hvar
    obtain ⟨position, hposition⟩ := List.mem_iff_getElem?.mp hfound
    have hfresh : (Session.fresh ({ name := script.name } : Flowchart) options).Zeroed := nofun
    have hheld : (script.compilation options).ledger.host.vars[position]? = some found := by
      simpa [Flowchart.listing] using hposition
    obtain ⟨kind, hkind⟩ := hfresh.perform (script.plan options).actions position found hheld
    rw [hkind]
    cases kind <;> trivial

theorem finite_of_finite_literals
    (hcount : (script.compilation options).ledger.host.listing.commands.length ≤ UInt32.size)
    (h : ∀ literal ∈ (script.compilation options).ledger.host.listing.literals, literal.Finite) :
    Action.Finite (script.plan options).actions := by
  intro literal hliteral
  obtain ⟨emission, hemission, hsome⟩ := List.mem_filterMap.mp hliteral
  obtain ⟨block, hblock, hcommand⟩ := exists_block_of_mem hcount hemission
  refine h literal (List.mem_append_left _ (List.mem_flatMap.mpr ⟨block, hblock, ?_⟩))
  refine List.mem_filterMap.mpr ⟨_, hcommand, ?_⟩
  rwa [NamedCommand.literal?_resolve]

end Script

-- ---------------------------------------------------------------------------
-- From text to text
-- ---------------------------------------------------------------------------

theorem compileText_eq_ok_iff :
    compileText text options = .ok output ↔ ∃ script compiled, Script.parse text = .ok script ∧
      script.compile options = .ok compiled ∧ output = compiled.toJson.pretty := by
  unfold compileText
  constructor
  · intro h
    split at h
    · cases h
    · rename_i script hparse
      split at h
      · cases h
      · rename_i compiled hcompile
        cases h
        exact ⟨script, compiled, hparse, hcompile, rfl⟩
  · rintro ⟨script, compiled, hparse, hcompile, rfl⟩
    simp only [hparse, hcompile]

/-- The text of a flowchart has a number for every literal of that kind if no text
that names something else is used with a number, and, as long as every command
stands in the flowchart, only then. -/
theorem compileText_numeric {text output : String} {options : Options}
    (h : compileText text options = .ok output) :
    ∃ script compiled, Script.parse text = .ok script ∧ script.compile options = .ok compiled ∧
      output = compiled.toJson.pretty ∧
      (Tame.script options script → compiled.toJson.Numeric) ∧
      (compiled.flowchart.commands.length ≤ UInt32.size → compiled.toJson.Numeric →
        Tame.script options script) ∧
      (options.mismatch = .reject → compiled.toJson.Numeric) ∧
      ((∀ operand ∈ script.operands, ∀ raw, operand.2 = .string raw →
        ∀ value, Number.ofText? (Text.trim raw) = some value → value.isFinite = true) →
          compiled.toJson.Numeric) := by
  obtain ⟨script, compiled, hparse, hcompile, rfl⟩ := compileText_eq_ok_iff.mp h
  obtain ⟨hplan, rfl⟩ := Script.compile_eq_ok_iff.mp hcompile
  have htame := Tame.script_iff (Script.finite_of_parse hparse) hplan
  refine ⟨script, _, hparse, hcompile, rfl, ?_⟩
  rw [Compiled.numeric_toJson_iff]
  have hnumeric (hscript : Tame.script options script) :=
    Script.finite_literals_of_finite (htame.mpr hscript)
  refine ⟨hnumeric, fun hcount hfinite => ?_, fun hreject => ?_, fun htexts => ?_⟩
  · exact htame.mp (Script.finite_of_finite_literals hcount hfinite)
  · refine hnumeric (Tame.script_of_harmless ?_)
    rw [hreject]
    exact Tame.harmless_reject _
  · exact hnumeric (Tame.script_of_harmless (Tame.harmless_of_texts htexts _))

def retold (raw : String) : String :=
  "[\"\",\x7b\"Start\":[\"\",[[\"assignment\",\"EqualToOrAssign\",\"x\",[\"number\",1]]," ++
    "[\"assignment\",\"AddAssign\",\"x\",[\"string\",\"" ++ raw ++ "\"]]]]\x7d]"

theorem eq_ok_of_toOption {x : Except ε α} (h : x.toOption = some a) : x = .ok a := by
  cases x with
  | ok found =>
    cases h
    rfl
  | error fault => cases h

theorem compileText_numeric_retold :
    ∃ output script compiled, compileText (retold " 7.5 ") { mismatch := .coerce } = .ok output ∧
      Script.parse (retold " 7.5 ") = .ok script ∧
      script.compile { mismatch := .coerce } = .ok compiled ∧ output = compiled.toJson.pretty ∧
      compiled.toJson.Numeric := by
  have hrun : (Script.parse (retold " 7.5 ")).toOption.bind (fun script =>
      (script.compile { mismatch := .coerce }).toOption.map fun _ => script.operands) =
        some [("x", .number .one), ("x", .string " 7.5 ")] := by decide +kernel
  have hvalue : (Number.ofText? (Text.trim " 7.5 ")).all Number.isFinite = true := by
    decide +kernel
  obtain ⟨read, hread, hmade⟩ := Option.bind_eq_some_iff.mp hrun
  obtain ⟨made, hmake, hoperands⟩ := Option.map_eq_some_iff.mp hmade
  have houtput := compileText_eq_ok_iff.mpr
    ⟨read, made, eq_ok_of_toOption hread, eq_ok_of_toOption hmake, rfl⟩
  obtain ⟨script, compiled, hparse, hcompile, hpretty, _, _, _, htexts⟩ :=
    compileText_numeric houtput
  cases hparse.symm.trans (eq_ok_of_toOption hread)
  refine ⟨_, read, compiled, houtput, hparse, hcompile, hpretty, htexts ?_⟩
  intro operand hoperand raw hraw value hnumber
  rw [hoperands] at hoperand
  rcases List.mem_cons.mp hoperand with rfl | hsecond
  · cases hraw
  · cases List.mem_singleton.mp hsecond
    cases hraw
    rwa [hnumber] at hvalue

theorem not_numeric_retold :
    ∃ output script compiled, compileText (retold "inf") { mismatch := .coerce } = .ok output ∧
      Script.parse (retold "inf") = .ok script ∧
      script.compile { mismatch := .coerce } = .ok compiled ∧ output = compiled.toJson.pretty ∧
      ¬ compiled.toJson.Numeric := by
  have hrun : (Script.parse (retold "inf")).toOption.bind (fun script =>
      (script.compile { mismatch := .coerce }).toOption.map (·.flowchart.literals)) =
        some [.number .one, .number (.infinite false), .number .zero] := by decide +kernel
  obtain ⟨script, hread, hmade⟩ := Option.bind_eq_some_iff.mp hrun
  obtain ⟨compiled, hmake, hliterals⟩ := Option.map_eq_some_iff.mp hmade
  have hparse := eq_ok_of_toOption hread
  have hcompile := eq_ok_of_toOption hmake
  have houtput := compileText_eq_ok_iff.mpr ⟨script, compiled, hparse, hcompile, rfl⟩
  refine ⟨_, script, compiled, houtput, hparse, hcompile, rfl, ?_⟩
  rw [Compiled.numeric_toJson_iff, hliterals]
  intro hfinite
  exact absurd (hfinite (.number (.infinite false)) (by simp)) Bool.false_ne_true

end Dialogue
