import Dialogue.Proofs.Naming
import Dialogue.Proofs.Pruning

/-!
# Where the policy makes no difference

The policy decides only about a literal that does not fit its variable, and the
strict one gives such a statement up. So a plan that gives nothing up under the
strict policy is the plan under any policy (`Script.plan_eq_of_strict`), and a
script that compiles without diagnostics there compiles to the same everywhere
(`Script.compile_of_strict`): leniency changes nothing that was right before.
-/

namespace Dialogue

-- ---------------------------------------------------------------------------
-- Literals and checks
-- ---------------------------------------------------------------------------

theorem conform_of_strict (h : conform name declared .reject literal = .ok fitted)
    (policy : MismatchPolicy) : conform name declared policy literal = .ok fitted := by
  cases declared with
  | none => exact h
  | some kind =>
    simp only [conform] at h ⊢
    split at h
    · rename_i hkind
      rw [if_pos hkind]
      exact h
    · cases h

namespace Kinds

variable {kinds : Kinds}

theorem Passes.of_strict (h : kinds.Passes .reject condition found) (policy : MismatchPolicy) :
    kinds.Passes policy condition found := by
  cases h with
  | always => exact .always
  | compared hoperator hliteral hvalue =>
    exact .compared hoperator hliteral (conform_of_strict hvalue policy)

/-- The checks of a branch pass with the same pending kinds, so each of them meets
what it met under the strict policy. -/
theorem checks_of_strict {source : List Clause} {found : List (Option Check)}
    (h : checks .reject kinds source = .ok found) (policy : MismatchPolicy) :
    checks policy kinds source = .ok found := by
  induction source generalizing kinds found with
  | nil => exact h
  | cons clause rest ih =>
    obtain ⟨condition, body⟩ := clause
    obtain ⟨check, more, rfl, hpasses, hmore⟩ := (checks_cons_iff true).mp h
    exact (checks_cons_iff true).mpr ⟨check, more, rfl, hpasses.of_strict policy, ih hmore⟩

end Kinds

-- ---------------------------------------------------------------------------
-- Plans
-- ---------------------------------------------------------------------------

theorem Statement.Emits.of_strict {source : Statement} {kinds : Kinds}
    (h : source.Emits .reject kinds command) (policy : MismatchPolicy) :
    source.Emits policy kinds command := by
  cases h with
  | line => exact .line
  | jump => exact .jump
  | wait hparse => exact .wait hparse
  | assign hoperator hliteral hfitted =>
    exact .assign hoperator hliteral (conform_of_strict hfitted policy)

open Dialogue.Action (Clean clean_append clean_cons)

theorem Lowered.of_strict (h : Lowered .reject target kinds phrase actions)
    (hclean : Clean actions) (policy : MismatchPolicy) :
    Lowered policy target kinds phrase actions := by
  induction h with
  | emit hemits => exact .emit (hemits.of_strict policy)
  | ignore hparse => exact .ignore hparse
  | unsupported => exact .unsupported
  | menu _ ih => exact .menu (ih hclean)
  | branch hfound _ ih =>
    exact .branch (Kinds.checks_of_strict hfound policy) (ih (clean_append.mp hclean).1)
  | nil => exact .nil
  | cons _ _ hfirst hrest =>
    obtain ⟨hcleanFirst, hcleanRest⟩ := clean_append.mp hclean
    exact .cons (hfirst hcleanFirst) (hrest hcleanRest)
  | @skip _ _ _ _ _ error => exact absurd List.mem_cons_self (hclean error)
  | noChoice => exact .noChoice
  | choice _ _ hbody hrest =>
    obtain ⟨hcleanBody, hcleanRest⟩ := clean_append.mp hclean
    exact .choice (hbody (clean_cons hcleanBody)) (hrest hcleanRest)
  | noClause => exact .noClause
  | clause hpasses hcovers _ _ hbody hrest =>
    obtain ⟨hcleanBody, hcleanRest⟩ := clean_append.mp hclean
    exact .clause (hpasses.of_strict policy) hcovers (hbody (clean_cons hcleanBody))
      (hrest hcleanRest)

theorem Plan.nodes_of_strict {policy : MismatchPolicy} {kinds : Kinds} {started : List String}
    {order : List Node} (h : (nodes .reject kinds started order).failure = none)
    (hclean : Clean (nodes .reject kinds started order).actions) :
    nodes policy kinds started order = nodes .reject kinds started order := by
  induction order generalizing kinds started with
  | nil => rfl
  | cons source rest ih =>
    rcases nodes_cons_cases h with
      ⟨hstarted, hrest, hactions⟩ | ⟨hnew, body, hbody, hrest, hactions⟩
    · rw [hactions] at hclean
      rw [nodes_cons_of_mem hstarted, nodes_cons_of_mem hstarted, ih hrest (clean_cons hclean)]
    · rw [hactions] at hclean
      obtain ⟨hcleanBody, hcleanRest⟩ := clean_append.mp hclean
      have hsame := hbody.of_strict (clean_cons (clean_cons hcleanBody)) policy
      rw [nodes_cons_of_notMem hnew hbody, nodes_cons_of_notMem hnew hsame, ih hrest hcleanRest]

-- ---------------------------------------------------------------------------
-- Scripts
-- ---------------------------------------------------------------------------

theorem Session.host_perform_fresh {σ : Type} [Host σ] (host : σ) (options others : Options)
    (actions : List Action) :
    ((fresh host options).perform actions).ledger.host =
      ((fresh host others).perform actions).ledger.host := by
  have halike : (fresh host options).Alike (fresh host others) := ⟨rfl, rfl, rfl⟩
  have hself : (fresh host others).Alike (fresh host others) := ⟨rfl, rfl, rfl⟩
  rw [(halike.perform_effects actions).host, (hself.perform_effects actions).host]

namespace Script

variable {script : Script} {entry : String}

theorem plan_eq_of_strict (h : (script.plan ⟨entry, .reject⟩).failure = none)
    (hclean : Action.Clean (script.plan ⟨entry, .reject⟩).actions) (policy : MismatchPolicy) :
    script.plan ⟨entry, policy⟩ = script.plan ⟨entry, .reject⟩ := by
  obtain ⟨first, hfirst⟩ := find?_of_failure_eq_none h
  have hother : script.plan ⟨entry, policy⟩ =
      (Plan.nodes policy .none [] (first :: script.others entry)).andThen
        { actions := [.finish script.name] } := plan_eq hfirst
  rw [plan_eq hfirst] at h hclean ⊢
  have hnodes := (Plan.failure_andThen_eq_none.mp h).1
  rw [hother]
  rw [Plan.actions_andThen hnodes] at hclean
  exact congrArg (Plan.andThen · _) (Plan.nodes_of_strict hnodes (Action.clean_append.mp hclean).1)

/-- What the strict policy compiles without a diagnostic, the lenient policy compiles
to the same, with no literal changed and nothing reported. -/
theorem compile_of_strict {script : Script} {entry : String} {compiled : Compiled}
    (hcompile : script.compile { entry, mismatch := .reject } = .ok compiled)
    (hclean : compiled.diagnostics = []) :
    script.compile { entry, mismatch := .coerce } = .ok compiled := by
  obtain ⟨hplan, rfl⟩ := compile_eq_ok_iff.mp hcompile
  have hskips := Action.clean_of_diagnostics
    ((script.diagnostics_compilation ⟨entry, .reject⟩).symm.trans hclean)
  have hsame := plan_eq_of_strict hplan hskips .coerce
  refine compile_eq_ok_iff.mpr ⟨hsame ▸ hplan, ?_⟩
  have hhost : (script.compilation ⟨entry, .coerce⟩).ledger.host =
      (script.compilation ⟨entry, .reject⟩).ledger.host := by
    unfold compilation
    rw [hsame]
    exact Session.host_perform_fresh _ _ _ _
  rw [hhost, diagnostics_compilation, diagnostics_compilation, hsame]

/-- Two clauses compare one variable, and a third compares what the body of the first
declares with another kind, which neither policy sees. -/
def ferry : Script := .ofNodes "ferry" [
  ⟨"Start", [
    .branch [
      .mk (some ⟨"EqualTo", "paid", .bool true⟩) [
        .assign "EqualToOrAssign" "seat" (.string "window"),
        .choices [
          .mk "Deck" [.assign "AddAssign" "trips" (.number .one)],
          .mk "Start" [.jump "Pier"]]],
      .mk (some ⟨"NotEqualTo", "paid", .bool false⟩) [],
      .mk (some ⟨"EqualTo", "seat", .bool false⟩) [.directive "wait 3s"],
      .mk none [.line "Next ferry."]]]⟩,
  ⟨"Deck", [.branch [.mk (some ⟨"LessThan", "trips", .number .one⟩) [.line "First crossing."]]]⟩]

def ferryListing : Listing where
  name := "ferry"
  blocks := [
    ⟨"Start", [.ifThen ⟨.equals, ⟨0⟩, .bool true⟩, .set .assign ⟨1⟩ (.string "window"),
      .menu "Deck" ⟨1⟩, .menu "Start" ⟨0⟩, .call ⟨2⟩,
      .elseIf ⟨.notEquals, ⟨0⟩, .bool false⟩,
      .elseIf ⟨.equals, ⟨1⟩, .bool false⟩, .wait 3,
      .otherwise, .say "Next ferry.", .endIf]⟩,
    ⟨"Deck", [.set .add ⟨2⟩ (.number .one),
      .ifThen ⟨.lessThan, ⟨2⟩, .number .one⟩, .say "First crossing.", .endIf]⟩,
    ⟨"Pier", []⟩]
  vars := [
    ⟨"paid", .bool, .everywhere, .bool false⟩,
    ⟨"seat", .string, .everywhere, .string ""⟩,
    ⟨"trips", .number, .everywhere, .number .zero⟩]

theorem compile_of_strict_ferry :
    ferry.compile { mismatch := .reject } = .ok ⟨⟨0⟩, ferryListing, []⟩ ∧
      ferry.compile { mismatch := .coerce } = .ok ⟨⟨0⟩, ferryListing, []⟩ := by
  have hcompile : ferry.compile { mismatch := .reject } = .ok ⟨⟨0⟩, ferryListing, []⟩ := by
    decide +kernel
  exact ⟨hcompile, compile_of_strict hcompile rfl⟩

end Script

end Dialogue
