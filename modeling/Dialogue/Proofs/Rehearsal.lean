import Dialogue.Proofs.Simulation

/-!
# Checking a branch ahead of time

The conditions of a branch are checked before any variable is made, with a table of
pending kinds in the place of the variables that the branch is about to create. The
plain way is to bind one condition after another in a copy of the registry
(`Check.bindClauses`). At every clause the copy declares what the registry and the
pending kinds declare together (`Check.bindComparison_cases` and `Kinds.with_insert`),
so both ways accept the same branches, find the same checks and stop at the same error,
and the check ahead leaves the session alone (`Lowering.checks_rehearsed`).
-/

namespace Dialogue

variable {σ τ : Type} [Host τ]

namespace Check

/-- Takes a comparison the plain way: its variable is bound, and made if need be. -/
def bindComparison (policy : MismatchPolicy) (vars : VariableRegistry) (ledger : Ledger τ)
    (comparison : Comparison) : Except CompileError (Check × VariableRegistry × Ledger τ) := do
  let some operator := CompareOperator.ofFunction? comparison.function
    | throw (.unknownComparison comparison.function)
  let literal ← comparison.value.literal
  let ((_, value), vars, ledger) ← vars.bind comparison.name policy literal ledger
  pure (⟨operator, comparison.name, value⟩, vars, ledger)

def bindClauses (policy : MismatchPolicy) (vars : VariableRegistry) (ledger : Ledger τ) :
    List Clause → Except CompileError (List (Option Check) × VariableRegistry × Ledger τ)
  | [] => pure ([], vars, ledger)
  | .mk none _ :: rest => do
    let (found, vars, ledger) ← bindClauses policy vars ledger rest
    pure (none :: found, vars, ledger)
  | .mk (some comparison) _ :: rest => do
    let (check, vars, ledger) ← bindComparison policy vars ledger comparison
    let (found, vars, ledger) ← bindClauses policy vars ledger rest
    pure (some check :: found, vars, ledger)

/-- Binding fails like a check against the declared kinds, or finds what the check finds
and declares it. -/
theorem bindComparison_cases (policy : MismatchPolicy) (vars : VariableRegistry)
    (ledger : Ledger τ) (comparison : Comparison) :
    (∃ error, Kinds.check vars.kind? policy comparison = .error error ∧
        bindComparison policy vars ledger comparison = .error error) ∨
      ∃ found after scratch, Kinds.check vars.kind? policy comparison = .ok found ∧
        bindComparison policy vars ledger comparison = .ok (found, after, scratch) ∧
        after.kind? = Kinds.declare vars.kind? found.name found.value.kind := by
  unfold Kinds.check bindComparison VariableRegistry.bind
  cases CompareOperator.ofFunction? comparison.function with
  | none => exact .inl ⟨_, rfl, rfl⟩
  | some operator =>
    cases comparison.value.literal with
    | error error => exact .inl ⟨_, rfl, rfl⟩
    | ok literal =>
      simp only [bind, Except.bind, pure, Except.pure]
      cases conform comparison.name (vars.kind? comparison.name) policy literal with
      | error error => exact .inl ⟨_, rfl, rfl⟩
      | ok value => exact .inr ⟨_, _, _, rfl, rfl, vars.kind?_resolve _ _ ledger⟩

theorem map_bindClauses (policy : MismatchPolicy) (vars : VariableRegistry) (ledger : Ledger τ)
    (clauses : List Clause) :
    (bindClauses policy vars ledger clauses).map Prod.fst =
      Kinds.checks policy vars.kind? clauses := by
  induction clauses generalizing vars ledger with
  | nil => rfl
  | cons clause rest ih =>
    obtain ⟨condition, body⟩ := clause
    cases condition with
    | none =>
      simp only [bindClauses, Kinds.checks, ← ih vars ledger]
      cases bindClauses policy vars ledger rest <;> rfl
    | some comparison =>
      simp only [bindClauses, Kinds.checks]
      obtain ⟨error, hcheck, hbind⟩ | ⟨found, after, scratch, hcheck, hbind, hkinds⟩ :=
        bindComparison_cases policy vars ledger comparison
      · rw [hcheck, hbind]
        rfl
      · simp only [hcheck, hbind, bind, Except.bind, ← hkinds, ← ih after scratch]
        cases bindClauses policy after scratch rest <;> rfl

end Check

/-- The check of a branch ends as binding its conditions in turn does, in a copy of the
registry and in any host, and it changes nothing. -/
theorem Lowering.checks_rehearsed (clauses : List Clause) (session : Session σ)
    (ledger : Ledger τ) :
    checks clauses session =
      match Check.bindClauses session.options.mismatch session.vars ledger clauses with
      | .ok (found, _, _) => .ok found session
      | .error error => .error error session := by
  have hfound := Check.map_bindClauses session.options.mismatch session.vars ledger clauses
  rw [checks_eq, Session.kinds, ← hfound]
  cases Check.bindClauses session.options.mismatch session.vars ledger clauses <;> rfl

end Dialogue
