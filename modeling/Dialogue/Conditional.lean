import Dialogue.Registry
import Dialogue.Script.Basic

/-!
# Conditions of a branch

All the conditions of a branch are checked before any of it is lowered, so that
a bad one costs the whole branch and leaves nothing behind. A variable that an
earlier clause of the branch is about to create counts as declared.
-/

namespace Dialogue

def Operand.literal : Operand → Except CompileError Literal
  | .string text => .ok (.string text)
  | .number value => .ok (.number value)
  | .bool value => .ok (.bool value)
  | other => .error (.unknownValueKind other.kindName)

/-- A comparison whose operator is known and whose literal fits its variable. -/
structure Check where
  operator : CompareOperator
  name : String
  value : Literal
  deriving DecidableEq, Repr

namespace Check

/-- Checks a comparison. `pending` holds the kinds that earlier clauses of the
same branch will create. -/
def ofComparison (vars : VariableRegistry) (policy : MismatchPolicy) (pending : Table Kind)
    (comparison : Comparison) : Except CompileError (Check × Table Kind) := do
  let name := comparison.name
  let some operator := CompareOperator.ofFunction? comparison.function
    | throw (.unknownComparison comparison.function)
  let literal ← comparison.value.literal
  let declared := (vars.kind? name).or (pending.find? name)
  let value ← conform name declared policy literal
  let pending := if pending.contains name then pending else pending.insert name value.kind
  pure (⟨operator, name, value⟩, pending)

def ofClauses (vars : VariableRegistry) (policy : MismatchPolicy) :
    Table Kind → List Clause → Except CompileError (List (Option Check))
  | _, [] => pure []
  | pending, .mk none _ :: rest => do
    pure (none :: (← ofClauses vars policy pending rest))
  | pending, .mk (some comparison) _ :: rest => do
    let (check, pending) ← ofComparison vars policy pending comparison
    pure (some check :: (← ofClauses vars policy pending rest))

end Check

end Dialogue
