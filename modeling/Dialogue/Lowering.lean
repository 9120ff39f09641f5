import Dialogue.Conditional
import Dialogue.Directive
import Dialogue.Session

/-!
# Lowering of statements

Statements become commands at the end of a block. The body of a clause stays in
the block, between the marker of its clause and the next; the body of a choice
goes to the block that is named like its label.
-/

namespace Dialogue.Lowering

variable {σ : Type} [Host σ]

def jump (target : BlockId) (destination : String) : Lowering σ Unit := do
  emit target (.call (← blockFor destination))

def directive (target : BlockId) (raw : String) : Lowering σ Unit := do
  match ← ofExcept (Directive.parse raw) with
  | some (.wait seconds) => emit target (.wait seconds)
  | none => note (.ignoringDirective raw)

def assign (target : BlockId) (operation name : String) (value : Operand) : Lowering σ Unit := do
  let some operator := SetOperator.ofToken? operation | throw (.unknownOperator operation)
  let literal ← ofExcept value.literal
  let (found, literal) ← bindVariable name literal
  emit target (.set operator found.id literal)

def checks (clauses : List Clause) : Lowering σ (List (Option Check)) := do
  let session ← get
  ofExcept (Check.ofClauses session.vars session.options.mismatch .empty clauses)

/-- The command that opens a clause. Only the first clause can open with a
condition of its own; a later condition is an alternative. -/
def marker (first : Bool) : Option Check → Lowering σ Command
  | none => pure .otherwise
  | some check => do
    let found ← variableFor check.name check.value.kind
    let condition : Condition := ⟨check.operator, found.id, check.value⟩
    pure (if first then .ifThen condition else .elseIf condition)

mutual

def statement (target : BlockId) : Statement → Lowering σ Unit
  | .line text => emit target (.say text)
  | .jump destination => jump target destination
  | .directive raw => directive target raw
  | .choices options => choices target options
  | .branch branches => do
    clauses target true branches (← checks branches)
    emit target .endIf
  | .assign operation name value => assign target operation name value
  | .unsupported => pure ()

def statements (target : BlockId) : List Statement → Lowering σ Unit
  | [] => pure ()
  | first :: rest => do
    recovering (statement target first)
    statements target rest

def choices (target : BlockId) : List Choice → Lowering σ Unit
  | [] => pure ()
  | .mk label body :: rest => do
    let chosen ← blockFor label
    emit target (.menu label chosen)
    statements chosen body
    choices target rest

def clauses (target : BlockId) (first : Bool) : List Clause → List (Option Check) → Lowering σ Unit
  | .mk _ body :: rest, check :: more => do
    emit target (← marker first check)
    statements target body
    clauses target false rest more
  | _, _ => pure ()

end

end Dialogue.Lowering
