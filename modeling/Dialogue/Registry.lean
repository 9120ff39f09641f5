import Dialogue.Error
import Dialogue.Host
import Dialogue.Table

/-!
# Registries

Which block a name stands for, and which variable of which kind. A name that is
not known yet is created in the host the first time it is asked for.
-/

namespace Dialogue

inductive MismatchPolicy
  | reject
  | coerce
  deriving DecidableEq, Repr

abbrev BlockRegistry := Table BlockId

def BlockRegistry.resolve {σ : Type} [Host σ] (blocks : BlockRegistry) (name : String)
    (ledger : Ledger σ) : BlockId × BlockRegistry × Ledger σ :=
  match blocks.find? name with
  | some id => (id, blocks, ledger)
  | none =>
    let (id, ledger) := ledger.createBlock name
    (id, blocks.insert name id, ledger.note (.createdBlock name))

structure Declaration where
  id : VariableId
  kind : Kind
  deriving DecidableEq, Repr

abbrev VariableRegistry := Table Declaration

def conform (name : String) (declared : Option Kind) (policy : MismatchPolicy)
    (literal : Literal) : Except CompileError Literal :=
  match declared with
  | none => .ok literal
  | some kind =>
    if kind = literal.kind then .ok literal
    else
      match policy, literal.coerce? kind with
      | .coerce, some literal => .ok literal
      | _, _ => .error (.kindMismatch name kind literal.kind)

namespace VariableRegistry

variable {σ : Type} [Host σ]

/-- The variable of a name. A variable that exists keeps its kind, one that does
not is created with `kind` and its zero. -/
def resolve (vars : VariableRegistry) (name : String) (kind : Kind) (ledger : Ledger σ) :
    Declaration × VariableRegistry × Ledger σ :=
  match vars.find? name with
  | some declaration => (declaration, vars, ledger)
  | none =>
    let (id, ledger) := ledger.createVariable name kind
    let ledger := (ledger.setValue id (.zero kind)).note (.createdVariable name kind)
    let declaration := ⟨id, kind⟩
    (declaration, vars.insert name declaration, ledger)

def kind? (vars : VariableRegistry) (name : String) : Option Kind :=
  (vars.find? name).map (·.kind)

/-- The variable of a name for use with a literal, and the literal to use.
Nothing is created when the literal does not fit. -/
def bind (vars : VariableRegistry) (name : String) (policy : MismatchPolicy)
    (literal : Literal) (ledger : Ledger σ) :
    Except CompileError ((Declaration × Literal) × VariableRegistry × Ledger σ) := do
  let literal ← conform name (vars.kind? name) policy literal
  let (declaration, vars, ledger) := vars.resolve name literal.kind ledger
  pure ((declaration, literal), vars, ledger)

end VariableRegistry

end Dialogue
