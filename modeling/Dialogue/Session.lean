import Dialogue.Registry
import Dialogue.Script.Basic

/-!
# Sessions

A session compiles nodes into one host. It remembers the blocks and variables it
has made, so that a name stands for the same block or variable throughout, and
the nodes it has started on, so that none is compiled twice.

`Lowering` is what acts on a session. When it fails, the session stands as it
was at the failure: what has been asked of the host cannot be taken back.
-/

namespace Dialogue

structure Options where
  /-- The node where the script starts. -/
  entry : String := "Start"
  mismatch : MismatchPolicy := .reject
  deriving DecidableEq, Repr

structure Session (σ : Type) where
  ledger : Ledger σ
  options : Options := {}
  blocks : BlockRegistry := {}
  vars : VariableRegistry := {}
  /-- The nodes that have been started on. -/
  started : List String := []
  diagnostics : Array Diagnostic := #[]
  /-- The node that was started on last. -/
  current : String := ""

def Session.fresh {σ : Type} (host : σ) (options : Options) : Session σ :=
  { ledger := { host }, options }

abbrev Lowering (σ : Type) := EStateM CompileError (Session σ)

namespace Lowering

variable {σ α : Type}

def note (event : LogEvent) : Lowering σ Unit :=
  modify fun session => { session with ledger := session.ledger.note event }

def ofExcept : Except CompileError α → Lowering σ α
  | .ok a => pure a
  | .error error => throw error

/-- Runs what lowers one statement. If that fails for a reason that is not
fatal, the statement is reported and the session goes on. -/
def recovering (lowering : Lowering σ Unit) : Lowering σ Unit := fun session =>
  match lowering session with
  | .ok _ session => .ok () session
  | .error error session =>
    if error.isFatal then .error error session
    else
      let diagnostic : Diagnostic := ⟨session.current, error.message⟩
      .ok () { session with
        ledger := session.ledger.note (.skippingStatement diagnostic.node diagnostic.message)
        diagnostics := session.diagnostics.push diagnostic }

variable [Host σ]

def emit (block : BlockId) (command : Command) : Lowering σ Unit :=
  modify fun session => { session with ledger := session.ledger.emit block command }

def blockFor (name : String) : Lowering σ BlockId := do
  let session ← get
  let (id, blocks, ledger) := session.blocks.resolve name session.ledger
  set { session with blocks, ledger }
  pure id

def variableFor (name : String) (kind : Kind) : Lowering σ Declaration := do
  let session ← get
  let (found, vars, ledger) := session.vars.resolve name kind session.ledger
  set { session with vars, ledger }
  pure found

def bindVariable (name : String) (literal : Literal) : Lowering σ (Declaration × Literal) := do
  let session ← get
  let (found, vars, ledger) ←
    ofExcept (session.vars.bind name session.options.mismatch literal session.ledger)
  set { session with vars, ledger }
  pure found

end Lowering

end Dialogue
