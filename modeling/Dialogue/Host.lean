import Dialogue.Command

/-!
# Hosts

A compilation owns none of the blocks, commands and variables it makes. It asks
a host for them, and a `Ledger` keeps what it asked and what it noted, in order.
-/

namespace Dialogue

class Host (σ : Type) where
  createBlock : σ → String → BlockId × σ
  createCommand : σ → Command → CommandId × σ
  appendCommand : σ → BlockId → CommandId → σ
  createVariable : σ → String → Kind → VariableId × σ
  setValue : σ → VariableId → Literal → σ

/-- A call to a host, with the identifier that was returned. -/
inductive HostCall
  | createBlock (name : String) (id : BlockId)
  | createCommand (command : Command) (id : CommandId)
  | appendCommand (block : BlockId) (command : CommandId)
  | createVariable (name : String) (kind : Kind) (id : VariableId)
  | setValue (id : VariableId) (value : Literal)
  deriving DecidableEq, Repr

inductive LogEvent
  | createdBlock (name : String)
  | createdVariable (name : String) (kind : Kind)
  | compilingNode (name : String) (statements : Nat)
  | ignoringDirective (raw : String)
  | skippingStatement (node : String) (error : String)
  | compiledScript (name : String) (blocks vars diagnostics : Nat)
  deriving DecidableEq, Repr

inductive LogLevel
  | debug
  | warning
  deriving DecidableEq, Repr

namespace LogEvent

def level : LogEvent → LogLevel
  | .skippingStatement _ _ => .warning
  | _ => .debug

def message : LogEvent → String
  | .createdBlock _ => "created block"
  | .createdVariable _ _ => "created variable"
  | .compilingNode _ _ => "compiling node"
  | .ignoringDirective _ => "ignoring directive"
  | .skippingStatement _ _ => "skipping statement"
  | .compiledScript _ _ _ _ => "compiled document"

end LogEvent

structure Ledger (σ : Type) where
  host : σ
  calls : Array HostCall := #[]
  log : Array LogEvent := #[]

namespace Ledger

variable {σ : Type} [Host σ]

def createBlock (ledger : Ledger σ) (name : String) : BlockId × Ledger σ :=
  let (id, host) := Host.createBlock ledger.host name
  (id, { ledger with host, calls := ledger.calls.push (.createBlock name id) })

def createCommand (ledger : Ledger σ) (command : Command) : CommandId × Ledger σ :=
  let (id, host) := Host.createCommand ledger.host command
  (id, { ledger with host, calls := ledger.calls.push (.createCommand command id) })

def appendCommand (ledger : Ledger σ) (block : BlockId) (command : CommandId) : Ledger σ :=
  { ledger with
    host := Host.appendCommand ledger.host block command
    calls := ledger.calls.push (.appendCommand block command) }

def createVariable (ledger : Ledger σ) (name : String) (kind : Kind) : VariableId × Ledger σ :=
  let (id, host) := Host.createVariable ledger.host name kind
  (id, { ledger with host, calls := ledger.calls.push (.createVariable name kind id) })

def setValue (ledger : Ledger σ) (id : VariableId) (value : Literal) : Ledger σ :=
  { ledger with
    host := Host.setValue ledger.host id value
    calls := ledger.calls.push (.setValue id value) }

omit [Host σ] in
def note (ledger : Ledger σ) (event : LogEvent) : Ledger σ :=
  { ledger with log := ledger.log.push event }

def emit (ledger : Ledger σ) (block : BlockId) (command : Command) : Ledger σ :=
  let (id, ledger) := ledger.createCommand command
  ledger.appendCommand block id

end Ledger

end Dialogue
