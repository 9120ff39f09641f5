import Dialogue.Flowchart
import Dialogue.Lowering

/-!
# Compilation of scripts

The entry node is compiled first, and the other nodes after it in the order of
the script.
-/

namespace Dialogue

namespace Lowering

variable {σ : Type} [Host σ]

omit [Host σ] in
def start (source : Node) : Lowering σ Unit := do
  modify fun session =>
    { session with started := source.name :: session.started, current := source.name }
  note (.compilingNode source.name source.statements.length)

/-- The block of a node, which is filled the first time the node is compiled. A
block that a jump or a choice has created before is filled in place. -/
def node (source : Node) : Lowering σ BlockId := do
  let target ← blockFor source.name
  unless source.name ∈ (← get).started do
    start source
    statements target source.statements
  pure target

def nodesExcept (entry : String) : List (String × Node) → Lowering σ Unit
  | [] => pure ()
  | (key, source) :: rest => do
    unless key = entry do
      discard (node source)
    nodesExcept entry rest

def script (source : Script) : Lowering σ BlockId := do
  let entry := (← get).options.entry
  let some first := source.nodes.find? entry | throw (.missingEntry entry)
  let target ← node first
  nodesExcept entry source.nodes.entries
  let session ← get
  note (.compiledScript source.name session.blocks.size session.vars.size
    session.diagnostics.size)
  pure target

end Lowering

structure Compiled where
  entry : BlockId
  flowchart : Listing
  diagnostics : List Diagnostic
  deriving DecidableEq, Repr

/-- Compiles a script into a flowchart of its own, named like the script. -/
def Script.compile (script : Script) (options : Options) : Except CompileError Compiled :=
  let chart : Flowchart := { name := script.name }
  match Lowering.script script (.fresh chart options) with
  | .ok entry session => .ok ⟨entry, session.ledger.host.listing, session.diagnostics.toList⟩
  | .error error _ => .error error

end Dialogue
