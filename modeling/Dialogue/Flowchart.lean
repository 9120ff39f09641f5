import Dialogue.Host

/-!
# Flowcharts

The host that keeps everything in memory. Identifiers are positions, counted
modulo `2 ^ 32`; what is asked of a position that does not exist is ignored.
-/

namespace Dialogue

structure Block where
  name : String
  commands : Array CommandId := #[]
  deriving DecidableEq, Repr

inductive Scope
  | everywhere
  deriving DecidableEq, Repr

structure Variable where
  key : String
  kind : Kind
  scope : Scope
  value : Literal
  deriving DecidableEq, Repr

structure Flowchart where
  name : String := ""
  blocks : Array Block := #[]
  commands : Array Command := #[]
  vars : Array Variable := #[]
  deriving DecidableEq, Repr

structure BlockListing where
  name : String
  commands : List Command
  deriving DecidableEq, Repr

/-- A flowchart written out. Targets and subjects of commands are positions in
its lists of blocks and variables. -/
structure Listing where
  name : String
  blocks : List BlockListing
  vars : List Variable
  deriving DecidableEq, Repr

namespace Flowchart

def blockAt? (chart : Flowchart) (id : BlockId) : Option Block := chart.blocks[id.index.toNat]?

def commandAt? (chart : Flowchart) (id : CommandId) : Option Command :=
  chart.commands[id.index.toNat]?

def variableAt? (chart : Flowchart) (id : VariableId) : Option Variable :=
  chart.vars[id.index.toNat]?

def blockNamed? (chart : Flowchart) (name : String) : Option BlockId :=
  (chart.blocks.findIdx? (·.name = name)).map fun i => ⟨i.toUInt32⟩

def variableNamed? (chart : Flowchart) (key : String) : Option Variable :=
  chart.vars.find? (·.key = key)

/-- The commands of a block; identifiers that do not exist are left out. -/
def inlined (chart : Flowchart) (block : Block) : List Command :=
  block.commands.toList.filterMap chart.commandAt?

def commandsOf (chart : Flowchart) (id : BlockId) : List Command :=
  ((chart.blockAt? id).map chart.inlined).getD []

def listing (chart : Flowchart) : Listing where
  name := chart.name
  blocks := chart.blocks.toList.map fun block => ⟨block.name, chart.inlined block⟩
  vars := chart.vars.toList

instance : Host Flowchart where
  createBlock chart name :=
    (⟨chart.blocks.size.toUInt32⟩, { chart with blocks := chart.blocks.push { name } })
  createCommand chart command :=
    (⟨chart.commands.size.toUInt32⟩, { chart with commands := chart.commands.push command })
  appendCommand chart block command :=
    { chart with blocks := chart.blocks.modify block.index.toNat fun block =>
        { block with commands := block.commands.push command } }
  createVariable chart name kind :=
    (⟨chart.vars.size.toUInt32⟩,
      { chart with vars := chart.vars.push ⟨name, kind, .everywhere, .zero kind⟩ })
  setValue chart id value :=
    { chart with vars := chart.vars.modify id.index.toNat fun found =>
        { found with value } }

end Flowchart

end Dialogue
