import Dialogue.Proofs.Creation
import Dialogue.Proofs.Visits

/-!
# Compiling into a flowchart that is in use

A session knows the blocks and variables that it has made and no others. When it
compiles into a flowchart that holds something already, it looks none of that up
and changes none of it, though names may coincide: what it does is what it would
do in a flowchart of its own, with all identifiers moved behind those that are in
use (`Lowering.script_relocated`).

The flowchart of a session of its own is placed behind another by
`Flowchart.followedBy`, and `Session.relocate` moves the rest of the session with
it. Every call to the host commutes with that, hence every action does, and so does
every run.
-/

namespace Dialogue

-- ---------------------------------------------------------------------------
-- Moved identifiers
-- ---------------------------------------------------------------------------

/-- The index of something when so many others stand before it, modulo `2 ^ 32` as all
indices are. -/
def shifted (before : Nat) (index : UInt32) : UInt32 := (before + index.toNat).toUInt32

theorem shifted_toUInt32 (before i : Nat) :
    shifted before i.toUInt32 = (before + i).toUInt32 := by
  apply UInt32.toNat.inj
  simp [shifted]

theorem toNat_shifted {before : Nat} {index : UInt32} (h : before + index.toNat < UInt32.size) :
    (shifted before index).toNat = before + index.toNat :=
  UInt32.toNat_ofNat_of_lt' h

def BlockId.relocate (base : Flowchart) (id : BlockId) : BlockId :=
  ⟨shifted base.blocks.size id.index⟩

def CommandId.relocate (base : Flowchart) (id : CommandId) : CommandId :=
  ⟨shifted base.commands.size id.index⟩

def VariableId.relocate (base : Flowchart) (id : VariableId) : VariableId :=
  ⟨shifted base.vars.size id.index⟩

def Declaration.relocate (base : Flowchart) (found : Declaration) : Declaration :=
  { found with id := found.id.relocate base }

def Condition.relocate (base : Flowchart) (condition : Condition) : Condition :=
  { condition with subject := condition.subject.relocate base }

def Command.relocate (base : Flowchart) : Command → Command
  | .menu text target => .menu text (target.relocate base)
  | .call target => .call (target.relocate base)
  | .set operator subject value => .set operator (subject.relocate base) value
  | .ifThen condition => .ifThen (condition.relocate base)
  | .elseIf condition => .elseIf (condition.relocate base)
  | command => command

def Block.relocate (base : Flowchart) (block : Block) : Block :=
  { block with commands := block.commands.map (·.relocate base) }

def HostCall.relocate (base : Flowchart) : HostCall → HostCall
  | .createBlock name id => .createBlock name (id.relocate base)
  | .createCommand command id => .createCommand (command.relocate base) (id.relocate base)
  | .appendCommand block command => .appendCommand (block.relocate base) (command.relocate base)
  | .createVariable name kind id => .createVariable name kind (id.relocate base)
  | .setValue id value => .setValue (id.relocate base) value

-- ---------------------------------------------------------------------------
-- Flowcharts one behind the other
-- ---------------------------------------------------------------------------

namespace Flowchart

theorem modify_append (before items : Array α) (i : Nat) (change : α → α) :
    (before ++ items).modify (before.size + i) change = before ++ items.modify i change := by
  apply Array.ext_getElem?
  intro j
  by_cases hj : j < before.size
  · have hne : before.size + i ≠ j := by omega
    simp [Array.getElem?_modify, Array.getElem?_append, hj, hne]
  · have hiff : before.size + i = j ↔ i = j - before.size := by omega
    simp [Array.getElem?_modify, Array.getElem?_append, hj, hiff]

theorem map_modify {view : α → β} {change : α → α} {changed : β → β}
    (h : ∀ a, view (change a) = changed (view a)) (items : Array α) (i : Nat) :
    (items.modify i change).map view = (items.map view).modify i changed := by
  apply Array.ext_getElem?
  intro j
  simp only [Array.getElem?_map, Array.getElem?_modify]
  split
  · cases items[j]? with
    | none => rfl
    | some a => exact congrArg some (h a)
  · rfl

def followedBy (base chart : Flowchart) : Flowchart where
  name := base.name
  blocks := base.blocks ++ chart.blocks.map (·.relocate base)
  commands := base.commands ++ chart.commands.map (·.relocate base)
  vars := base.vars ++ chart.vars

/-- There are identifiers enough for the blocks and variables of both. -/
structure RoomFor (base chart : Flowchart) : Prop where
  blocks : base.blocks.size + chart.blocks.size ≤ UInt32.size
  vars : base.vars.size + chart.vars.size ≤ UInt32.size

variable (base chart : Flowchart)

theorem createBlock_followedBy (name : String) :
    Host.createBlock (base.followedBy chart) name =
      ((Host.createBlock chart name).1.relocate base,
        base.followedBy (Host.createBlock chart name).2) := by
  simp [Host.createBlock, followedBy, BlockId.relocate, Block.relocate, shifted_toUInt32]

theorem createCommand_followedBy (command : Command) :
    Host.createCommand (base.followedBy chart) (command.relocate base) =
      ((Host.createCommand chart command).1.relocate base,
        base.followedBy (Host.createCommand chart command).2) := by
  simp [Host.createCommand, followedBy, CommandId.relocate, shifted_toUInt32]

theorem appendCommand_followedBy {block : BlockId}
    (hroom : base.blocks.size + block.index.toNat < UInt32.size) (command : CommandId) :
    Host.appendCommand (base.followedBy chart) (block.relocate base) (command.relocate base) =
      base.followedBy (Host.appendCommand chart block command) := by
  have hblocks : (chart.blocks.modify block.index.toNat fun found =>
        { found with commands := found.commands.push command }).map (·.relocate base) =
      (chart.blocks.map (·.relocate base)).modify block.index.toNat fun found =>
        { found with commands := found.commands.push (command.relocate base) } := by
    refine map_modify ?_ _ _
    intro found
    simp [Block.relocate]
  simp only [Host.appendCommand, followedBy, BlockId.relocate, toNat_shifted hroom, modify_append,
    hblocks]

theorem createVariable_followedBy (name : String) (kind : Kind) :
    Host.createVariable (base.followedBy chart) name kind =
      ((Host.createVariable chart name kind).1.relocate base,
        base.followedBy (Host.createVariable chart name kind).2) := by
  simp [Host.createVariable, followedBy, VariableId.relocate, shifted_toUInt32]

theorem setValue_followedBy {id : VariableId}
    (hroom : base.vars.size + id.index.toNat < UInt32.size) (value : Literal) :
    Host.setValue (base.followedBy chart) (id.relocate base) value =
      base.followedBy (Host.setValue chart id value) := by
  simp only [Host.setValue, followedBy, VariableId.relocate, toNat_shifted hroom, modify_append]

end Flowchart

-- ---------------------------------------------------------------------------
-- Ledgers and registries
-- ---------------------------------------------------------------------------

def Ledger.relocate (base : Flowchart) (ledger : Ledger Flowchart) : Ledger Flowchart where
  host := base.followedBy ledger.host
  calls := ledger.calls.map (·.relocate base)
  log := ledger.log

namespace Ledger

variable (base : Flowchart) (ledger : Ledger Flowchart)

theorem createBlock_relocate (name : String) :
    (ledger.relocate base).createBlock name =
      ((ledger.createBlock name).1.relocate base, (ledger.createBlock name).2.relocate base) := by
  simp [createBlock, relocate, Flowchart.createBlock_followedBy, HostCall.relocate]

theorem createVariable_relocate (name : String) (kind : Kind) :
    (ledger.relocate base).createVariable name kind =
      ((ledger.createVariable name kind).1.relocate base,
        (ledger.createVariable name kind).2.relocate base) := by
  simp [createVariable, relocate, Flowchart.createVariable_followedBy, HostCall.relocate]

theorem setValue_relocate {id : VariableId}
    (hroom : base.vars.size + id.index.toNat < UInt32.size) (value : Literal) :
    (ledger.relocate base).setValue (id.relocate base) value =
      (ledger.setValue id value).relocate base := by
  simp [setValue, relocate, Flowchart.setValue_followedBy base _ hroom, HostCall.relocate]

theorem emit_relocate {block : BlockId}
    (hroom : base.blocks.size + block.index.toNat < UInt32.size) (command : Command) :
    (ledger.relocate base).emit (block.relocate base) (command.relocate base) =
      (ledger.emit block command).relocate base := by
  simp [emit, createCommand, appendCommand, relocate, Flowchart.createCommand_followedBy,
    Flowchart.appendCommand_followedBy base _ hroom, HostCall.relocate]

end Ledger

theorem BlockRegistry.resolve_relocate (base : Flowchart) (blocks : BlockRegistry) (name : String)
    (ledger : Ledger Flowchart) :
    BlockRegistry.resolve (blocks.map (·.relocate base)) name (ledger.relocate base) =
      ((blocks.resolve name ledger).1.relocate base,
        (blocks.resolve name ledger).2.1.map (·.relocate base),
        (blocks.resolve name ledger).2.2.relocate base) := by
  unfold resolve
  rw [Table.find?_map]
  cases hfind : blocks.find? name with
  | some block => rfl
  | none =>
    simp only [Option.map_none, Ledger.createBlock_relocate, Table.map_insert _ hfind]
    rfl

/-- A variable is made and set to its zero behind those that are there, as long as it has
an identifier of its own. -/
theorem VariableRegistry.resolve_relocate {base : Flowchart} {vars : VariableRegistry}
    {name : String} {kind : Kind} {ledger : Ledger Flowchart}
    (hroom : base.vars.size + (vars.resolve name kind ledger).2.2.host.vars.size ≤ UInt32.size) :
    VariableRegistry.resolve (vars.map (·.relocate base)) name kind (ledger.relocate base) =
      ((vars.resolve name kind ledger).1.relocate base,
        (vars.resolve name kind ledger).2.1.map (·.relocate base),
        (vars.resolve name kind ledger).2.2.relocate base) := by
  unfold resolve at hroom ⊢
  rw [Table.find?_map]
  cases hfind : vars.find? name with
  | some found => rfl
  | none =>
    -- If the index wrapped around, the zero would go to a variable of `base`.
    have hmade :
        base.vars.size + (ledger.createVariable name kind).1.index.toNat < UInt32.size := by
      have hindex : (ledger.createVariable name kind).1.index.toNat ≤ ledger.host.vars.size :=
        Flowchart.toNat_toUInt32_le _
      simp only [hfind, Ledger.note, Ledger.setValue, Host.setValue, Array.size_modify,
        Ledger.createVariable, Host.createVariable, Array.size_push] at hroom
      omega
    simp only [Option.map_none, Ledger.createVariable_relocate,
      Ledger.setValue_relocate base _ hmade, Table.map_insert _ hfind]
    rfl

-- ---------------------------------------------------------------------------
-- Sessions
-- ---------------------------------------------------------------------------

def Session.relocate (base : Flowchart) (session : Session Flowchart) : Session Flowchart :=
  { session with
    ledger := session.ledger.relocate base
    blocks := session.blocks.map (·.relocate base)
    vars := session.vars.map (·.relocate base) }

namespace Session

variable {base : Flowchart} {session : Session Flowchart}

theorem relocate_fresh (base : Flowchart) (name : String) (options : Options) :
    (fresh { name } options).relocate base = fresh base options := by
  simp [relocate, Ledger.relocate, Flowchart.followedBy, fresh, Table.map]

theorem kinds_relocate (base : Flowchart) (session : Session Flowchart) :
    (session.relocate base).kinds = session.kinds := by
  funext name
  show ((session.vars.map _).find? name).map _ = (session.vars.find? name).map _
  rw [Table.find?_map, Option.map_map]
  rfl

theorem blockOf_relocate (base : Flowchart) (session : Session Flowchart) (name : String) :
    (session.relocate base).blockOf name = (session.blockOf name).relocate base :=
  congrArg Prod.fst (BlockRegistry.resolve_relocate base session.blocks name session.ledger)

theorem withBlock_relocate (base : Flowchart) (session : Session Flowchart) (name : String) :
    (session.relocate base).withBlock name = (session.withBlock name).relocate base := by
  simp only [withBlock, relocate, BlockRegistry.resolve_relocate]

theorem variableOf_relocate
    (hroom : base.vars.size + (session.withVariable name kind).ledger.host.vars.size ≤
      UInt32.size) :
    (session.relocate base).variableOf name kind =
      (session.variableOf name kind).relocate base :=
  congrArg Prod.fst (VariableRegistry.resolve_relocate hroom)

theorem withVariable_relocate
    (hroom : base.vars.size + (session.withVariable name kind).ledger.host.vars.size ≤
      UInt32.size) :
    (session.relocate base).withVariable name kind =
      (session.withVariable name kind).relocate base := by
  have hresolve := VariableRegistry.resolve_relocate hroom
  simp only [withVariable, relocate, hresolve]

theorem withCommand_relocate {block : BlockId}
    (hroom : base.blocks.size + block.index.toNat < UInt32.size) (command : Command) :
    (session.relocate base).withCommand (block.relocate base) (command.relocate base) =
      (session.withCommand block command).relocate base := by
  simp only [withCommand, relocate, Ledger.emit_relocate base _ hroom]

end Session

namespace NamedCommand

variable {base : Flowchart} {session : Session Flowchart}

theorem declare_relocate (command : NamedCommand)
    (hroom : base.vars.size + (command.declare session).ledger.host.vars.size ≤ UInt32.size) :
    command.declare (session.relocate base) = (command.declare session).relocate base := by
  cases command with
  | menu text target => exact session.withBlock_relocate base target
  | call target => exact session.withBlock_relocate base target
  | set operator name value => exact Session.withVariable_relocate hroom
  | ifThen check => exact Session.withVariable_relocate hroom
  | elseIf check => exact Session.withVariable_relocate hroom
  | _ => rfl

theorem resolve_relocate (command : NamedCommand)
    (hroom : base.vars.size + (command.declare session).ledger.host.vars.size ≤ UInt32.size) :
    command.resolve (session.relocate base) = (command.resolve session).relocate base := by
  cases command with
  | menu text target => exact congrArg (Command.menu text) (session.blockOf_relocate base target)
  | call target => exact congrArg Command.call (session.blockOf_relocate base target)
  | set operator name value =>
    rw [resolve, Session.variableOf_relocate hroom]
    rfl
  | ifThen check =>
    rw [resolve, Session.variableOf_relocate hroom]
    rfl
  | elseIf check =>
    rw [resolve, Session.variableOf_relocate hroom]
    rfl
  | _ => rfl

end NamedCommand

-- ---------------------------------------------------------------------------
-- Runs
-- ---------------------------------------------------------------------------

theorem Action.perform_relocate {base : Flowchart} {session : Session Flowchart}
    (h : session.Indexed) (action : Action)
    (hroom : base.RoomFor (action.perform session).ledger.host) :
    action.perform (session.relocate base) = (action.perform session).relocate base := by
  cases action with
  | mention name => exact session.withBlock_relocate base name
  | emit target command =>
    -- The session has made the block itself, so there is room for its index.
    have hindex := h.target_lt target command
    have hblock : base.blocks.size + (session.blockOf target).index.toNat < UInt32.size := by
      have hblocks := hroom.blocks
      rw [Session.host_emit, Flowchart.append, Array.size_modify] at hblocks
      omega
    simp only [perform, Session.withBlock_relocate, Session.blockOf_relocate]
    rw [command.declare_relocate hroom.vars, command.resolve_relocate hroom.vars,
      Session.withCommand_relocate hblock]
  | finish script =>
    simp [perform, Session.withNote, Session.relocate, Ledger.relocate, Ledger.note]
  | _ => rfl

namespace Session

variable {base : Flowchart} {session : Session Flowchart}

/-- A session only adds to its flowchart, so there is room before if there is room after. -/
theorem roomFor_of_perform (h : session.Indexed) {actions : List Action}
    (hroom : base.RoomFor (session.perform actions).ledger.host) :
    base.RoomFor session.ledger.host := by
  have hnames : session.ledger.host.blockNames <+:
      (session.perform actions).ledger.host.blockNames := by
    rw [← h.keys_eq, ← (h.perform actions).keys_eq, keys_perform]
    exact prefix_enrollAll
  have hdeclared : session.ledger.host.declarations <+:
      (session.perform actions).ledger.host.declarations := by
    rw [← h.declared_eq, ← (h.perform actions).declared_eq, declared_perform]
    exact prefix_enrollAll
  have hblocks := hnames.length_le
  have hvars := hdeclared.length_le
  simp only [Flowchart.blockNames, Flowchart.declarations, List.length_map,
    Array.length_toList] at hblocks hvars
  constructor
  · exact Nat.le_trans (Nat.add_le_add_left hblocks _) hroom.blocks
  · exact Nat.le_trans (Nat.add_le_add_left hvars _) hroom.vars

theorem perform_relocate (h : session.Indexed) (actions : List Action)
    (hroom : base.RoomFor (session.perform actions).ledger.host) :
    (session.relocate base).perform actions = (session.perform actions).relocate base := by
  induction actions generalizing session with
  | nil => rfl
  | cons action rest ih =>
    have hnext := h.action action
    rw [perform_cons, action.perform_relocate h (roomFor_of_perform hnext hroom)]
    exact ih hnext hroom

end Session

-- ---------------------------------------------------------------------------
-- Scripts
-- ---------------------------------------------------------------------------

namespace Lowering

def relocated (base : Flowchart) :
    EStateM.Result CompileError (Session Flowchart) BlockId →
      EStateM.Result CompileError (Session Flowchart) BlockId
  | .ok block session => .ok (block.relocate base) (session.relocate base)
  | .error error session => .error error (session.relocate base)

variable {base : Flowchart} {session : Session Flowchart}

theorem run_relocate (h : session.Indexed) {plan : Plan}
    (hroom : base.RoomFor (session.perform plan.actions).ledger.host) (block : BlockId) :
    (do plan.run; pure (block.relocate base) : Lowering Flowchart BlockId)
        (session.relocate base) =
      relocated base ((do plan.run; pure block : Lowering Flowchart BlockId) session) := by
  have hperform := Session.perform_relocate h plan.actions hroom
  cases hfailure : plan.failure with
  | none =>
    rw [bind_ok (Plan.run_of_failure_eq_none hfailure _),
      bind_ok (Plan.run_of_failure_eq_none hfailure _), hperform]
    rfl
  | some error =>
    rw [bind_error (Plan.run_of_failure_eq_some hfailure _),
      bind_error (Plan.run_of_failure_eq_some hfailure _), hperform]
    rfl

theorem script_relocate (h : session.Indexed) (source : Script)
    (hroom : base.RoomFor (session.after (script source)).ledger.host) :
    script source (session.relocate base) = relocated base (script source session) := by
  cases hfirst : source.nodes.find? session.options.entry with
  | none =>
    rw [script_eq_error session source hfirst,
      script_eq_error (session.relocate base) source hfirst]
    rfl
  | some first =>
    rw [Session.after_script] at hroom
    rw [script_eq_run session source hfirst, script_eq_run (session.relocate base) source hfirst,
      Session.kinds_relocate, Session.blockOf_relocate]
    exact run_relocate h hroom _

/-- A script that is compiled into a flowchart in use fails or succeeds as in a flowchart
of its own. What the flowchart held stays as it was and is followed by what the script
makes in a flowchart of its own, with the identifiers moved. -/
theorem script_relocated (base : Flowchart) (name : String) (options : Options) (source : Script)
    (hroom : base.RoomFor
      ((Session.fresh { name } options).after (script source)).ledger.host) :
    script source (.fresh base options) =
      relocated base (script source (.fresh { name } options)) := by
  rw [← Session.relocate_fresh base name options]
  exact script_relocate (Session.indexed_fresh name options) source hroom

def quay : Flowchart where
  name := "quay"
  blocks := #[⟨"Start", #[⟨0⟩]⟩, ⟨"Pier", #[]⟩]
  commands := #[.set .assign ⟨0⟩ (.string "some")]
  vars := #[⟨"gold", .string, .everywhere, .string "none"⟩]

def landing : Script := .ofNodes "landing" [
  ⟨"Start", [.assign "EqualToOrAssign" "gold" (.number .one), .jump "Inn",
    .assign "EqualToOrAssign" "gold" (.bool true)]⟩,
  ⟨"Inn", [.choices [.mk "Start" [.line "Back."]],
    .branch [.mk (some ⟨"LessThan", "gold", .number .one⟩) []]]⟩]

theorem script_relocated_quay :
    quay.RoomFor ((Session.fresh { name := "landing" } {}).after (script landing)).ledger.host ∧
      script landing (.fresh quay {}) =
        relocated quay (script landing (.fresh { name := "landing" } {})) ∧
      ((Session.fresh quay {}).after (script landing)).ledger.host =
        { name := "quay"
          blocks := #[⟨"Start", #[⟨0⟩]⟩, ⟨"Pier", #[]⟩, ⟨"Start", #[⟨1⟩, ⟨2⟩, ⟨4⟩]⟩,
            ⟨"Inn", #[⟨3⟩, ⟨5⟩, ⟨6⟩]⟩]
          commands := #[.set .assign ⟨0⟩ (.string "some"), .set .assign ⟨1⟩ (.number .one),
            .call ⟨3⟩, .menu "Start" ⟨2⟩, .say "Back.",
            .ifThen ⟨.lessThan, ⟨1⟩, .number .one⟩, .endIf]
          vars := #[⟨"gold", .string, .everywhere, .string "none"⟩,
            ⟨"gold", .number, .everywhere, .number .zero⟩] } := by
  have hroom : quay.RoomFor
      ((Session.fresh { name := "landing" } {}).after (script landing)).ledger.host :=
    ⟨by decide +kernel, by decide +kernel⟩
  exact ⟨hroom, script_relocated quay "landing" {} landing hroom, by decide +kernel⟩

end Lowering

end Dialogue
