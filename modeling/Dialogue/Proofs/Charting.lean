import Dialogue.Proofs.Simulation
import Mathlib.Data.List.Basic

/-!
# What actions leave in a flowchart

The names that actions speak of have an identifier each once the actions are
performed, and keep it; so what was emitted can be read with the names of the
final session (`Session.commands_eq`). In a flowchart that a session has made
on its own, the registries list the blocks and variables in their order
(`Session.Indexed`), and the commands of a block are those that the actions
emit into it (`Session.commandsAt_perform`), as long as every command has an
identifier of its own.
-/

namespace Dialogue

section

variable {σ : Type} [Host σ]

-- ---------------------------------------------------------------------------
-- Emissions
-- ---------------------------------------------------------------------------

namespace Session

def commands (session : Session σ) : List Action → List (BlockId × Command)
  | [] => []
  | .emit target command :: rest =>
    (session.blockOf target, command.resolve (session.withBlock target)) ::
      commands (Action.perform session (.emit target command)) rest
  | action :: rest => commands (action.perform session) rest

end Session

/-- The names of a command that has been emitted stand for the same ever after. -/
theorem NamedCommand.resolve_perform (session : Session σ) (target : String)
    (command : NamedCommand) (actions : List Action) :
    command.resolve ((Action.perform session (.emit target command)).perform actions) =
      command.resolve (session.withBlock target) := by
  have hblock (name : String)
      (h : (Action.perform session (.emit target command)).blocks.find? name =
        some ((session.withBlock target).blockOf name)) :
      ((Action.perform session (.emit target command)).perform actions).blockOf name =
        (session.withBlock target).blockOf name :=
    Session.blockOf_of_find? (Session.find?_perform actions h)
  have hvar (name : String) (kind : Kind)
      (h : (Action.perform session (.emit target command)).vars.find? name =
        some ((session.withBlock target).variableOf name kind)) :
      ((Action.perform session (.emit target command)).perform actions).variableOf name kind =
        (session.withBlock target).variableOf name kind :=
    Session.variableOf_of_find? (Session.vars_find?_perform actions h) kind
  cases command with
  | menu text label =>
    simp only [resolve]
    rw [hblock label]
    exact Session.find?_withBlock_self _ label
  | call label =>
    simp only [resolve]
    rw [hblock label]
    exact Session.find?_withBlock_self _ label
  | set operator name value =>
    simp only [resolve]
    rw [hvar name value.kind]
    exact Session.find?_withVariable_self _ name value.kind
  | ifThen check =>
    simp only [resolve]
    rw [hvar check.name check.value.kind]
    exact Session.find?_withVariable_self _ check.name check.value.kind
  | elseIf check =>
    simp only [resolve]
    rw [hvar check.name check.value.kind]
    exact Session.find?_withVariable_self _ check.name check.value.kind
  | _ => rfl

theorem Session.find?_emit (session : Session σ) (target : String) (command : NamedCommand) :
    (Action.perform session (.emit target command)).blocks.find? target =
      some (session.blockOf target) := by
  have hopen : (session.withBlock target).blocks.find? target = some (session.blockOf target) :=
    find?_withBlock_self session target
  exact command.find?_declare hopen

def NamedCommand.Known (session : Session σ) : NamedCommand → Prop
  | .menu _ target | .call target => ∃ block, session.blocks.find? target = some block
  | .set _ name _ | .ifThen ⟨_, name, _⟩ | .elseIf ⟨_, name, _⟩ =>
    ∃ found, session.vars.find? name = some found
  | _ => True

theorem NamedCommand.known_perform {session : Session σ} {command : NamedCommand}
    (h : command.Known session) (actions : List Action) :
    command.Known (session.perform actions) := by
  cases command with
  | menu text target =>
    obtain ⟨block, hblock⟩ := h
    exact ⟨block, Session.find?_perform actions hblock⟩
  | call target =>
    obtain ⟨block, hblock⟩ := h
    exact ⟨block, Session.find?_perform actions hblock⟩
  | set operator name value =>
    obtain ⟨found, hfound⟩ := h
    exact ⟨found, Session.vars_find?_perform actions hfound⟩
  | ifThen check =>
    obtain ⟨found, hfound⟩ := h
    exact ⟨found, Session.vars_find?_perform actions hfound⟩
  | elseIf check =>
    obtain ⟨found, hfound⟩ := h
    exact ⟨found, Session.vars_find?_perform actions hfound⟩
  | _ => trivial

theorem NamedCommand.known_emit (session : Session σ) (target : String) (command : NamedCommand) :
    command.Known (Action.perform session (.emit target command)) := by
  have hblock (before : Session σ) (name : String) :
      ∃ block, (before.withBlock name).blocks.find? name = some block :=
    ⟨_, Session.find?_withBlock_self before name⟩
  have hvar (before : Session σ) (name : String) (kind : Kind) :
      ∃ found, (before.withVariable name kind).vars.find? name = some found :=
    ⟨_, Session.find?_withVariable_self before name kind⟩
  cases command with
  | menu text label => exact hblock (session.withBlock target) label
  | call label => exact hblock (session.withBlock target) label
  | set operator name value => exact hvar (session.withBlock target) name value.kind
  | ifThen check => exact hvar (session.withBlock target) check.name check.value.kind
  | elseIf check => exact hvar (session.withBlock target) check.name check.value.kind
  | _ => trivial

theorem Action.mem_of_emission (h : (target, command) ∈ emissions actions) :
    .emit target command ∈ actions := by
  obtain ⟨action, hmem, haction⟩ := List.mem_filterMap.mp h
  cases action with
  | emit name emitted =>
    cases haction
    exact hmem
  | _ => cases haction

theorem Session.known_of_mem {session : Session σ} {actions : List Action}
    (h : (target, command) ∈ Action.emissions actions) :
    (∃ block, (session.perform actions).blocks.find? target = some block) ∧
      command.Known (session.perform actions) := by
  induction actions generalizing session with
  | nil => simp at h
  | cons action rest ih =>
    cases action with
    | emit name emitted =>
      rw [Action.emissions_emit] at h
      rcases List.mem_cons.mp h with heq | hrest
      · cases heq
        have hfind := find?_emit session target command
        have hknown := NamedCommand.known_emit session target command
        exact ⟨⟨_, find?_perform rest hfind⟩, NamedCommand.known_perform hknown rest⟩
      · exact ih hrest
    | _ => exact ih h

theorem Session.commands_eq (session : Session σ) (actions : List Action) :
    session.commands actions = (Action.emissions actions).map fun (target, command) =>
      ((session.perform actions).blockOf target, command.resolve (session.perform actions)) := by
  induction actions generalizing session with
  | nil => rfl
  | cons action rest ih =>
    cases action with
    | emit target command =>
      have hhead : Action.emissions (.emit target command :: rest) =
          (target, command) :: Action.emissions rest := rfl
      simp only [commands, hhead, List.map_cons, ih]
      show _ = (((Action.perform session (.emit target command)).perform rest).blockOf target,
        command.resolve ((Action.perform session (.emit target command)).perform rest)) :: _
      rw [blockOf_of_find? (find?_perform rest (find?_emit session target command)),
        NamedCommand.resolve_perform]
      rfl
    | _ => exact ih _

end

-- ---------------------------------------------------------------------------
-- Commands of a flowchart
-- ---------------------------------------------------------------------------

namespace Flowchart

def blockNames (chart : Flowchart) : List String := chart.blocks.toList.map (·.name)

def declarations (chart : Flowchart) : List (String × Kind) :=
  chart.vars.toList.map fun found => (found.key, found.kind)

def commandsAt (chart : Flowchart) (position : Nat) : List Command :=
  (chart.blocks[position]?.map chart.inlined).getD []

/-- No block refers to a command that does not exist. -/
def Closed (chart : Flowchart) : Prop :=
  ∀ (position : Nat) (block : Block), chart.blocks[position]? = some block →
    ∀ id ∈ block.commands.toList, id.index.toNat < chart.commands.size

def append (chart : Flowchart) (block : BlockId) (command : Command) : Flowchart :=
  { chart with
    blocks := chart.blocks.modify block.index.toNat fun found =>
      { found with commands := found.commands.push ⟨chart.commands.size.toUInt32⟩ }
    commands := chart.commands.push command }

/-- Identifiers count modulo their width, so they never point past what they count. -/
theorem toNat_toUInt32_le (i : Nat) : i.toUInt32.toNat ≤ i := by
  simp only [Nat.toUInt32_eq, UInt32.toNat_ofNat']
  exact Nat.mod_le _ _

theorem inlined_push {chart : Flowchart} {block : Block}
    (h : ∀ id ∈ block.commands.toList, id.index.toNat < chart.commands.size) (command : Command) :
    inlined { chart with commands := chart.commands.push command } block = chart.inlined block := by
  unfold inlined commandAt?
  apply List.filterMap_congr
  intro id hid
  rw [Array.getElem?_push, if_neg (Nat.ne_of_lt (h id hid))]

/-- Where nothing is missing, the commands of a block are those that its identifiers stand
for, one for one. -/
theorem map_some_inlined {chart : Flowchart} {block : Block}
    (h : ∀ id ∈ block.commands.toList, id.index.toNat < chart.commands.size) :
    (chart.inlined block).map some = block.commands.toList.map chart.commandAt? := by
  unfold inlined
  generalize block.commands.toList = ids at h
  induction ids with
  | nil => rfl
  | cons id rest ih =>
    have hid : id.index.toNat < chart.commands.size := h id List.mem_cons_self
    have hcommand : chart.commandAt? id = some chart.commands[id.index.toNat] :=
      Array.getElem?_eq_getElem hid
    have hrest := ih fun other hother => h other (List.mem_cons_of_mem _ hother)
    rw [List.filterMap_cons_some hcommand, List.map_cons, List.map_cons, hcommand, hrest]

theorem length_inlined {chart : Flowchart} {block : Block}
    (h : ∀ id ∈ block.commands.toList, id.index.toNat < chart.commands.size) :
    (chart.inlined block).length = block.commands.size := by
  simpa using congrArg List.length (map_some_inlined h)

theorem closed_append {chart : Flowchart} (h : chart.Closed) (block : BlockId)
    (command : Command) : (chart.append block command).Closed := by
  intro position found hfound id hid
  simp only [append, Array.getElem?_modify] at hfound
  simp only [append, Array.size_push]
  split at hfound
  · obtain ⟨old, hold, rfl⟩ := Option.map_eq_some_iff.mp hfound
    simp only [Array.toList_push, List.mem_append, List.mem_singleton] at hid
    rcases hid with hid | rfl
    · exact Nat.lt_succ_of_lt (h position old hold id hid)
    · exact Nat.lt_succ_of_le (toNat_toUInt32_le _)
  · exact Nat.lt_succ_of_lt (h position found hfound id hid)

theorem commandsAt_append {chart : Flowchart} (h : chart.Closed)
    (hsize : chart.commands.size < UInt32.size) {block : BlockId}
    (hblock : block.index.toNat < chart.blocks.size) (command : Command) (position : Nat) :
    (chart.append block command).commandsAt position =
      chart.commandsAt position ++ if block.index.toNat = position then [command] else [] := by
  have hnew : chart.commands.size.toUInt32.toNat = chart.commands.size :=
    UInt32.toNat_ofNat_of_lt' hsize
  unfold commandsAt
  simp only [append, Array.getElem?_modify]
  split
  · rename_i hp
    subst hp
    have hold := Array.getElem?_eq_getElem hblock
    have hids := h _ _ hold
    rw [hold]
    have hlast : [⟨chart.commands.size.toUInt32⟩].filterMap
        (commandAt? { chart with commands := chart.commands.push command }) = [command] := by
      simp [commandAt?, hnew]
    have hbefore := inlined_push hids command
    unfold inlined at hbefore
    simp only [Option.map_some, Option.getD_some, inlined, Array.toList_push,
      List.filterMap_append]
    exact congrArg₂ (· ++ ·) hbefore hlast
  · simp only [List.append_nil]
    cases hold : chart.blocks[position]? with
    | none => rfl
    | some found =>
      simp only [Option.map_some, Option.getD_some]
      exact inlined_push (h position found hold) command

/-- Every command that has been created stands in exactly one place. -/
def Placed (chart : Flowchart) : Prop :=
  (chart.blocks.toList.flatMap (·.commands.toList)).length = chart.commands.size

theorem perm_flatMap_modify {grow : α → α} {items : α → List β} {item : β}
    (hgrow : ∀ a, items (grow a) = items a ++ [item]) {list : List α} {i : Nat}
    (hi : i < list.length) :
    ((list.modify i grow).flatMap items).Perm (list.flatMap items ++ [item]) := by
  induction list generalizing i with
  | nil => simp at hi
  | cons head rest ih =>
    cases i with
    | zero =>
      rw [List.modify_zero_cons, List.flatMap_cons, hgrow, List.flatMap_cons, List.append_assoc,
        List.append_assoc]
      exact List.perm_append_comm.append_left _
    | succ i =>
      rw [List.modify_succ_cons, List.flatMap_cons, List.flatMap_cons, List.append_assoc]
      exact (ih (Nat.lt_of_succ_lt_succ hi)).append_left _

theorem perm_ids_append (chart : Flowchart) {block : BlockId}
    (hblock : block.index.toNat < chart.blocks.size) (command : Command) :
    ((chart.append block command).blocks.toList.flatMap (·.commands.toList)).Perm
      (chart.blocks.toList.flatMap (·.commands.toList) ++ [⟨chart.commands.size.toUInt32⟩]) := by
  unfold append
  rw [Array.toList_modify]
  refine perm_flatMap_modify ?_ (by simpa using hblock)
  intro found
  exact Array.toList_push

theorem placed_append {chart : Flowchart} (h : chart.Placed) {block : BlockId}
    (hblock : block.index.toNat < chart.blocks.size) (command : Command) :
    (chart.append block command).Placed := by
  have hlength := (chart.perm_ids_append hblock command).length_eq
  rw [List.length_append, h] at hlength
  simpa [Placed, append] using hlength

theorem length_listing {chart : Flowchart} (hclosed : chart.Closed) (hplaced : chart.Placed) :
    (chart.listing.blocks.flatMap (·.commands)).length = chart.commands.size := by
  rw [← hplaced]
  unfold listing
  have hblocks : ∀ block ∈ chart.blocks.toList,
      (chart.inlined block).length = block.commands.toList.length := by
    intro block hmem
    obtain ⟨position, hposition⟩ := List.mem_iff_getElem?.mp hmem
    rw [length_inlined (hclosed position block (by simpa using hposition)), Array.length_toList]
  generalize chart.blocks.toList = blocks at hblocks
  induction blocks with
  | nil => rfl
  | cons block rest ih =>
    simp only [List.map_cons, List.flatMap_cons, List.length_append] at ih ⊢
    rw [hblocks block List.mem_cons_self,
      ih fun other hother => hblocks other (List.mem_cons_of_mem _ hother)]

theorem map_modify_of_eq {change : α → α} {view : α → β} (h : ∀ a, view (change a) = view a)
    (list : List α) (i : Nat) : (list.modify i change).map view = list.map view := by
  induction list generalizing i with
  | nil => simp
  | cons head rest ih =>
    cases i with
    | zero => simp [h]
    | succ i => simp [ih]

theorem modify_push_of_eq {change : α → α} (h : change last = last) (items : Array α) :
    (items.push last).modify items.size change = items.push last := by
  apply Array.ext_getElem?
  intro i
  rw [Array.getElem?_modify]
  split
  · rename_i hi
    subst hi
    simp [h]
  · rfl

theorem blockNames_append (chart : Flowchart) (block : BlockId) (command : Command) :
    (chart.append block command).blockNames = chart.blockNames := by
  unfold blockNames append
  rw [Array.toList_modify]
  apply map_modify_of_eq
  intro found
  rfl

end Flowchart

-- ---------------------------------------------------------------------------
-- Tables that list things in their order
-- ---------------------------------------------------------------------------

namespace Table

/-- The entries of a table are the given things in their order, each under its
name and with a value made from its position. -/
def Lists (table : Table α) (name : β → String) (value : Nat → β → α) (items : List β) : Prop :=
  table.entries = items.mapIdx fun i item => (name item, value i item)

variable {table : Table α} {name : β → String} {value : Nat → β → α} {items : List β}

theorem Lists.keys_eq (h : table.Lists name value items) : table.keys = items.map name := by
  unfold keys
  rw [h]
  apply List.ext_getElem?
  intro i
  cases hi : items[i]? <;> simp [hi]

theorem Lists.insert (h : table.Lists name value items) (item : β)
    (hnew : table.find? (name item) = none) :
    (table.insert (name item) (value items.length item)).Lists name value (items ++ [item]) := by
  unfold Lists at *
  rw [entries_insert hnew, h, List.mapIdx_concat]

theorem Lists.nodup_insert (h : table.Lists name value items) (hnodup : (items.map name).Nodup)
    (item : β) (hnew : table.find? (name item) = none) :
    ((items ++ [item]).map name).Nodup := by
  rw [find?_eq_none_iff, h.keys_eq] at hnew
  rw [List.map_append, List.nodup_append]
  refine ⟨hnodup, by simp, ?_⟩
  intro old hold new hitem heq
  rw [List.mem_singleton.mp hitem] at heq
  exact hnew (heq ▸ hold)

theorem Lists.find?_iff (h : table.Lists name value items) (hnodup : (items.map name).Nodup)
    (key : String) (found : α) :
    table.find? key = some found ↔
      ∃ (i : Nat) (item : β), items[i]? = some item ∧ name item = key ∧ found = value i item := by
  have hmem : (key, found) ∈ table.entries ↔
      ∃ (i : Nat) (item : β), items[i]? = some item ∧ name item = key ∧ found = value i item := by
    rw [h, List.mem_iff_getElem?]
    simp only [List.getElem?_mapIdx, Option.map_eq_some_iff, Prod.mk.injEq]
    constructor
    · rintro ⟨i, item, hi, hname, rfl⟩
      exact ⟨i, item, hi, hname, rfl⟩
    · rintro ⟨i, item, hi, hname, rfl⟩
      exact ⟨i, item, hi, hname, rfl⟩
  rw [← hmem]
  exact ⟨mem_of_find?, find?_of_mem (h.keys_eq ▸ hnodup)⟩

end Table

-- ---------------------------------------------------------------------------
-- Sessions that index their flowchart
-- ---------------------------------------------------------------------------

namespace Session

/-- The registries of a session list the blocks and variables of its flowchart,
and its flowchart is in order. -/
structure Indexed (session : Session Flowchart) : Prop where
  blocks : session.blocks.Lists id (fun i _ => ⟨i.toUInt32⟩) session.ledger.host.blockNames
  blockNames : session.ledger.host.blockNames.Nodup
  vars : session.vars.Lists Prod.fst (fun i found => ⟨⟨i.toUInt32⟩, found.2⟩)
    session.ledger.host.declarations
  keys : (session.ledger.host.declarations.map Prod.fst).Nodup
  closed : session.ledger.host.Closed
  placed : session.ledger.host.Placed

theorem host_withBlock {session : Session Flowchart} (h : session.blocks.find? name = none) :
    (session.withBlock name).ledger.host =
      { session.ledger.host with blocks := session.ledger.host.blocks.push { name } } := by
  simp only [withBlock, BlockRegistry.resolve, h]
  rfl

theorem host_withVariable {session : Session Flowchart} (h : session.vars.find? name = none)
    (kind : Kind) :
    (session.withVariable name kind).ledger.host =
      { session.ledger.host with
        vars := (session.ledger.host.vars.push ⟨name, kind, .everywhere, .zero kind⟩).modify
          session.ledger.host.vars.size.toUInt32.toNat
          fun found => { found with value := .zero kind } } := by
  simp only [withVariable, VariableRegistry.resolve, h]
  rfl

theorem indexed_fresh (name : String) (options : Options) :
    Indexed (.fresh { name } options) where
  blocks := rfl
  blockNames := List.nodup_nil
  vars := rfl
  keys := List.nodup_nil
  closed := by
    intro position block hblock
    simp [fresh] at hblock
  placed := rfl

namespace Indexed

variable {session : Session Flowchart}

theorem withBlock (h : session.Indexed) (name : String) : (session.withBlock name).Indexed := by
  cases hfind : session.blocks.find? name with
  | some block => rwa [withBlock_of_find? hfind]
  | none =>
    have hblocks : (session.withBlock name).blocks =
        session.blocks.insert name ⟨session.ledger.host.blocks.size.toUInt32⟩ := by
      simp only [Session.withBlock, BlockRegistry.resolve, hfind]
      rfl
    have hhost := host_withBlock hfind
    have hnames : (session.withBlock name).ledger.host.blockNames =
        session.ledger.host.blockNames ++ [name] := by
      simp [hhost, Flowchart.blockNames]
    have hlength : session.ledger.host.blocks.size = session.ledger.host.blockNames.length := by
      simp [Flowchart.blockNames]
    refine ⟨?_, ?_, ?_, ?_, ?_, ?_⟩
    · rw [hnames, hblocks, hlength]
      exact h.blocks.insert name hfind
    · rw [hnames]
      simpa using h.blocks.nodup_insert (by simpa using h.blockNames) name hfind
    · rw [hhost]
      exact h.vars
    · rw [hhost]
      exact h.keys
    · rw [hhost]
      intro position block hblock id hid
      simp only [Array.getElem?_push] at hblock
      split at hblock
      · cases hblock
        simp at hid
      · exact h.closed position block hblock id hid
    · rw [hhost]
      have hplaced := h.placed
      unfold Flowchart.Placed at hplaced ⊢
      rw [Array.toList_push, List.flatMap_append, List.length_append, hplaced]
      rfl

theorem withVariable (h : session.Indexed) (name : String) (kind : Kind) :
    (session.withVariable name kind).Indexed := by
  cases hfind : session.vars.find? name with
  | some found => rwa [withVariable_of_find? hfind]
  | none =>
    have hvars : (session.withVariable name kind).vars =
        session.vars.insert name ⟨⟨session.ledger.host.vars.size.toUInt32⟩, kind⟩ := by
      simp only [Session.withVariable, VariableRegistry.resolve, hfind]
      rfl
    have hhost := host_withVariable hfind kind
    have hdecls : (session.withVariable name kind).ledger.host.declarations =
        session.ledger.host.declarations ++ [(name, kind)] := by
      rw [hhost]
      unfold Flowchart.declarations
      rw [Array.toList_modify, Flowchart.map_modify_of_eq (by intro found; rfl)]
      simp
    have hlength : session.ledger.host.vars.size = session.ledger.host.declarations.length := by
      simp [Flowchart.declarations]
    refine ⟨?_, ?_, ?_, ?_, ?_, ?_⟩
    · rw [hhost]
      exact h.blocks
    · rw [hhost]
      exact h.blockNames
    · rw [hdecls, hvars, hlength]
      exact h.vars.insert (name, kind) hfind
    · rw [hdecls]
      exact h.vars.nodup_insert h.keys (name, kind) hfind
    · rw [hhost]
      exact h.closed
    · rw [hhost]
      exact h.placed

theorem withCommand (h : session.Indexed) {block : BlockId}
    (hblock : block.index.toNat < session.ledger.host.blocks.size) (command : Command) :
    (session.withCommand block command).Indexed := by
  have hhost : (session.withCommand block command).ledger.host =
      session.ledger.host.append block command := rfl
  refine ⟨?_, ?_, h.vars, h.keys, ?_, ?_⟩
  · rw [hhost, Flowchart.blockNames_append]
    exact h.blocks
  · rw [hhost, Flowchart.blockNames_append]
    exact h.blockNames
  · exact Flowchart.closed_append h.closed block command
  · exact Flowchart.placed_append h.placed hblock command

theorem find?_blocks_iff (h : session.Indexed) (name : String) (block : BlockId) :
    session.blocks.find? name = some block ↔
      ∃ i : Nat, session.ledger.host.blockNames[i]? = some name ∧ block = ⟨i.toUInt32⟩ := by
  rw [h.blocks.find?_iff (by simpa using h.blockNames)]
  constructor
  · rintro ⟨i, item, hi, rfl, rfl⟩
    exact ⟨i, hi, rfl⟩
  · rintro ⟨i, hi, rfl⟩
    exact ⟨i, name, hi, rfl, rfl⟩

theorem index_lt (h : session.Indexed) (hfind : session.blocks.find? name = some block) :
    block.index.toNat < session.ledger.host.blocks.size := by
  obtain ⟨i, hi, rfl⟩ := (h.find?_blocks_iff name block).mp hfind
  have hlt : i < session.ledger.host.blocks.size := by
    have := (List.getElem?_eq_some_iff.mp hi).1
    simpa [Flowchart.blockNames] using this
  exact Nat.lt_of_le_of_lt (Flowchart.toNat_toUInt32_le i) hlt

theorem declare (h : session.Indexed) (command : NamedCommand) :
    (command.declare session).Indexed := by
  obtain hsame | ⟨name, hblock⟩ | ⟨name, kind, hvar⟩ := command.declare_cases session
  · rwa [hsame]
  · rw [hblock]
    exact h.withBlock name
  · rw [hvar]
    exact h.withVariable name kind

theorem target_lt (h : session.Indexed) (target : String) (command : NamedCommand) :
    (session.blockOf target).index.toNat <
      (command.declare (session.withBlock target)).ledger.host.blocks.size :=
  ((h.withBlock target).declare command).index_lt
    (command.find?_declare (find?_withBlock_self session target))

theorem action (h : session.Indexed) (action : Action) : (action.perform session).Indexed := by
  cases action with
  | mention name => exact h.withBlock name
  | emit target command =>
    exact ((h.withBlock target).declare command).withCommand (h.target_lt target command) _
  | _ => exact ⟨h.blocks, h.blockNames, h.vars, h.keys, h.closed, h.placed⟩

theorem perform (h : session.Indexed) (actions : List Action) :
    (session.perform actions).Indexed := by
  induction actions generalizing session with
  | nil => exact h
  | cons action rest ih => exact ih (h.action action)

end Indexed

-- ---------------------------------------------------------------------------
-- The commands of a block
-- ---------------------------------------------------------------------------

def SameCommands (before after : Session Flowchart) : Prop :=
  after.ledger.host.commands = before.ledger.host.commands ∧
    ∀ position, after.ledger.host.commandsAt position = before.ledger.host.commandsAt position

theorem sameCommands_withBlock (session : Session Flowchart) (name : String) :
    SameCommands session (session.withBlock name) := by
  unfold SameCommands
  cases hfind : session.blocks.find? name with
  | some block => simp [withBlock_of_find? hfind]
  | none =>
    rw [host_withBlock hfind]
    refine ⟨rfl, ?_⟩
    intro position
    unfold Flowchart.commandsAt
    simp only [Array.getElem?_push]
    split
    · rename_i hp
      subst hp
      simp [Flowchart.inlined]
    · rfl

theorem sameCommands_withVariable (session : Session Flowchart) (name : String) (kind : Kind) :
    SameCommands session (session.withVariable name kind) := by
  unfold SameCommands
  cases hfind : session.vars.find? name with
  | some found => simp [withVariable_of_find? hfind]
  | none =>
    rw [host_withVariable hfind]
    exact ⟨rfl, fun _ => rfl⟩

theorem sameCommands_declare (session : Session Flowchart) (target : String)
    (command : NamedCommand) :
    SameCommands session (command.declare (session.withBlock target)) := by
  have hopen := sameCommands_withBlock session target
  have trans {after : Session Flowchart} (h : SameCommands (session.withBlock target) after) :
      SameCommands session after :=
    ⟨h.1.trans hopen.1, fun position => (h.2 position).trans (hopen.2 position)⟩
  obtain hsame | ⟨name, hblock⟩ | ⟨name, kind, hvar⟩ :=
    command.declare_cases (session.withBlock target)
  · rwa [hsame]
  · rw [hblock]
    exact trans (sameCommands_withBlock _ name)
  · rw [hvar]
    exact trans (sameCommands_withVariable _ name kind)

theorem host_emit (session : Session Flowchart) (target : String) (command : NamedCommand) :
    (Action.perform session (.emit target command)).ledger.host =
      (command.declare (session.withBlock target)).ledger.host.append (session.blockOf target)
        (command.resolve (session.withBlock target)) := rfl

theorem commands_emit (session : Session Flowchart) (target : String) (command : NamedCommand) :
    (Action.perform session (.emit target command)).ledger.host.commands =
      session.ledger.host.commands.push (command.resolve (session.withBlock target)) := by
  rw [host_emit, Flowchart.append, (sameCommands_declare session target command).1]

theorem commands_perform (session : Session Flowchart) (actions : List Action) :
    (session.perform actions).ledger.host.commands.toList =
      session.ledger.host.commands.toList ++ (session.commands actions).map Prod.snd := by
  induction actions generalizing session with
  | nil => exact (List.append_nil _).symm
  | cons action rest ih =>
    rw [perform_cons, ih]
    cases action with
    | mention name =>
      rw [Action.perform, (sameCommands_withBlock session name).1]
      rfl
    | emit target command =>
      rw [commands_emit, Array.toList_push, List.append_assoc]
      rfl
    | _ => rfl

theorem size_commands_perform (session : Session Flowchart) (actions : List Action) :
    (session.perform actions).ledger.host.commands.size =
      session.ledger.host.commands.size + (session.commands actions).length := by
  simpa using congrArg List.length (session.commands_perform actions)

theorem exists_emission {options : Options}
    (h : command ∈
      ((fresh ({ name } : Flowchart) options).perform actions).ledger.host.commands.toList) :
    ∃ target emitted, .emit target emitted ∈ actions ∧
      emitted.Known ((fresh ({ name } : Flowchart) options).perform actions) ∧
      command = emitted.resolve ((fresh ({ name } : Flowchart) options).perform actions) := by
  rw [commands_perform, commands_eq, List.map_map] at h
  have hmap := (List.mem_append.mp h).resolve_left List.not_mem_nil
  obtain ⟨⟨target, emitted⟩, hemission, rfl⟩ := List.mem_map.mp hmap
  exact ⟨target, emitted, Action.mem_of_emission hemission, (known_of_mem hemission).2, rfl⟩

/-- The commands of a block after some actions: those before, and then those
that the actions emit into it. -/
theorem Indexed.commandsAt_perform {session : Session Flowchart} (h : session.Indexed)
    {actions : List Action}
    (hsize : session.ledger.host.commands.size + (session.commands actions).length ≤ UInt32.size)
    (position : Nat) :
    (session.perform actions).ledger.host.commandsAt position =
      session.ledger.host.commandsAt position ++
        ((session.commands actions).filter (·.1.index.toNat = position)).map Prod.snd := by
  induction actions generalizing session with
  | nil => simp [Session.perform, commands]
  | cons action rest ih =>
    rw [perform_cons]
    cases action with
    | mention name =>
      have hsame := sameCommands_withBlock session name
      have hroom : (Action.perform session (.mention name)).ledger.host.commands.size +
          ((Action.perform session (.mention name)).commands rest).length ≤ UInt32.size := by
        rw [Action.perform, hsame.1]
        exact hsize
      rw [ih (h.action (.mention name)) hroom, Action.perform, hsame.2]
      rfl
    | emit target command =>
      have hsame := sameCommands_declare session target command
      simp only [commands, List.length_cons] at hsize
      have hroom : (command.declare (session.withBlock target)).ledger.host.commands.size <
          UInt32.size := by
        rw [hsame.1]
        omega
      have happend := Flowchart.commandsAt_append ((h.withBlock target).declare command).closed
        hroom (h.target_lt target command) (command.resolve (session.withBlock target)) position
      rw [ih (h.action (.emit target command)) ?_]
      · rw [host_emit, happend, hsame.2, commands, List.filter_cons, List.append_assoc]
        by_cases hp : (session.blockOf target).index.toNat = position <;> simp [hp]
      · rw [commands_emit, Array.size_push]
        omega
    | _ => exact ih (h.action _) hsize

end Session

end Dialogue
