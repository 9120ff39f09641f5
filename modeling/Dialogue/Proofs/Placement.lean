import Dialogue.Proofs.Growth
import Dialogue.Proofs.Protocol

/-!
# Every command stands in one place

A flowchart does not complain about a command that no block lists, or about an
identifier that nothing is known under; a listing just leaves them out. In a
flowchart that a session has filled node by node there are none: every command
stands in one block and once, each block lists its commands in the order of their
creation, and so the listing shows them all (`Session.accounted_visits`).
-/

namespace Dialogue

-- ---------------------------------------------------------------------------
-- Flowcharts
-- ---------------------------------------------------------------------------

def Block.positions (block : Block) : List Nat := block.commands.toList.map (·.index.toNat)

namespace Flowchart

/-- Every command is listed once, and each block lists older commands first. -/
structure Partitioned (chart : Flowchart) : Prop where
  perm : (chart.blocks.toList.flatMap Block.positions).Perm (List.range chart.commands.size)
  increasing : ∀ block ∈ chart.blocks.toList, block.positions.Pairwise (· < ·)

theorem flatMap_positions (blocks : List Block) :
    blocks.flatMap Block.positions =
      (blocks.flatMap (·.commands.toList)).map (·.index.toNat) := by
  rw [List.map_flatMap]
  rfl

namespace Partitioned

variable {chart : Flowchart}

theorem position_lt (h : chart.Partitioned) (hblock : block ∈ chart.blocks.toList)
    (hposition : position ∈ block.positions) : position < chart.commands.size := by
  have hmem := List.mem_flatMap.mpr ⟨block, hblock, hposition⟩
  exact List.mem_range.mp (h.perm.mem_iff.mp hmem)

theorem push (h : chart.Partitioned) (name : String) :
    Partitioned { chart with blocks := chart.blocks.push { name } } where
  perm := by
    have hempty : [({ name } : Block)].flatMap Block.positions = [] := rfl
    rw [Array.toList_push, List.flatMap_append, hempty, List.append_nil]
    exact h.perm
  increasing := by
    intro block hblock
    rw [Array.toList_push] at hblock
    rcases List.mem_append.mp hblock with hold | hnew
    · exact h.increasing block hold
    · rw [List.mem_singleton.mp hnew]
      exact .nil

theorem append (h : chart.Partitioned) (hsize : chart.commands.size < UInt32.size)
    {block : BlockId} (hblock : block.index.toNat < chart.blocks.size) (command : Command) :
    (chart.append block command).Partitioned := by
  have hnew : chart.commands.size.toUInt32.toNat = chart.commands.size :=
    UInt32.toNat_ofNat_of_lt' hsize
  constructor
  · have hperm := (chart.perm_ids_append hblock command).map (·.index.toNat)
    rw [← flatMap_positions, List.map_append, ← flatMap_positions, List.map_singleton, hnew] at hperm
    have hcount : (chart.append block command).commands.size = chart.commands.size + 1 :=
      Array.size_push command
    rw [hcount, List.range_succ]
    exact hperm.trans (h.perm.append_right _)
  · intro found hfound
    obtain ⟨position, hposition⟩ := List.mem_iff_getElem?.mp hfound
    simp only [Flowchart.append, Array.getElem?_toList, Array.getElem?_modify] at hposition
    split at hposition
    · obtain ⟨old, hold, rfl⟩ := Option.map_eq_some_iff.mp hposition
      have hmem : old ∈ chart.blocks.toList := Array.mem_toList_iff.mpr (Array.mem_of_getElem? hold)
      simp only [Block.positions, Array.toList_push, List.map_append, List.map_singleton, hnew]
      refine List.pairwise_append.mpr ⟨h.increasing old hmem, List.pairwise_singleton _ _, ?_⟩
      intro earlier hearlier later hlater
      rw [List.mem_singleton.mp hlater]
      exact h.position_lt hmem hearlier
    · exact h.increasing found (Array.mem_toList_iff.mpr (Array.mem_of_getElem? hposition))

end Partitioned

theorem Closed.map_some_commandsOf {chart : Flowchart} (h : chart.Closed) (id : BlockId) :
    (chart.commandsOf id).map some = (chart.idsAt id.index.toNat).map chart.commandAt? := by
  refine Flowchart.map_some_commandsOf ?_
  unfold idsAt
  cases hblock : chart.blocks[id.index.toNat]? with
  | none => simp
  | some block => exact h _ _ hblock

end Flowchart

-- ---------------------------------------------------------------------------
-- Sessions
-- ---------------------------------------------------------------------------

def HostCall.created? : HostCall → Option (Command × CommandId)
  | .createCommand command id => some (command, id)
  | _ => none

namespace Session

variable {session : Session Flowchart}

/-- The commands of the flowchart are those that the session has created, numbered in the
order of their creation, and every one of them is in its place. -/
structure Tidy (session : Session Flowchart) : Prop
    extends Flowchart.Partitioned session.ledger.host where
  created : session.calls.filterMap HostCall.created? =
    session.ledger.host.commands.toList.mapIdx fun i command => (command, ⟨i.toUInt32⟩)

namespace Tidy

theorem withBlock (h : session.Tidy) (name : String) : (session.withBlock name).Tidy := by
  cases hfind : session.blocks.find? name with
  | some block => rwa [withBlock_of_find? hfind]
  | none =>
    obtain ⟨-, -, hcalls⟩ := withBlock_of_new hfind
    refine ⟨?_, ?_⟩
    · rw [host_withBlock hfind]
      exact h.toPartitioned.push name
    · rw [hcalls, host_withBlock hfind, List.filterMap_append]
      exact (List.append_nil _).trans h.created

theorem withVariable (h : session.Tidy) (name : String) (kind : Kind) :
    (session.withVariable name kind).Tidy := by
  cases hfind : session.vars.find? name with
  | some found => rwa [withVariable_of_find? hfind]
  | none =>
    obtain ⟨-, -, hcalls⟩ := withVariable_of_new hfind kind
    refine ⟨?_, ?_⟩
    · rw [host_withVariable hfind]
      exact ⟨h.perm, h.increasing⟩
    · rw [hcalls, host_withVariable hfind, List.filterMap_append]
      exact (List.append_nil _).trans h.created

theorem withCommand (h : session.Tidy) (hsize : session.ledger.host.commands.size < UInt32.size)
    {block : BlockId} (hblock : block.index.toNat < session.ledger.host.blocks.size)
    (command : Command) : (session.withCommand block command).Tidy where
  toPartitioned := h.toPartitioned.append hsize hblock command
  created := by
    have hcommands : (session.withCommand block command).ledger.host.commands.toList =
        session.ledger.host.commands.toList ++ [command] := Array.toList_push
    rw [calls_withCommand, hcommands, List.filterMap_append, h.created, List.mapIdx_concat,
      Array.length_toList]
    rfl

theorem declare (h : session.Tidy) (command : NamedCommand) : (command.declare session).Tidy := by
  obtain hsame | ⟨name, hblock⟩ | ⟨name, kind, hvar⟩ := command.declare_cases session
  · rwa [hsame]
  · rw [hblock]
    exact h.withBlock name
  · rw [hvar]
    exact h.withVariable name kind

theorem action (h : session.Tidy) (hindexed : session.Indexed) (action : Action)
    (hsize : (action.perform session).ledger.host.commands.size ≤ UInt32.size) :
    (action.perform session).Tidy := by
  cases action with
  | mention name => exact h.withBlock name
  | emit target command =>
    have hroom : (command.declare (session.withBlock target)).ledger.host.commands.size <
        UInt32.size := by
      rw [(sameCommands_declare session target command).1]
      rwa [commands_emit, Array.size_push] at hsize
    exact ((h.withBlock target).declare command).withCommand hroom
      (hindexed.target_lt target command) _
  | _ => exact ⟨⟨h.perm, h.increasing⟩, h.created⟩

theorem perform (h : session.Tidy) (hindexed : session.Indexed) (actions : List Action)
    (hsize : (session.perform actions).ledger.host.commands.size ≤ UInt32.size) :
    (session.perform actions).Tidy := by
  induction actions generalizing session with
  | nil => exact h
  | cons action rest ih =>
    have hnext : (action.perform session).ledger.host.commands.size ≤ UInt32.size := by
      rw [perform_cons, size_commands_perform] at hsize
      omega
    exact ih (h.action hindexed action hnext) (hindexed.action action) hsize

end Tidy

theorem tidy_fresh (name : String) (options : Options) : Tidy (.fresh { name } options) where
  perm := .refl _
  increasing := by
    intro block hblock
    cases hblock
  created := rfl

/-- What a session has created, what its flowchart holds and what the listing shows are the
same commands. -/
structure Accounted (session : Session Flowchart) : Prop extends Tidy session where
  /-- A block is listed with the commands that its identifiers stand for, one for one. -/
  listed : ∀ (position : Nat) (block : Block),
    session.ledger.host.blocks[position]? = some block →
      ∃ shown, session.ledger.host.listing.blocks[position]? = some shown ∧
        shown.name = block.name ∧
        shown.commands.map some = block.commands.toList.map session.ledger.host.commandAt?
  commandsOf : ∀ id, (session.ledger.host.commandsOf id).map some =
    (session.ledger.host.idsAt id.index.toNat).map session.ledger.host.commandAt?
  total : session.ledger.host.listing.commands.length = session.ledger.host.commands.size

/-- No command is lost, shared or listed twice, whatever nodes are compiled and wherever
they fail. -/
theorem accounted_visits (name : String) (options : Options) (sources : List Node)
    (hsize : ((fresh ({ name } : Flowchart) options).visits
      sources).ledger.host.commands.size ≤ UInt32.size) :
    Accounted ((fresh ({ name } : Flowchart) options).visits sources) := by
  rw [visits_fresh] at hsize ⊢
  have hfresh := indexed_fresh name options
  have hindexed := hfresh.perform (Plan.visits options.mismatch .none [] sources)
  refine ⟨(tidy_fresh name options).perform hfresh _ hsize, ?_, ?_, ?_⟩
  · intro position block hblock
    refine ⟨⟨block.name, _⟩, ?_, rfl, Flowchart.map_some_inlined (hindexed.closed _ _ hblock)⟩
    rw [Flowchart.listing, List.getElem?_map, Array.getElem?_toList, hblock]
    rfl
  · exact hindexed.closed.map_some_commandsOf
  · exact Flowchart.length_listing hindexed.closed hindexed.placed

/-- The menus lead from one block to the other and back, and the first node fails; the
second goes on in the block that its menu has made. -/
def crossing : List Node := [
  ⟨"Start", [
    .choices [.mk "Inn" [.line "One.", .choices [.mk "Start" [.line "Two."]], .line "Three."]],
    .line "Four.",
    .directive "wait"]⟩,
  ⟨"Inn", [.line "Five."]⟩]

theorem accounted_visits_crossing :
    ((fresh ({} : Flowchart) {}).visits crossing).ledger.host.blocks =
        #[⟨"Start", #[⟨0⟩, ⟨3⟩, ⟨5⟩]⟩, ⟨"Inn", #[⟨1⟩, ⟨2⟩, ⟨4⟩, ⟨6⟩]⟩] ∧
      ((fresh ({} : Flowchart) {}).visits crossing).ledger.host.listing.blocks =
        [⟨"Start", [.menu "Inn" ⟨1⟩, .say "Two.", .say "Four."]⟩,
          ⟨"Inn", [.say "One.", .menu "Start" ⟨0⟩, .say "Three.", .say "Five."]⟩] ∧
      Accounted ((fresh ({} : Flowchart) {}).visits crossing) := by
  refine ⟨by decide +kernel, by decide +kernel, accounted_visits "" {} crossing ?_⟩
  decide +kernel

end Session

end Dialogue
