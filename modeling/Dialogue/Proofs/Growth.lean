import Dialogue.Proofs.Typing
import Mathlib.Data.List.Infix

/-!
# Sessions only add

Whatever a session compiles, and wherever it fails, it takes nothing back: blocks
keep their place and their name, commands are put at the ends of blocks, variables
stay as they are, a name that stands for something goes on standing for it, and
what has been reported stays reported (`Session.grows_visits`). This holds of any
flowchart that the session works on, whoever has made what is in it.
-/

namespace Dialogue

-- ---------------------------------------------------------------------------
-- Flowcharts
-- ---------------------------------------------------------------------------

namespace Flowchart

def idsAt (chart : Flowchart) (position : Nat) : List CommandId :=
  (chart.blocks[position]?.map (·.commands.toList)).getD []

/-- All that one flowchart holds stands at the same place in the other. -/
structure Grows (before after : Flowchart) : Prop where
  names : before.blockNames <+: after.blockNames
  contents : ∀ position, before.idsAt position <+: after.idsAt position
  commands : before.commands.toList <+: after.commands.toList
  vars : before.vars.toList <+: after.vars.toList

theorem Grows.refl (chart : Flowchart) : chart.Grows chart where
  names := List.prefix_rfl
  contents _ := List.prefix_rfl
  commands := List.prefix_rfl
  vars := List.prefix_rfl

theorem Grows.trans {first second third : Flowchart} (hfirst : first.Grows second)
    (hsecond : second.Grows third) : first.Grows third where
  names := hfirst.names.trans hsecond.names
  contents position := (hfirst.contents position).trans (hsecond.contents position)
  commands := hfirst.commands.trans hsecond.commands
  vars := hfirst.vars.trans hsecond.vars

theorem Grows.size_vars_le {before after : Flowchart} (h : before.Grows after) :
    before.vars.size ≤ after.vars.size := by
  simpa using h.vars.length_le

theorem map_some_commandsOf {chart : Flowchart} {id : BlockId}
    (h : ∀ found ∈ chart.idsAt id.index.toNat, found.index.toNat < chart.commands.size) :
    (chart.commandsOf id).map some = (chart.idsAt id.index.toNat).map chart.commandAt? := by
  unfold commandsOf idsAt blockAt? at *
  cases hblock : chart.blocks[id.index.toNat]? with
  | none => rfl
  | some block =>
    rw [hblock] at h
    exact map_some_inlined h

theorem idsAt_push (chart : Flowchart) (name : String) (position : Nat) :
    idsAt { chart with blocks := chart.blocks.push { name } } position = chart.idsAt position := by
  unfold idsAt
  simp only [Array.getElem?_push]
  split
  · rename_i hposition
    simp [hposition]
  · rfl

theorem idsAt_append (chart : Flowchart) (block : BlockId) (command : Command) (position : Nat) :
    (chart.append block command).idsAt position =
      chart.idsAt position ++
        if block.index.toNat = position ∧ position < chart.blocks.size then
          [⟨chart.commands.size.toUInt32⟩]
        else [] := by
  unfold idsAt append
  rw [Array.getElem?_modify]
  by_cases hblock : block.index.toNat = position
  · by_cases hposition : position < chart.blocks.size
    · simp [hblock, hposition]
    · simp [hblock, hposition]
  · simp [hblock]

theorem grows_append (chart : Flowchart) (block : BlockId) (command : Command) :
    chart.Grows (chart.append block command) where
  names := by rw [blockNames_append]
  contents position := by
    rw [idsAt_append]
    exact List.prefix_append _ _
  commands := by simp [append]
  vars := List.prefix_rfl

end Flowchart

-- ---------------------------------------------------------------------------
-- Steps of a session
-- ---------------------------------------------------------------------------

namespace Session

variable {session : Session Flowchart}

theorem idsAt_withBlock (session : Session Flowchart) (name : String) (position : Nat) :
    (session.withBlock name).ledger.host.idsAt position = session.ledger.host.idsAt position := by
  cases hfind : session.blocks.find? name with
  | some block => rw [withBlock_of_find? hfind]
  | none => rw [host_withBlock hfind, Flowchart.idsAt_push]

theorem blocks_withVariable (session : Session Flowchart) (name : String) (kind : Kind) :
    (session.withVariable name kind).ledger.host.blocks = session.ledger.host.blocks := by
  cases hfind : session.vars.find? name with
  | some found => rw [withVariable_of_find? hfind]
  | none => rw [host_withVariable hfind]

theorem idsAt_withVariable (session : Session Flowchart) (name : String) (kind : Kind)
    (position : Nat) :
    (session.withVariable name kind).ledger.host.idsAt position =
      session.ledger.host.idsAt position := by
  rw [Flowchart.idsAt, Flowchart.idsAt, blocks_withVariable]

theorem grows_withBlock (session : Session Flowchart) (name : String) :
    session.ledger.host.Grows (session.withBlock name).ledger.host where
  names := by
    cases hfind : session.blocks.find? name with
    | some block => rw [withBlock_of_find? hfind]
    | none => simp [host_withBlock hfind, Flowchart.blockNames]
  contents position := by rw [idsAt_withBlock]
  commands := by rw [(sameCommands_withBlock session name).1]
  vars := by rw [vars_withBlock]

/-- A new variable is set to its zero, and no other one is set, as long as every variable
has an identifier of its own. -/
theorem grows_withVariable {name : String} {kind : Kind}
    (hsize : (session.withVariable name kind).ledger.host.vars.size ≤ UInt32.size) :
    session.ledger.host.Grows (session.withVariable name kind).ledger.host := by
  obtain ⟨declarations, hvars⟩ := addsVariables_withVariable name kind hsize
  refine ⟨?_, ?_, ?_, ⟨_, hvars.symm⟩⟩
  · rw [Flowchart.blockNames, Flowchart.blockNames, blocks_withVariable]
  · intro position
    rw [idsAt_withVariable]
  · rw [(sameCommands_withVariable session name kind).1]

theorem grows_declare (command : NamedCommand)
    (hsize : (command.declare session).ledger.host.vars.size ≤ UInt32.size) :
    session.ledger.host.Grows (command.declare session).ledger.host := by
  obtain hsame | ⟨name, hblock⟩ | ⟨name, kind, hvar⟩ := command.declare_cases session
  · rw [hsame]
    exact .refl _
  · rw [hblock]
    exact session.grows_withBlock name
  · rw [hvar] at hsize ⊢
    exact grows_withVariable hsize

theorem grows_action (action : Action)
    (hsize : (action.perform session).ledger.host.vars.size ≤ UInt32.size) :
    session.ledger.host.Grows (action.perform session).ledger.host := by
  cases action with
  | mention name => exact session.grows_withBlock name
  | emit target command =>
    have hopen := session.grows_withBlock target
    have hdeclared := hopen.trans (grows_declare command hsize)
    exact hdeclared.trans (Flowchart.grows_append _ _ _)
  | _ => exact .refl _

theorem grows_perform (actions : List Action)
    (hsize : (session.perform actions).ledger.host.vars.size ≤ UInt32.size) :
    session.ledger.host.Grows (session.perform actions).ledger.host := by
  induction actions generalizing session with
  | nil => exact .refl _
  | cons action rest ih =>
    have hrest := ih hsize
    exact (grows_action action (Nat.le_trans hrest.size_vars_le hsize)).trans hrest

-- ---------------------------------------------------------------------------
-- Sessions
-- ---------------------------------------------------------------------------

/-- A session has all that another one has, with more behind it. -/
structure Grows (before after : Session Flowchart) : Prop where
  chart : before.ledger.host.Grows after.ledger.host
  blocks : ∀ name id, before.blocks.find? name = some id → after.blocks.find? name = some id
  vars : ∀ name found, before.vars.find? name = some found → after.vars.find? name = some found
  diagnostics : before.diagnostics.toList <+: after.diagnostics.toList

/-- Nodes that are compiled in any session, whether they compile or fail, only add to it. -/
theorem grows_visits (session : Session Flowchart) (sources : List Node)
    (hsize : (session.visits sources).ledger.host.vars.size ≤ UInt32.size) :
    session.Grows (session.visits sources) := by
  rw [visits_eq] at hsize ⊢
  refine ⟨grows_perform _ hsize, ?_, ?_, ?_⟩
  · intro name id hfind
    exact find?_perform _ hfind
  · intro name found hfind
    exact vars_find?_perform _ hfind
  · rw [diagnostics_perform]
    exact List.prefix_append _ _

def tavern : Flowchart where
  blocks := #[⟨"Inn", #[⟨0⟩, ⟨1⟩]⟩]
  commands := #[.say "Welcome."]
  vars := #[⟨"gold", .number, .everywhere, .number .one⟩]

def opening : List Node := [
  ⟨"Start", [.choices [.mk "Inn" [.assign "EqualToOrAssign" "gold" (.bool true)]],
    .assign "EqualToOrAssign" "gold" (.string "none")]⟩]

def closing : Node :=
  ⟨"Inn", [.branch [.mk (some ⟨"EqualTo", "guest", .bool true⟩) [.jump "Road", .directive "wait"]]]⟩

theorem grows_visits_closing :
    let before := (fresh tavern {}).visits opening
    before.ledger.host =
        { blocks := #[⟨"Inn", #[⟨0⟩, ⟨1⟩]⟩, ⟨"Start", #[⟨1⟩]⟩, ⟨"Inn", #[⟨2⟩]⟩]
          commands := #[.say "Welcome.", .menu "Inn" ⟨2⟩, .set .assign ⟨1⟩ (.bool true)]
          vars := #[⟨"gold", .number, .everywhere, .number .one⟩,
            ⟨"gold", .bool, .everywhere, .bool false⟩] } ∧
      (before.visits [closing]).ledger.host =
        { blocks := #[⟨"Inn", #[⟨0⟩, ⟨1⟩]⟩, ⟨"Start", #[⟨1⟩]⟩, ⟨"Inn", #[⟨2⟩, ⟨3⟩, ⟨4⟩]⟩,
            ⟨"Road", #[]⟩]
          commands := #[.say "Welcome.", .menu "Inn" ⟨2⟩, .set .assign ⟨1⟩ (.bool true),
            .ifThen ⟨.equals, ⟨2⟩, .bool true⟩, .call ⟨3⟩]
          vars := #[⟨"gold", .number, .everywhere, .number .one⟩,
            ⟨"gold", .bool, .everywhere, .bool false⟩,
            ⟨"guest", .bool, .everywhere, .bool false⟩] } ∧
      before.Grows (before.visits [closing]) := by
  intro before
  refine ⟨by decide +kernel, by decide +kernel, grows_visits before [closing] ?_⟩
  decide +kernel

end Session

end Dialogue
