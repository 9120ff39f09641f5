import Dialogue.Proofs.Creation
import Dialogue.Proofs.Growth
import Dialogue.Proofs.Naming

/-!
# Sessions on a flowchart that is not theirs alone

A session goes by its registries and never looks at what else its flowchart holds.
So it finds all that it has emitted in the blocks that it goes by, whoever else adds
to the flowchart (`Session.Housed`), it leaves alone what it has not made
(`Session.Spares`), and two sessions that agree on all but their flowcharts go on to
agree when they do the same (`Session.Mirrors`).
-/

namespace Dialogue

-- ---------------------------------------------------------------------------
-- Flowcharts
-- ---------------------------------------------------------------------------

def Action.addressed (name : String) (emitted : List (String × NamedCommand)) :
    List NamedCommand :=
  (emitted.filter (·.1 = name)).map Prod.snd

namespace Flowchart

structure FitsIn (small large : Flowchart) : Prop where
  blocks : small.blocks.size ≤ large.blocks.size
  commands : small.commands.size ≤ large.commands.size
  vars : small.vars.size ≤ large.vars.size

def read? (chart : Flowchart) (id : CommandId) : Option NamedCommand :=
  (chart.commandAt? id).bind chart.listing.named?

variable {before after small large : Flowchart}

theorem FitsIn.trans {huge : Flowchart} (h : small.FitsIn large) (hlarge : large.FitsIn huge) :
    small.FitsIn huge where
  blocks := Nat.le_trans h.blocks hlarge.blocks
  commands := Nat.le_trans h.commands hlarge.commands
  vars := Nat.le_trans h.vars hlarge.vars

theorem FitsIn.addressable (h : small.FitsIn large) (hlarge : large.Addressable) :
    small.Addressable where
  blocks := Nat.le_trans h.blocks hlarge.blocks
  commands := Nat.le_trans h.commands hlarge.commands
  vars := Nat.le_trans h.vars hlarge.vars

theorem getElem?_of_prefix {first rest : List α} (h : first <+: rest) {i : Nat}
    (hi : first[i]? = some a) : rest[i]? = some a := by
  obtain ⟨hlt, rfl⟩ := List.getElem?_eq_some_iff.mp hi
  exact List.prefix_iff_getElem?.mp h i hlt

namespace Grows

theorem fitsIn (h : before.Grows after) : before.FitsIn after where
  blocks := by simpa [blockNames] using h.names.length_le
  commands := by simpa using h.commands.length_le
  vars := h.size_vars_le

theorem blockName? (h : before.Grows after) {block : BlockId} {label : String}
    (hname : before.listing.blockName? block = some label) :
    after.listing.blockName? block = some label := by
  rw [Listing.blockName?, ← List.getElem?_map, map_listing_blocks] at hname ⊢
  exact getElem?_of_prefix h.names hname

theorem variableAt? (h : before.Grows after) {subject : VariableId}
    (hfound : before.variableAt? subject = some found) :
    after.variableAt? subject = some found := by
  rw [Flowchart.variableAt?, ← Array.getElem?_toList] at hfound ⊢
  exact getElem?_of_prefix h.vars hfound

theorem variableName? (h : before.Grows after) {subject : VariableId} {key : String}
    (hname : before.listing.variableName? subject = some key) :
    after.listing.variableName? subject = some key := by
  obtain ⟨found, hfound, rfl⟩ := Option.map_eq_some_iff.mp hname
  exact Option.map_eq_some_iff.mpr ⟨found, getElem?_of_prefix h.vars hfound, rfl⟩

theorem named? (h : before.Grows after) (hnamed : before.listing.named? command = some named) :
    after.listing.named? command = some named := by
  have hcheck {condition : Condition} {check : Check}
      (hfound : before.listing.namedCheck? condition = some check) :
      after.listing.namedCheck? condition = some check := by
    obtain ⟨name, hname, rfl⟩ := Option.map_eq_some_iff.mp hfound
    exact Option.map_eq_some_iff.mpr ⟨name, h.variableName? hname, rfl⟩
  cases command with
  | menu text target =>
    obtain ⟨name, hname, rfl⟩ := Option.map_eq_some_iff.mp hnamed
    exact Option.map_eq_some_iff.mpr ⟨name, h.blockName? hname, rfl⟩
  | call target =>
    obtain ⟨name, hname, rfl⟩ := Option.map_eq_some_iff.mp hnamed
    exact Option.map_eq_some_iff.mpr ⟨name, h.blockName? hname, rfl⟩
  | set operator subject value =>
    obtain ⟨name, hname, rfl⟩ := Option.map_eq_some_iff.mp hnamed
    exact Option.map_eq_some_iff.mpr ⟨name, h.variableName? hname, rfl⟩
  | ifThen condition =>
    obtain ⟨check, hfound, rfl⟩ := Option.map_eq_some_iff.mp hnamed
    exact Option.map_eq_some_iff.mpr ⟨check, hcheck hfound, rfl⟩
  | elseIf condition =>
    obtain ⟨check, hfound, rfl⟩ := Option.map_eq_some_iff.mp hnamed
    exact Option.map_eq_some_iff.mpr ⟨check, hcheck hfound, rfl⟩
  | _ => exact hnamed

theorem read? (h : before.Grows after) {command : CommandId}
    (hread : before.read? command = some named) : after.read? command = some named := by
  obtain ⟨found, hfound, hnamed⟩ := Option.bind_eq_some_iff.mp hread
  rw [commandAt?, ← Array.getElem?_toList] at hfound
  refine Option.bind_eq_some_iff.mpr ⟨found, ?_, h.named? hnamed⟩
  rw [commandAt?, ← Array.getElem?_toList]
  exact getElem?_of_prefix h.commands hfound

theorem map_read? (h : before.Grows after) {ids : List CommandId} {commands : List NamedCommand}
    (hread : ids.map before.read? = commands.map some) :
    ids.map after.read? = commands.map some := by
  rw [← hread]
  apply List.map_congr_left
  intro id hid
  have hmem : before.read? id ∈ commands.map some := hread ▸ List.mem_map_of_mem hid
  obtain ⟨named, _, hnamed⟩ := List.mem_map.mp hmem
  rw [← hnamed, h.read? hnamed.symm]

end Grows

theorem index_lt_of_blockName? {chart : Flowchart} {id : BlockId} {label : String}
    (h : chart.listing.blockName? id = some label) : id.index.toNat < chart.blocks.size := by
  obtain ⟨block, hblock, _⟩ := Option.map_eq_some_iff.mp h
  simpa [listing] using (List.getElem?_eq_some_iff.mp hblock).1

theorem lt_of_commandAt? {chart : Flowchart} {id : CommandId}
    (h : chart.commandAt? id = some command) : id.index.toNat < chart.commands.size :=
  (Array.getElem?_eq_some_iff.mp h).1

theorem map_named?_commandsOf {chart : Flowchart} {id : BlockId} {commands : List NamedCommand}
    (h : (chart.idsAt id.index.toNat).map chart.read? = commands.map some) :
    (chart.commandsOf id).map chart.listing.named? = commands.map some := by
  have hthere : ∀ found ∈ chart.idsAt id.index.toNat, found.index.toNat < chart.commands.size := by
    intro found hfound
    have hmem : chart.read? found ∈ commands.map some := h ▸ List.mem_map_of_mem hfound
    obtain ⟨named, _, hnamed⟩ := List.mem_map.mp hmem
    obtain ⟨command, hcommand, _⟩ := Option.bind_eq_some_iff.mp hnamed.symm
    exact lt_of_commandAt? hcommand
  have hshown := congrArg (List.map (·.bind chart.listing.named?)) (map_some_commandsOf hthere)
  rw [List.map_map, List.map_map] at hshown
  exact hshown.trans h

end Flowchart

-- ---------------------------------------------------------------------------
-- What a session has emitted
-- ---------------------------------------------------------------------------

namespace Session

variable {session : Session Flowchart} {emitted : List (String × NamedCommand)}

theorem index_blockOf_of_new (hfind : session.blocks.find? name = none)
    (hsize : (session.withBlock name).ledger.host.blocks.size ≤ UInt32.size) :
    (session.blockOf name).index.toNat = session.ledger.host.blocks.size := by
  rw [host_withBlock hfind, Array.size_push] at hsize
  have hblock : session.blockOf name = ⟨session.ledger.host.blocks.size.toUInt32⟩ := by
    simp only [blockOf, BlockRegistry.resolve, hfind]
    rfl
  rw [hblock]
  exact UInt32.toNat_ofNat_of_lt' hsize

theorem variableAt?_of_new (hfind : session.vars.find? name = none) (kind : Kind)
    (hsize : (session.withVariable name kind).ledger.host.vars.size ≤ UInt32.size) :
    (session.withVariable name kind).ledger.host.variableAt? (session.variableOf name kind).id =
      some (.declared (name, (session.variableOf name kind).kind)) := by
  have hvars := vars_withVariable_of_new hfind kind hsize
  have hvar : session.variableOf name kind =
      ⟨⟨session.ledger.host.vars.size.toUInt32⟩, kind⟩ := by
    simp only [variableOf, VariableRegistry.resolve, hfind]
    rfl
  rw [host_withVariable hfind, Array.size_modify, Array.size_push] at hsize
  have hlast : session.ledger.host.vars.size.toUInt32.toNat = session.ledger.host.vars.size :=
    UInt32.toNat_ofNat_of_lt' hsize
  rw [hvar, Flowchart.variableAt?, ← Array.getElem?_toList, hvars, hlast]
  simp

theorem addressable_of_emit
    (hsize : (Action.perform session (.emit target command)).ledger.host.Addressable) :
    (session.withBlock target).ledger.host.Addressable ∧
      (command.declare (session.withBlock target)).ledger.host.Addressable := by
  have hdeclared : (command.declare (session.withBlock target)).ledger.host.Addressable :=
    (Flowchart.grows_append _ _ _).fitsIn.addressable hsize
  exact ⟨(grows_declare command hdeclared.vars).fitsIn.addressable hdeclared, hdeclared⟩

theorem addressable_of_perform {action : Action} {rest : List Action}
    (hsize : (session.perform (action :: rest)).ledger.host.Addressable) :
    (action.perform session).ledger.host.Addressable :=
  (grows_perform rest hsize.vars).fitsIn.addressable hsize

theorem Located.of_grows {after : Session Flowchart} (h : session.Located)
    (hblocks : after.blocks = session.blocks) (hvars : after.vars = session.vars)
    (hgrows : session.ledger.host.Grows after.ledger.host) : after.Located where
  blocks name id hfind := hgrows.blockName? (h.blocks name id (hblocks ▸ hfind))
  vars name found hfind := hgrows.variableName? (h.vars name found (hvars ▸ hfind))

/-- A session finds what it has emitted, by name and in its order, in the blocks that it
goes by. -/
structure Housed (emitted : List (String × NamedCommand)) (session : Session Flowchart) : Prop
    extends Located session where
  contents : ∀ name id, session.blocks.find? name = some id →
    (session.ledger.host.idsAt id.index.toNat).map session.ledger.host.read? =
      (Action.addressed name emitted).map some
  known : ∀ emission ∈ emitted, ∃ id, session.blocks.find? emission.1 = some id

namespace Housed

/-- Others may add to the flowchart, as long as they leave the blocks as they are. -/
theorem of_grows {after : Session Flowchart} (h : session.Housed emitted)
    (hblocks : after.blocks = session.blocks) (hvars : after.vars = session.vars)
    (hgrows : session.ledger.host.Grows after.ledger.host)
    (hids : ∀ position, after.ledger.host.idsAt position =
      session.ledger.host.idsAt position) : after.Housed emitted where
  toLocated := h.toLocated.of_grows hblocks hvars hgrows
  contents := by
    intro name id hfind
    rw [hblocks] at hfind
    rw [hids]
    exact hgrows.map_read? (h.contents name id hfind)
  known := by
    intro emission hemission
    rw [hblocks]
    exact h.known emission hemission

theorem addressed_eq_nil (h : session.Housed emitted) (hfind : session.blocks.find? name = none) :
    Action.addressed name emitted = [] := by
  rw [Action.addressed, List.map_eq_nil_iff, List.filter_eq_nil_iff]
  intro emission hemission htarget
  obtain ⟨id, hid⟩ := h.known emission hemission
  rw [of_decide_eq_true htarget, hfind] at hid
  cases hid

theorem withBlock (h : session.Housed emitted) (name : String)
    (hsize : (session.withBlock name).ledger.host.Addressable) :
    (session.withBlock name).Housed emitted := by
  have hgrows := session.grows_withBlock name
  cases hfind : session.blocks.find? name with
  | some block => rwa [withBlock_of_find? hfind]
  | none =>
    have hplace := index_blockOf_of_new hfind hsize.blocks
    refine ⟨⟨?_, ?_⟩, ?_, ?_⟩
    · intro other id hother
      rw [find?_withBlock] at hother
      split at hother
      · rename_i hname
        subst hname
        cases hother
        simp [Listing.blockName?, Flowchart.listing, host_withBlock hfind, hplace]
      · exact hgrows.blockName? (h.blocks other id hother)
    · intro other found hother
      exact hgrows.variableName? (h.vars other found hother)
    · intro other id hother
      rw [find?_withBlock] at hother
      rw [idsAt_withBlock]
      split at hother
      -- The new block is empty.
      · rename_i hname
        subst hname
        cases hother
        rw [hplace, h.addressed_eq_nil hfind]
        simp [Flowchart.idsAt]
      · exact hgrows.map_read? (h.contents other id hother)
    · intro emission hemission
      obtain ⟨id, hid⟩ := h.known emission hemission
      exact ⟨id, find?_withBlock_of_find? hid name⟩

theorem withVariable (h : session.Housed emitted) (name : String) (kind : Kind)
    (hsize : (session.withVariable name kind).ledger.host.Addressable) :
    (session.withVariable name kind).Housed emitted := by
  have hgrows := grows_withVariable hsize.vars
  cases hfind : session.vars.find? name with
  | some found => rwa [withVariable_of_find? hfind]
  | none =>
    refine ⟨⟨?_, ?_⟩, ?_, h.known⟩
    · intro other id hother
      exact hgrows.blockName? (h.blocks other id hother)
    · intro other found hother
      rw [find?_withVariable] at hother
      split at hother
      · rename_i hname
        subst hname
        cases hother
        have hthere := variableAt?_of_new hfind kind hsize.vars
        rw [Flowchart.variableAt?, ← Array.getElem?_toList] at hthere
        exact Option.map_eq_some_iff.mpr ⟨_, hthere, rfl⟩
      · exact hgrows.variableName? (h.vars other found hother)
    · intro other id hother
      rw [idsAt_withVariable]
      exact hgrows.map_read? (h.contents other id hother)

theorem declare (h : session.Housed emitted) (command : NamedCommand)
    (hsize : (command.declare session).ledger.host.Addressable) :
    (command.declare session).Housed emitted := by
  obtain hsame | ⟨name, hblock⟩ | ⟨name, kind, hvar⟩ := command.declare_cases session
  · rwa [hsame]
  · rw [hblock] at hsize ⊢
    exact h.withBlock name hsize
  · rw [hvar] at hsize ⊢
    exact h.withVariable name kind hsize

/-- A command goes to the end of its block. No other block of the session changes, since
no other one stands there. -/
theorem withCommand (h : session.Housed emitted) {id : BlockId}
    (hfind : session.blocks.find? target = some id)
    (hsize : session.ledger.host.commands.size < UInt32.size)
    (hnamed : (session.withCommand id command).ledger.host.listing.named? command =
      some named) :
    (session.withCommand id command).Housed (emitted ++ [(target, named)]) := by
  have hgrows : session.ledger.host.Grows (session.withCommand id command).ledger.host :=
    Flowchart.grows_append _ id command
  have hname := h.blocks target id hfind
  refine ⟨h.toLocated.of_grows rfl rfl hgrows, ?_, ?_⟩
  · intro other found hother
    have hids : (session.withCommand id command).ledger.host.idsAt found.index.toNat = _ :=
      Flowchart.idsAt_append session.ledger.host id command found.index.toNat
    have hold := hgrows.map_read? (h.contents other found hother)
    rw [hids, List.map_append, hold]
    by_cases hsame : target = other
    · subst hsame
      obtain rfl : id = found := Option.some.inj (hfind.symm.trans hother)
      have hplace := Flowchart.index_lt_of_blockName? hname
      have hlast : session.ledger.host.commands.size.toUInt32.toNat =
          session.ledger.host.commands.size := UInt32.toNat_ofNat_of_lt' hsize
      have hread : (session.withCommand id command).ledger.host.read?
          ⟨session.ledger.host.commands.size.toUInt32⟩ = some named := by
        refine Option.bind_eq_some_iff.mpr ⟨command, ?_, hnamed⟩
        show (session.ledger.host.commands.push command)[_]? = _
        simp [hlast]
      simp [hplace, hread, Action.addressed]
    · have hne : id.index.toNat ≠ found.index.toNat := by
        intro hindex
        have hfound := h.blocks other found hother
        rw [Listing.blockName?, hindex] at hname
        exact hsame (Option.some.inj (hname.symm.trans hfound))
      simp [hne, hsame, Action.addressed]
  · intro emission hemission
    rcases List.mem_append.mp hemission with hold | hnew
    · exact h.known emission hold
    · rw [List.mem_singleton.mp hnew]
      exact ⟨id, hfind⟩

theorem emit (h : session.Housed emitted) (target : String) (command : NamedCommand)
    (hsize : (Action.perform session (.emit target command)).ledger.host.Addressable) :
    (Action.perform session (.emit target command)).Housed (emitted ++ [(target, command)]) := by
  obtain ⟨hopenSize, hdeclaredSize⟩ := addressable_of_emit hsize
  have hdeclared := (h.withBlock target hopenSize).declare command hdeclaredSize
  have hroom : (command.declare (session.withBlock target)).ledger.host.commands.size <
      UInt32.size := by
    have hcommands := hsize.commands
    rw [commands_emit, Array.size_push] at hcommands
    rwa [(sameCommands_declare session target command).1]
  refine hdeclared.withCommand (command.find?_declare (find?_withBlock_self session target))
    hroom ?_
  have hlocated : (Action.perform session (.emit target command)).Located :=
    hdeclared.toLocated.of_grows rfl rfl (Flowchart.grows_append _ _ _)
  have hnamed := hlocated.named?_resolve (NamedCommand.known_emit session target command)
  -- The names of the command stand for the same once it is emitted.
  have hsame : command.resolve (Action.perform session (.emit target command)) =
      command.resolve (session.withBlock target) :=
    NamedCommand.resolve_perform session target command []
  rwa [hsame] at hnamed

theorem action (h : session.Housed emitted) (action : Action)
    (hsize : (action.perform session).ledger.host.Addressable) :
    (action.perform session).Housed (emitted ++ Action.emissions [action]) := by
  cases action with
  | mention name =>
    rw [Action.emissions_mention, Action.emissions_nil, List.append_nil]
    exact h.withBlock name hsize
  | emit target command => exact h.emit target command hsize
  | _ =>
    show Housed (emitted ++ []) _
    rw [List.append_nil]
    exact h.of_grows rfl rfl (.refl _) fun _ => rfl

theorem perform (h : session.Housed emitted) (actions : List Action)
    (hsize : (session.perform actions).ledger.host.Addressable) :
    (session.perform actions).Housed (emitted ++ Action.emissions actions) := by
  induction actions generalizing session emitted with
  | nil =>
    rw [Action.emissions_nil, List.append_nil]
    exact h
  | cons action rest ih =>
    have hrest := ih (h.action action (addressable_of_perform hsize)) hsize
    rwa [List.append_assoc, ← Action.emissions_append] at hrest

end Housed

-- ---------------------------------------------------------------------------
-- What a session leaves alone
-- ---------------------------------------------------------------------------

theorem blocks_withBlock {position : Nat} {block : Block}
    (h : session.ledger.host.blocks[position]? = some block) (name : String) :
    (session.withBlock name).ledger.host.blocks[position]? = some block := by
  cases hfind : session.blocks.find? name with
  | some found => rwa [withBlock_of_find? hfind]
  | none =>
    obtain ⟨hlt, rfl⟩ := Array.getElem?_eq_some_iff.mp h
    rw [host_withBlock hfind, Array.getElem?_push_lt hlt]

/-- A block stands at a position, and it is none of those that the session goes by. -/
structure Spares (position : Nat) (block : Block) (session : Session Flowchart) : Prop where
  there : session.ledger.host.blocks[position]? = some block
  other : ∀ name id, session.blocks.find? name = some id → id.index.toNat ≠ position

namespace Spares

theorem withBlock (h : session.Spares position block) (name : String)
    (hsize : (session.withBlock name).ledger.host.blocks.size ≤ UInt32.size) :
    (session.withBlock name).Spares position block := by
  cases hfind : session.blocks.find? name with
  | some found => rwa [withBlock_of_find? hfind]
  | none =>
    have hplace := index_blockOf_of_new hfind hsize
    obtain ⟨hlt, -⟩ := Array.getElem?_eq_some_iff.mp h.there
    refine ⟨blocks_withBlock h.there name, ?_⟩
    intro other id hother
    rw [find?_withBlock] at hother
    split at hother
    · cases hother
      omega
    · exact h.other other id hother

theorem declare (h : session.Spares position block) (command : NamedCommand)
    (hsize : (command.declare session).ledger.host.blocks.size ≤ UInt32.size) :
    (command.declare session).Spares position block := by
  obtain hsame | ⟨name, hblock⟩ | ⟨name, kind, hvar⟩ := command.declare_cases session
  · rwa [hsame]
  · rw [hblock] at hsize ⊢
    exact h.withBlock name hsize
  · rw [hvar]
    refine ⟨?_, h.other⟩
    rw [blocks_withVariable]
    exact h.there

theorem emit (h : session.Spares position block) (target : String) (command : NamedCommand)
    (hsize : (Action.perform session (.emit target command)).ledger.host.Addressable) :
    (Action.perform session (.emit target command)).Spares position block := by
  obtain ⟨hopenSize, hdeclaredSize⟩ := addressable_of_emit hsize
  have hdeclared := (h.withBlock target hopenSize.blocks).declare command hdeclaredSize.blocks
  have hne := hdeclared.other target _ (command.find?_declare (find?_withBlock_self session target))
  refine ⟨?_, hdeclared.other⟩
  rw [host_emit, Flowchart.append, Array.getElem?_modify, if_neg hne]
  exact hdeclared.there

theorem perform (h : session.Spares position block) (actions : List Action)
    (hsize : (session.perform actions).ledger.host.Addressable) :
    (session.perform actions).Spares position block := by
  induction actions generalizing session with
  | nil => exact h
  | cons action rest ih =>
    have hnext := addressable_of_perform hsize
    refine ih ?_ hsize
    cases action with
    | mention name => exact h.withBlock name hnext.blocks
    | emit target command => exact h.emit target command hnext
    | _ => exact ⟨h.there, h.other⟩

end Spares

-- ---------------------------------------------------------------------------
-- Sessions that do the same
-- ---------------------------------------------------------------------------

/-- Two sessions agree on all but their flowcharts and the identifiers in them, and the
flowchart of the first has no more in it. -/
structure Mirrors (first second : Session Flowchart) : Prop where
  options : first.options = second.options
  started : first.started = second.started
  current : first.current = second.current
  diagnostics : first.diagnostics = second.diagnostics
  keys : first.blocks.keys = second.blocks.keys
  kinds : first.kinds = second.kinds
  size : first.ledger.host.FitsIn second.ledger.host

namespace Mirrors

variable {first second : Session Flowchart}

theorem find?_eq_none_iff (h : first.Mirrors second) (name : String) :
    first.blocks.find? name = none ↔ second.blocks.find? name = none := by
  rw [Table.find?_eq_none_iff, Table.find?_eq_none_iff, h.keys]

theorem vars_find?_eq_none_iff (h : first.Mirrors second) (name : String) :
    first.vars.find? name = none ↔ second.vars.find? name = none := by
  have hkind := congrFun h.kinds name
  unfold Session.kinds VariableRegistry.kind? at hkind
  rw [← Option.map_eq_none_iff, hkind, Option.map_eq_none_iff]

theorem withBlock (h : first.Mirrors second) (name : String) :
    (first.withBlock name).Mirrors (second.withBlock name) := by
  refine ⟨h.options, h.started, h.current, h.diagnostics, ?_, h.kinds, ?_⟩
  · rw [keys_withBlock, keys_withBlock, h.keys]
  · cases hfind : first.blocks.find? name with
    | some block =>
      rw [withBlock_of_find? hfind]
      exact h.size.trans (second.grows_withBlock name).fitsIn
    | none =>
      rw [host_withBlock hfind, host_withBlock ((h.find?_eq_none_iff name).mp hfind)]
      refine ⟨?_, h.size.commands, h.size.vars⟩
      simpa using h.size.blocks

theorem withVariable (h : first.Mirrors second) (name : String) (kind : Kind) :
    (first.withVariable name kind).Mirrors (second.withVariable name kind) := by
  refine ⟨h.options, h.started, h.current, h.diagnostics, h.keys, ?_, ?_⟩
  · rw [kinds_withVariable, kinds_withVariable, h.kinds]
  · cases hfind : first.vars.find? name with
    | some found =>
      have hother : second.vars.find? name ≠ none := by
        rw [Ne, ← h.vars_find?_eq_none_iff, hfind]
        exact Option.some_ne_none found
      obtain ⟨other, hother⟩ := Option.ne_none_iff_exists'.mp hother
      rw [withVariable_of_find? hfind, withVariable_of_find? hother]
      exact h.size
    | none =>
      rw [host_withVariable hfind, host_withVariable ((h.vars_find?_eq_none_iff name).mp hfind)]
      refine ⟨h.size.blocks, h.size.commands, ?_⟩
      simpa using h.size.vars

theorem declare (h : first.Mirrors second) (command : NamedCommand) :
    (command.declare first).Mirrors (command.declare second) := by
  cases command with
  | menu text target => exact h.withBlock target
  | call target => exact h.withBlock target
  | set operator name value => exact h.withVariable name value.kind
  | ifThen check => exact h.withVariable check.name check.value.kind
  | elseIf check => exact h.withVariable check.name check.value.kind
  | _ => exact h

theorem withCommand (h : first.Mirrors second) (block other : BlockId) (command same : Command) :
    (first.withCommand block command).Mirrors (second.withCommand other same) := by
  refine ⟨h.options, h.started, h.current, h.diagnostics, h.keys, h.kinds, ?_, ?_, h.size.vars⟩
  · show (first.ledger.host.append block command).blocks.size ≤
      (second.ledger.host.append other same).blocks.size
    simpa [Flowchart.append] using h.size.blocks
  · show (first.ledger.host.append block command).commands.size ≤
      (second.ledger.host.append other same).commands.size
    simpa [Flowchart.append] using h.size.commands

theorem action (h : first.Mirrors second) (action : Action) :
    (action.perform first).Mirrors (action.perform second) := by
  cases action with
  | mention name => exact h.withBlock name
  | start name statements =>
    refine ⟨h.options, ?_, rfl, h.diagnostics, h.keys, h.kinds, h.size⟩
    exact congrArg (name :: ·) h.started
  | emit target command => exact ((h.withBlock target).declare command).withCommand _ _ _ _
  | skip error =>
    refine ⟨h.options, h.started, h.current, ?_, h.keys, h.kinds, h.size⟩
    simp only [Action.perform, withDiagnostic, h.diagnostics, h.current]
  | _ => exact ⟨h.options, h.started, h.current, h.diagnostics, h.keys, h.kinds, h.size⟩

theorem perform (h : first.Mirrors second) (actions : List Action) :
    (first.perform actions).Mirrors (second.perform actions) := by
  induction actions generalizing first second with
  | nil => exact h
  | cons action rest ih => exact ih (h.action action)

end Mirrors

end Session

end Dialogue
