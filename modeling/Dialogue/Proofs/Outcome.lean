import Dialogue.Proofs.Charting

/-!
# What a compilation results in

The parts of a compiled script in terms of its plan: the diagnostics are the
statements that the plan gives up, each with the node it stands in; the names
of blocks and variables are those of the registries; and the commands of a
block are what the plan emits into it.
-/

namespace Dialogue

-- ---------------------------------------------------------------------------
-- Diagnostics
-- ---------------------------------------------------------------------------

def Action.diagnostics (current : String) : List Action → List Diagnostic
  | [] => []
  | .start name _ :: rest => diagnostics name rest
  | .skip error :: rest => ⟨current, error.message⟩ :: diagnostics current rest
  | _ :: rest => diagnostics current rest

theorem Session.diagnostics_perform {σ : Type} [Host σ] (session : Session σ)
    (actions : List Action) :
    (session.perform actions).diagnostics.toList =
      session.diagnostics.toList ++ Action.diagnostics session.current actions := by
  induction actions generalizing session with
  | nil => simp [perform, Action.diagnostics]
  | cons action rest ih =>
    rw [perform_cons, ih]
    cases action with
    | skip error => simp [Action.perform, withDiagnostic, Action.diagnostics]
    | emit target command => cases command <;> rfl
    | _ => rfl

-- ---------------------------------------------------------------------------
-- Listings
-- ---------------------------------------------------------------------------

namespace Listing

def commands (listing : Listing) : List Command := listing.blocks.flatMap (·.commands)

/-- Every block, command and variable has an identifier of its own. -/
structure Addressable (listing : Listing) : Prop where
  blocks : listing.blocks.length ≤ UInt32.size
  commands : listing.commands.length ≤ UInt32.size
  vars : listing.vars.length ≤ UInt32.size

end Listing

namespace Flowchart

structure Addressable (chart : Flowchart) : Prop where
  blocks : chart.blocks.size ≤ UInt32.size
  commands : chart.commands.size ≤ UInt32.size
  vars : chart.vars.size ≤ UInt32.size

/-- A flowchart whose commands each stand in one place has room for them if its listing has. -/
theorem addressable_listing_iff {chart : Flowchart} (hclosed : chart.Closed)
    (hplaced : chart.Placed) : chart.listing.Addressable ↔ chart.Addressable := by
  have hcommands : chart.listing.commands.length = chart.commands.size :=
    length_listing hclosed hplaced
  constructor
  · intro h
    exact ⟨by simpa [listing] using h.blocks, hcommands ▸ h.commands, h.vars⟩
  · intro h
    exact ⟨by simpa [listing] using h.blocks, hcommands ▸ h.commands, h.vars⟩

theorem getElem?_listing_blocks {chart : Flowchart} {position : Nat} {block : BlockListing}
    (h : chart.listing.blocks[position]? = some block) :
    chart.blockNames[position]? = some block.name ∧
      block.commands = chart.commandsAt position := by
  simp only [listing, List.getElem?_map, Option.map_eq_some_iff] at h
  obtain ⟨found, hfound, rfl⟩ := h
  rw [Array.getElem?_toList] at hfound
  simp [blockNames, commandsAt, hfound]

theorem map_listing_blocks (chart : Flowchart) :
    chart.listing.blocks.map (·.name) = chart.blockNames := by
  simp [listing, blockNames]

theorem map_listing_vars (chart : Flowchart) :
    (chart.listing.vars.map fun found => (found.key, found.kind)) = chart.declarations := rfl

end Flowchart

-- ---------------------------------------------------------------------------
-- Identifiers as positions
-- ---------------------------------------------------------------------------

namespace Session.Indexed

variable {session : Session Flowchart}

theorem blockNames_of_find? (h : session.Indexed)
    (hsize : session.ledger.host.listing.blocks.length ≤ UInt32.size)
    (hfind : session.blocks.find? name = some block) :
    session.ledger.host.blockNames[block.index.toNat]? = some name := by
  obtain ⟨i, hi, rfl⟩ := (h.find?_blocks_iff name block).mp hfind
  have hlt : i < session.ledger.host.listing.blocks.length := by
    have hlength := (List.getElem?_eq_some_iff.mp hi).1
    rwa [← Flowchart.map_listing_blocks, List.length_map] at hlength
  have hindex : i.toUInt32.toNat = i := UInt32.toNat_ofNat_of_lt' (Nat.lt_of_lt_of_le hlt hsize)
  rw [hindex]
  exact hi

/-- The identifier of a name points at the block of that name and at no other. -/
theorem blockOf_eq_iff (h : session.Indexed)
    (hsize : session.ledger.host.listing.blocks.length ≤ UInt32.size)
    (hfind : session.blocks.find? name = some block) {position : Nat} {other : String}
    (hother : session.ledger.host.blockNames[position]? = some other) :
    (session.blockOf name).index.toNat = position ↔ name = other := by
  have hname := h.blockNames_of_find? hsize hfind
  rw [blockOf_of_find? hfind]
  constructor
  · rintro rfl
    exact Option.some.inj (hname.symm.trans hother)
  · rintro rfl
    exact (List.getElem?_inj (List.getElem?_eq_some_iff.mp hname).1 h.blockNames).mp
      (hname.trans hother.symm)

theorem mem_blockNames (h : session.Indexed) (hfind : session.blocks.find? name = some block) :
    name ∈ session.ledger.host.listing.blocks.map (·.name) := by
  obtain ⟨i, hi, _⟩ := (h.find?_blocks_iff name block).mp hfind
  rw [Flowchart.map_listing_blocks]
  exact List.mem_of_getElem? hi

theorem variable_of_find? (h : session.Indexed)
    (hsize : session.ledger.host.listing.vars.length ≤ UInt32.size)
    (hfind : session.vars.find? name = some found) :
    ∃ listed, session.ledger.host.listing.vars[found.id.index.toNat]? = some listed ∧
      listed.key = name ∧ listed.kind = found.kind := by
  obtain ⟨i, declared, hi, rfl, rfl⟩ := (h.vars.find?_iff h.keys name found).mp hfind
  rw [← Flowchart.map_listing_vars, List.getElem?_map, Option.map_eq_some_iff] at hi
  obtain ⟨listed, hlisted, rfl⟩ := hi
  have hlt := (List.getElem?_eq_some_iff.mp hlisted).1
  have hindex : i.toUInt32.toNat = i := UInt32.toNat_ofNat_of_lt' (Nat.lt_of_lt_of_le hlt hsize)
  exact ⟨listed, hindex.symm ▸ hlisted, rfl, rfl⟩

end Session.Indexed

-- ---------------------------------------------------------------------------
-- Compiled scripts
-- ---------------------------------------------------------------------------

namespace Script

variable {script : Script} {options : Options} {compiled : Compiled}

theorem find?_of_failure_eq_none (h : (script.plan options).failure = none) :
    ∃ first, script.nodes.find? options.entry = some first := by
  unfold plan Plan.script at h
  cases hfirst : script.nodes.find? options.entry with
  | none => simp [hfirst, Plan.fail] at h
  | some first => exact ⟨first, rfl⟩

theorem plan_eq (h : script.nodes.find? options.entry = some first) :
    script.plan options =
      (Plan.nodes options.mismatch .none [] (first :: script.others options.entry)).andThen
        { actions := [.finish script.name] } := by
  simp [plan, Plan.script, h]

theorem compile_eq_ok_iff :
    script.compile options = .ok compiled ↔
      (script.plan options).failure = none ∧
        compiled = ⟨⟨0⟩, (script.compilation options).ledger.host.listing,
          (script.compilation options).diagnostics.toList⟩ := by
  rw [compile_eq]
  cases (script.plan options).failure with
  | none =>
    simp only [true_and, Except.ok.injEq]
    exact eq_comm
  | some error => simp

theorem indexed_compilation (script : Script) (options : Options) :
    (script.compilation options).Indexed :=
  (Session.indexed_fresh script.name options).perform _

theorem diagnostics_compilation (script : Script) (options : Options) :
    (script.compilation options).diagnostics.toList =
      Action.diagnostics "" (script.plan options).actions :=
  Session.diagnostics_perform _ _

theorem kinds_compilation (script : Script) (options : Options) :
    (script.compilation options).kinds = Kinds.none.after (script.plan options).actions :=
  Session.kinds_perform _ _

theorem known_compilation
    (h : emission ∈ Action.emissions (script.plan options).actions) :
    (∃ block, (script.compilation options).blocks.find? emission.1 = some block) ∧
      emission.2.Known (script.compilation options) :=
  Session.known_of_mem h

/-- The commands of a block of a compiled script are those that the plan emits
under a name whose identifier points there. -/
theorem commands_compilation (script : Script) (options : Options)
    (hcount : (script.compilation options).ledger.host.listing.commands.length ≤ UInt32.size)
    {position : Nat} {block : BlockListing}
    (hblock : (script.compilation options).ledger.host.listing.blocks[position]? = some block) :
    block.commands =
      ((Action.emissions (script.plan options).actions).filter fun emission =>
        ((script.compilation options).blockOf emission.1).index.toNat = position).map
          fun emission => emission.2.resolve (script.compilation options) := by
  have hindexed := script.indexed_compilation options
  have hlength := Flowchart.length_listing hindexed.closed hindexed.placed
  have hfresh := Session.indexed_fresh script.name options
  have hsize := Session.size_commands_perform (.fresh { name := script.name } options)
    (script.plan options).actions
  have hroom :
      (Session.fresh ({ name := script.name } : Flowchart) options).ledger.host.commands.size +
        ((Session.fresh ({ name := script.name } : Flowchart) options).commands
          (script.plan options).actions).length ≤ UInt32.size := by
    rw [← hsize]
    exact hlength ▸ hcount
  rw [(Flowchart.getElem?_listing_blocks hblock).2, compilation,
    hfresh.commandsAt_perform hroom, Session.commands_eq]
  simp only [List.filter_map, List.map_map]
  rfl

/-- With room for all of them, the commands of a block are those that the plan
emits under its name. -/
theorem commands_addressed {block : BlockListing}
    (hblocks : (script.compilation options).ledger.host.listing.blocks.length ≤ UInt32.size)
    (hcount : (script.compilation options).ledger.host.listing.commands.length ≤ UInt32.size)
    (hmem : block ∈ (script.compilation options).ledger.host.listing.blocks) :
    block.commands =
      ((Action.emissions (script.plan options).actions).filter (·.1 = block.name)).map
        fun emission => emission.2.resolve (script.compilation options) := by
  have hindexed := script.indexed_compilation options
  obtain ⟨position, hposition⟩ := List.mem_iff_getElem?.mp hmem
  have hname := (Flowchart.getElem?_listing_blocks hposition).1
  have hfilter : ∀ emission ∈ Action.emissions (script.plan options).actions,
      decide (((script.compilation options).blockOf emission.1).index.toNat = position) =
        decide (emission.1 = block.name) := by
    intro emission hemission
    obtain ⟨found, hfound⟩ := (known_compilation hemission).1
    exact decide_eq_decide.mpr (hindexed.blockOf_eq_iff hblocks hfound hname)
  rw [script.commands_compilation options hcount hposition, List.filter_congr hfilter]

theorem exists_block_of_mem
    (hcount : (script.compilation options).ledger.host.listing.commands.length ≤ UInt32.size)
    (h : emission ∈ Action.emissions (script.plan options).actions) :
    ∃ block ∈ (script.compilation options).ledger.host.listing.blocks,
      emission.2.resolve (script.compilation options) ∈ block.commands := by
  obtain ⟨id, hid⟩ := (known_compilation h).1
  have hlt := (script.indexed_compilation options).index_lt hid
  have hlength : id.index.toNat <
      (script.compilation options).ledger.host.listing.blocks.length := by
    simpa [Flowchart.listing] using hlt
  have hblock := List.getElem?_eq_getElem hlength
  refine ⟨_, List.mem_of_getElem? hblock, ?_⟩
  rw [script.commands_compilation options hcount hblock]
  refine List.mem_map.mpr ⟨emission, List.mem_filter.mpr ⟨h, ?_⟩, rfl⟩
  simp [Session.blockOf_of_find? hid]

end Script

end Dialogue
