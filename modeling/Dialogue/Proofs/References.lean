import Dialogue.Proofs.Naming
import Dialogue.Proofs.Steps

/-!
# Names and identifiers of a session agree

In a flowchart that a session has filled node by node, a name has one block, the
registry knows just the names of the flowchart and where their blocks stand, no
command points at what is not there, a menu entry leads to the block of its text,
and no block has a name that is not mentioned by a node that is the first of its
name (`Session.referential_visits`). Nodes may fail anywhere on the way.
-/

namespace Dialogue

open Dialogue.Action (Step Steps)

-- ---------------------------------------------------------------------------
-- Names of blocks
-- ---------------------------------------------------------------------------

namespace Session

section

variable {σ : Type} [Host σ] {session : Session σ} {policy : MismatchPolicy} {kinds : Kinds}
  {names : List String}

omit [Host σ] in
def Knows (session : Session σ) (names : List String) : Prop :=
  ∀ name block, session.blocks.find? name = some block → name ∈ names

theorem Knows.withBlock (h : session.Knows names) (hname : name ∈ names) :
    (session.withBlock name).Knows names := by
  intro other block hfind
  rw [find?_withBlock] at hfind
  split at hfind
  · rename_i heq
    exact heq ▸ hname
  · exact h other block hfind

theorem Knows.step (h : session.Knows names) (hstep : Step policy names kinds action) :
    (action.perform session).Knows names := by
  cases hstep with
  | mention hname => exact h.withBlock hname
  | call htarget hdestination => exact (h.withBlock htarget).withBlock hdestination
  | menu htarget hlabel => exact (h.withBlock htarget).withBlock hlabel
  | say htarget => exact h.withBlock htarget
  | set htarget _ => exact h.withBlock htarget
  | marker first check htarget =>
    cases check with
    | none => exact h.withBlock htarget
    | some check => cases first <;> exact h.withBlock htarget
  | endIf htarget => exact h.withBlock htarget
  | wait htarget _ => exact h.withBlock htarget
  | _ => exact h

theorem Knows.perform (h : session.Knows names) (hsteps : Steps policy names kinds actions) :
    (session.perform actions).Knows names := by
  induction hsteps generalizing session with
  | nil => exact h
  | cons hstep _ ih => exact ih (h.step hstep)

end

end Session

-- ---------------------------------------------------------------------------
-- Identifiers of a flowchart
-- ---------------------------------------------------------------------------

namespace Session.Indexed

variable {session : Session Flowchart}

theorem find?_blocks_iff_blockName? (h : session.Indexed)
    (hsize : session.ledger.host.listing.blocks.length ≤ UInt32.size) (name : String)
    (id : BlockId) :
    session.blocks.find? name = some id ↔
      session.ledger.host.listing.blockName? id = some name := by
  constructor
  · exact h.blockName?_of_find? hsize
  · intro hname
    rw [Listing.blockName?, ← List.getElem?_map, Flowchart.map_listing_blocks] at hname
    exact (h.find?_blocks_iff name id).mpr ⟨id.index.toNat, hname, by simp⟩

theorem blockNamed?_eq (h : session.Indexed) (name : String) :
    session.ledger.host.blockNamed? name = session.blocks.find? name := by
  unfold Flowchart.blockNamed?
  cases hfind : session.blocks.find? name with
  | none =>
    rw [Table.find?_eq_none_iff, h.blocks.keys_eq, List.map_id] at hfind
    rw [Option.map_eq_none_iff, Array.findIdx?_eq_none_iff]
    intro block hblock
    refine decide_eq_false ?_
    rintro rfl
    exact hfind (List.mem_map.mpr ⟨block, Array.mem_toList_iff.mpr hblock, rfl⟩)
  | some id =>
    obtain ⟨i, hi, rfl⟩ := (h.find?_blocks_iff name id).mp hfind
    obtain ⟨hlt, hname⟩ := List.getElem?_eq_some_iff.mp hi
    have hsize : session.ledger.host.blockNames.length = session.ledger.host.blocks.size := by
      simp [Flowchart.blockNames]
    refine Option.map_eq_some_iff.mpr ⟨i, ?_, rfl⟩
    rw [Array.findIdx?_eq_some_iff_getElem]
    refine ⟨hsize ▸ hlt, ?_, ?_⟩
    · simpa [Flowchart.blockNames] using hname
    -- No earlier block has the name, since no two blocks have the same.
    · intro j hji hfound
      have hother : session.ledger.host.blockNames[j]? = some name := by
        rw [List.getElem?_eq_getElem (Nat.lt_trans hji hlt)]
        simpa [Flowchart.blockNames] using hfound
      have hsame := (List.getElem?_inj hlt h.blockNames).mp (hi.trans hother.symm)
      omega

theorem subject_lt (h : session.Indexed) (hfind : session.vars.find? name = some found) :
    found.id.index.toNat < session.ledger.host.vars.size := by
  obtain ⟨i, declared, hi, rfl, rfl⟩ := (h.vars.find?_iff h.keys name found).mp hfind
  have hlt : i < session.ledger.host.vars.size := by
    have := (List.getElem?_eq_some_iff.mp hi).1
    simpa [Flowchart.declarations] using this
  exact Nat.lt_of_le_of_lt (Flowchart.toNat_toUInt32_le i) hlt

end Session.Indexed

/-- The identifiers of a command point at blocks and variables of the listing, and
a menu entry at the block of its text. -/
def Listing.Resolves (listing : Listing) : Command → Prop
  | .menu text target => listing.blockName? target = some text
  | .call target => target.index.toNat < listing.blocks.length
  | .set _ subject _ => subject.index.toNat < listing.vars.length
  | .ifThen condition | .elseIf condition => condition.subject.index.toNat < listing.vars.length
  | _ => True

theorem Session.Indexed.resolves {session : Session Flowchart} {kinds : Kinds}
    (h : session.Indexed) (hsize : session.ledger.host.listing.blocks.length ≤ UInt32.size)
    (hstep : Step policy names kinds (.emit target command)) (hknown : command.Known session) :
    session.ledger.host.listing.Resolves (command.resolve session) := by
  have hsubject {name : String} {kind : Kind}
      (hvar : ∃ found, session.vars.find? name = some found) :
      (session.variableOf name kind).id.index.toNat < session.ledger.host.listing.vars.length := by
    obtain ⟨found, hfound⟩ := hvar
    rw [variableOf_of_find? hfound]
    exact h.subject_lt hfound
  cases hstep with
  | menu _ _ =>
    obtain ⟨block, hblock⟩ := hknown
    simp only [NamedCommand.resolve, Listing.Resolves, blockOf_of_find? hblock]
    exact h.blockName?_of_find? hsize hblock
  | call _ _ =>
    obtain ⟨block, hblock⟩ := hknown
    simp only [NamedCommand.resolve, Listing.Resolves, blockOf_of_find? hblock]
    simpa [Flowchart.listing] using h.index_lt hblock
  | set _ _ => exact hsubject hknown
  | marker first check _ =>
    cases check with
    | none => trivial
    | some check => cases first <;> exact hsubject hknown
  | _ => trivial

-- ---------------------------------------------------------------------------
-- Commands of a flowchart
-- ---------------------------------------------------------------------------

theorem Flowchart.mem_commands {chart : Flowchart} {block : BlockListing}
    (hblock : block ∈ chart.listing.blocks) (h : command ∈ block.commands) :
    command ∈ chart.commands.toList := by
  obtain ⟨found, _, rfl⟩ := List.mem_map.mp hblock
  obtain ⟨id, _, hid⟩ := List.mem_filterMap.mp h
  rw [commandAt?, ← Array.getElem?_toList] at hid
  exact List.mem_of_getElem? hid

namespace Session

/-- The registry and the commands of a session agree with its flowchart, whose
blocks have the given names. -/
structure Referential (names : List String) (session : Session Flowchart) : Prop where
  nodup : (session.ledger.host.listing.blocks.map (·.name)).Nodup
  registered : ∀ name id, session.blocks.find? name = some id ↔
    session.ledger.host.listing.blockName? id = some name
  located : ∀ name, session.ledger.host.blockNamed? name = session.blocks.find? name
  resolves : ∀ block ∈ session.ledger.host.listing.blocks, ∀ command ∈ block.commands,
    session.ledger.host.listing.Resolves command
  mentioned : ∀ block ∈ session.ledger.host.listing.blocks, block.name ∈ names

/-- Names and identifiers agree after any nodes, whether they have compiled or
failed. Of the nodes of one name only the first has a say in it. -/
theorem referential_visits (name : String) (options : Options) (sources : List Node)
    (hsize : ((fresh ({ name } : Flowchart) options).visits
      sources).ledger.host.listing.blocks.length ≤ UInt32.size) :
    Referential (Mentions.nodes (Node.firsts [] sources))
      ((fresh ({ name } : Flowchart) options).visits sources) := by
  rw [visits_fresh] at hsize ⊢
  have hsteps : Steps options.mismatch (Mentions.nodes (Node.firsts [] sources)) .none
      (Plan.visits options.mismatch .none [] sources) :=
    Plan.steps_visits (List.nil_subset _) (List.Subset.refl _)
  have hindexed := (indexed_fresh name options).perform
    (Plan.visits options.mismatch .none [] sources)
  refine ⟨?_, hindexed.find?_blocks_iff_blockName? hsize, hindexed.blockNamed?_eq, ?_, ?_⟩
  · rw [Flowchart.map_listing_blocks]
    exact hindexed.blockNames
  · intro block hblock command hcommand
    obtain ⟨target, emitted, hmem, hknown, rfl⟩ :=
      exists_emission (Flowchart.mem_commands hblock hcommand)
    obtain ⟨kinds, hstep⟩ := hsteps.exists_step hmem
    exact hindexed.resolves hsize hstep hknown
  · intro block hblock
    have hfresh : (fresh ({ name } : Flowchart) options).Knows
        (Mentions.nodes (Node.firsts [] sources)) := by
      rintro other id ⟨⟩
    obtain ⟨position, hposition⟩ := List.mem_iff_getElem?.mp hblock
    have hname := (Flowchart.getElem?_listing_blocks hposition).1
    have hfind := (hindexed.find?_blocks_iff block.name ⟨position.toUInt32⟩).mpr
      ⟨position, hname, rfl⟩
    exact hfresh.perform hsteps block.name _ hfind

/-- The first node fails in the body of its menu, inside an open conditional; the
second fills the block that the menu has made, and is asked for again, with a jump
that comes to nothing. -/
def interrupted : List Node := [
  ⟨"Start", [
    .branch [.mk (some ⟨"EqualTo", "guest", .bool true⟩) [
      .choices [.mk "Inn" [.jump "Road", .directive "wait", .line "Never."]]]],
    .line "Never."]⟩,
  ⟨"Inn", [.assign "EqualToOrAssign" "guest" (.bool false), .jump "Start"]⟩,
  ⟨"Inn", [.jump "Nowhere"]⟩]

def interruptedListing : Listing where
  name := "inn"
  blocks := [
    ⟨"Start", [.ifThen ⟨.equals, ⟨0⟩, .bool true⟩, .menu "Inn" ⟨1⟩]⟩,
    ⟨"Inn", [.call ⟨2⟩, .set .assign ⟨0⟩ (.bool false), .call ⟨0⟩]⟩,
    ⟨"Road", []⟩]
  vars := [⟨"guest", .bool, .everywhere, .bool false⟩]

theorem referential_visits_interrupted :
    ((fresh ({ name := "inn" } : Flowchart) {}).visits interrupted).ledger.host.listing =
        interruptedListing ∧
      Mentions.nodes (Node.firsts [] interrupted) = ["Start", "Inn", "Road", "Inn", "Start"] ∧
      Referential (Mentions.nodes (Node.firsts [] interrupted))
        ((fresh ({ name := "inn" } : Flowchart) {}).visits interrupted) := by
  have hlisting : ((fresh ({ name := "inn" } : Flowchart) {}).visits
      interrupted).ledger.host.listing = interruptedListing := by decide +kernel
  refine ⟨hlisting, by decide +kernel, referential_visits "inn" {} interrupted ?_⟩
  rw [hlisting]
  decide

end Session

end Dialogue
