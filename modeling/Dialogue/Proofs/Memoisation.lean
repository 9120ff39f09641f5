import Dialogue.Proofs.Protocol
import Dialogue.Proofs.Revisits
import Dialogue.Proofs.Success

/-!
# A name is compiled once

A session keeps two tables that are written at different moments: the blocks of
names, which any jump or choice may create, and the nodes it has started on. In
every session that compiles node after node over any host (`Session.memoised_visits`)
a name keeps the block that it was first given, the first node of a name is lowered
into that block, whoever created it, and a node that has been compiled is answered
from then on without anything being done.
-/

namespace Dialogue

variable {σ : Type} [Host σ]

-- ---------------------------------------------------------------------------
-- Nodes that have been asked for
-- ---------------------------------------------------------------------------

theorem Plan.mem_started_node {policy : MismatchPolicy} {kinds : Kinds} {started : List String}
    {source : Node} :
    name ∈ (node policy kinds started source).actions.foldl Action.started started ↔
      name ∈ started ∨ name = source.name := by
  rw [started_node]
  split
  · rename_i hstarted
    constructor
    · exact .inl
    · rintro (hold | rfl)
      · exact hold
      · exact hstarted
  · rw [List.mem_cons, or_comm]

namespace Session

theorem mem_started_visits (session : Session σ) (sources : List Node) :
    name ∈ (session.visits sources).started ↔
      name ∈ session.started ∨ name ∈ sources.map (·.name) := by
  induction sources generalizing session with
  | nil => simp [visits]
  | cons source rest ih =>
    rw [visits_cons, ih, visit_eq, started_perform, Plan.mem_started_node, List.map_cons,
      List.mem_cons, or_assoc]

-- ---------------------------------------------------------------------------
-- Answers
-- ---------------------------------------------------------------------------

theorem node_of_failure_eq_none {session : Session σ}
    (h : (Plan.node session.options.mismatch session.kinds session.started source).failure =
      none) :
    Lowering.node source session = .ok (session.blockOf source.name) (session.visit source) := by
  rw [Lowering.node_eq_run, visit_eq]
  exact Lowering.bind_ok (Plan.run_of_failure_eq_none h session)

theorem node_eq_ok_cases {session after : Session σ}
    (h : Lowering.node source session = .ok block after) :
    block = session.blockOf source.name ∧ after = session.visit source := by
  cases hfailure : (Plan.node session.options.mismatch session.kinds session.started
      source).failure with
  | none =>
    rw [node_of_failure_eq_none hfailure] at h
    cases h
    exact ⟨rfl, rfl⟩
  | some error =>
    rw [node_eq_error hfailure] at h
    cases h

theorem node_of_find? {session : Session σ}
    (hfind : session.blocks.find? source.name = some block)
    (hnew : source.name ∉ session.started) :
    Lowering.node source session =
      (do Lowering.start source
          Lowering.statements block source.statements
          pure block : Lowering σ BlockId) session := by
  have hblock : Lowering.blockFor source.name session = .ok block session := by
    show EStateM.Result.ok (session.blockOf source.name) (session.withBlock source.name) = _
    rw [blockOf_of_find? hfind, withBlock_of_find? hfind]
  have hget : (get : Lowering σ (Session σ)) session = .ok session session := rfl
  unfold Lowering.node
  rw [Lowering.bind_ok hblock, Lowering.bind_ok hget, if_neg hnew]

-- ---------------------------------------------------------------------------
-- Sessions
-- ---------------------------------------------------------------------------

/-- What a session that has been asked for the nodes of some names remembers. -/
structure Memoised (visited : List String) (session : Session σ) : Prop where
  /-- The block of a name is the one block that the host has made for it. -/
  registered : ∀ name block, session.blocks.find? name = some block ↔
    .createBlock name block ∈ session.calls
  /-- A name keeps its block. -/
  kept : ∀ name block, session.blocks.find? name = some block →
    ∀ later, (session.visits later).blocks.find? name = some block
  /-- Once a node has compiled, a node of its name is answered with the same block, and
  the session stays as it is. -/
  answered : ∀ source block after, Lowering.node source session = .ok block after →
    ∀ between again, again.name = source.name →
      Lowering.node again (after.visits between) = .ok block (after.visits between)
  /-- The first node of a name is lowered into the block that a jump or a choice has made. -/
  filled : ∀ source block, session.blocks.find? source.name = some block →
    source.name ∉ visited →
      Lowering.node source session =
        (do Lowering.start source
            Lowering.statements block source.statements
            pure block : Lowering σ BlockId) session

/-- Every session remembers what it has been asked for, whatever its host answers and
whether its nodes compile or fail. -/
theorem memoised_visits (host : σ) (options : Options) (sources : List Node) :
    Memoised (sources.map (·.name)) ((fresh host options).visits sources) where
  registered := by
    rw [visits_eq]
    exact ((recorded_fresh host options).perform _).blocks
  kept name block hfind later := by
    rw [visits_eq _ later]
    exact find?_perform _ hfind
  answered source block after h between again hname := by
    obtain ⟨rfl, rfl⟩ := node_eq_ok_cases h
    refine Begun.node_eq_ok ?_
    rw [hname]
    exact (begun_visit _ source).visits between
  filled source block hfind hnew := by
    refine node_of_find? hfind ?_
    intro hstarted
    rcases (mem_started_visits _ sources).mp hstarted with hfresh | hvisited
    · cases hfresh
    · exact hnew hvisited

def crossroads : Node := ⟨"Start", [.jump "Inn", .choices [.mk "Road" [.line "Dust."]]]⟩

def inn : Node := ⟨"Inn", [.line "Welcome."]⟩

/-- The jump to the inn has made its block. The inn is then lowered into it, and asking
for the inn again, with other statements, does nothing. -/
theorem memoised_crossroads :
    let opened := (fresh ({} : Flowchart) {}).visits [crossroads]
    let filled := opened.visit inn
    opened.blocks.find? "Inn" = some ⟨1⟩ ∧ Lowering.node inn opened = .ok ⟨1⟩ filled ∧
      filled.ledger.host.listing.blocks =
        [⟨"Start", [.call ⟨1⟩, .menu "Road" ⟨2⟩]⟩, ⟨"Inn", [.say "Welcome."]⟩,
          ⟨"Road", [.say "Dust."]⟩] ∧
      (filled.visits [⟨"Road", []⟩, crossroads]).blocks.find? "Inn" = some ⟨1⟩ ∧
      Lowering.node ⟨"Inn", [.line "Never."]⟩ (filled.visits [⟨"Road", []⟩, crossroads]) =
        .ok ⟨1⟩ (filled.visits [⟨"Road", []⟩, crossroads]) := by
  intro opened filled
  have hmemo := memoised_visits ({} : Flowchart) {} [crossroads]
  have hfind : opened.blocks.find? "Inn" = some ⟨1⟩ := by decide +kernel
  have hnode : Lowering.node inn opened = .ok ⟨1⟩ filled := by
    rw [node_of_failure_eq_none (by decide +kernel)]
    exact congrArg (EStateM.Result.ok · filled) (blockOf_of_find? hfind)
  refine ⟨hfind, hnode, by decide +kernel, ?_, ?_⟩
  · exact hmemo.kept "Inn" ⟨1⟩ hfind (inn :: [⟨"Road", []⟩, crossroads])
  · exact hmemo.answered inn ⟨1⟩ filled hnode _ _ rfl

end Session

end Dialogue
