import Dialogue.Proofs.Visits

/-!
# Nodes that are asked for again

A session that has begun a node is done with it, whether the node was lowered to
its end or not. Whoever asks for it again is given its block at once, so a failure
is reported to the first who asks and to nobody after
(`Session.node_of_failed`).
-/

namespace Dialogue

variable {σ : Type} [Host σ]

-- ---------------------------------------------------------------------------
-- What has been begun stays begun
-- ---------------------------------------------------------------------------

theorem Action.mem_started_foldl {started : List String} (h : name ∈ started)
    (actions : List Action) :
    name ∈ actions.foldl Action.started started := by
  induction actions generalizing started with
  | nil => exact h
  | cons action rest ih =>
    refine ih ?_
    cases action with
    | start other statements => exact List.mem_cons_of_mem _ h
    | _ => exact h

theorem Session.node_of_started {session : Session σ} (h : source.name ∈ session.started) :
    Lowering.node source session =
      .ok (session.blockOf source.name) (session.withBlock source.name) := by
  have hplan : Plan.node session.options.mismatch session.kinds session.started source =
      { actions := [.mention source.name] } := if_pos h
  rw [Lowering.node_eq_run, hplan]
  exact Lowering.bind_ok (Plan.run_of_failure_eq_none rfl session)

/-- A node that is begun, with the block that its name stands for. -/
structure Session.Begun (session : Session σ) (name : String) (block : BlockId) : Prop where
  started : name ∈ session.started
  known : session.blocks.find? name = some block

namespace Session.Begun

variable {session : Session σ}

theorem perform (h : session.Begun name block) (actions : List Action) :
    (session.perform actions).Begun name block where
  started := by
    rw [started_perform]
    exact Action.mem_started_foldl h.started actions
  known := find?_perform actions h.known

theorem visits (h : session.Begun name block) (sources : List Node) :
    (session.visits sources).Begun name block := by
  rw [visits_eq]
  exact h.perform _

theorem node_eq_ok (h : session.Begun source.name block) :
    Lowering.node source session = .ok block session := by
  rw [node_of_started h.started, blockOf_of_find? h.known, withBlock_of_find? h.known]

end Session.Begun

-- ---------------------------------------------------------------------------
-- Failures
-- ---------------------------------------------------------------------------

namespace Session

variable {session failed : Session σ}

theorem begun_visit (session : Session σ) (source : Node) :
    (session.visit source).Begun source.name (session.blockOf source.name) := by
  have hknown : (session.withBlock source.name).blocks.find? source.name =
      some (session.blockOf source.name) :=
    find?_withBlock_self session source.name
  rw [visit_eq, Plan.node]
  by_cases hstarted : source.name ∈ session.started
  · rw [if_pos hstarted]
    exact ⟨hstarted, hknown⟩
  · have hopen : ((session.withBlock source.name).withStart source.name
        source.statements.length).Begun source.name (session.blockOf source.name) :=
      ⟨List.mem_cons_self, hknown⟩
    rw [if_neg hstarted]
    exact hopen.perform _

/-- A node that fails had not been begun, and it is begun when it has failed. -/
theorem begun_of_failed (h : Lowering.node source session = .error error failed) :
    source.name ∉ session.started ∧ ∃ block, failed.Begun source.name block := by
  constructor
  · intro hstarted
    rw [node_of_started hstarted] at h
    cases h
  · have hfailed : failed = session.visit source := by
      unfold visit after
      rw [h]
    rw [hfailed]
    exact ⟨_, session.begun_visit source⟩

/-- Once a node has failed, whoever asks for a node of its name is given a block as if
nothing had happened, whatever nodes the session has been asked for in between. -/
theorem node_of_failed (h : Lowering.node source session = .error error failed)
    (between : List Node) :
    source.name ∉ session.started ∧
      ∃ block, failed.blocks.find? source.name = some block ∧
        ∀ again : Node, again.name = source.name →
          Lowering.node again (failed.visits between) = .ok block (failed.visits between) := by
  obtain ⟨hnew, block, hbegun⟩ := begun_of_failed h
  refine ⟨hnew, block, hbegun.known, ?_⟩
  intro again hname
  exact (hname ▸ hbegun.visits between).node_eq_ok

theorem node_eq_error
    (h : (Plan.node session.options.mismatch session.kinds session.started source).failure =
      some error) :
    Lowering.node source session = .error error (session.visit source) := by
  rw [Lowering.node_eq_run, visit_eq]
  exact Lowering.bind_error (Plan.run_of_failure_eq_some h session)

def hesitant : Node := ⟨"Start", [.line "One.", .directive "wait a bit", .line "Two."]⟩

theorem node_of_failed_hesitant :
    Lowering.node hesitant (fresh ({} : Flowchart) {}) =
        .error (.malformedDirective "wait a bit" (.badDuration "a"))
          ((fresh ({} : Flowchart) {}).visit hesitant) ∧
      ∃ block, Lowering.node hesitant
          (((fresh ({} : Flowchart) {}).visit hesitant).visits [⟨"Inn", [.jump "Start"]⟩]) =
        .ok block
          (((fresh ({} : Flowchart) {}).visit hesitant).visits [⟨"Inn", [.jump "Start"]⟩]) := by
  have hfailed : Lowering.node hesitant (fresh ({} : Flowchart) {}) =
      .error (.malformedDirective "wait a bit" (.badDuration "a"))
        ((fresh ({} : Flowchart) {}).visit hesitant) := node_eq_error (by decide +kernel)
  obtain ⟨_, block, _, hagain⟩ := node_of_failed hfailed [⟨"Inn", [.jump "Start"]⟩]
  exact ⟨hfailed, block, hagain hesitant rfl⟩

/-- A node that has failed, asked for again, is reported as compiled, though all that
comes after the malformed directive is missing from its block. -/
theorem node_hesitant_again :
    Lowering.node hesitant (fresh ({} : Flowchart) {}) =
        .error (.malformedDirective "wait a bit" (.badDuration "a"))
          ((fresh ({} : Flowchart) {}).visit hesitant) ∧
      Lowering.node hesitant ((fresh ({} : Flowchart) {}).visit hesitant) =
        .ok ⟨0⟩ ((fresh ({} : Flowchart) {}).visit hesitant) ∧
      ((fresh ({} : Flowchart) {}).visit hesitant).ledger.host.listing.blocks =
        [⟨"Start", [.say "One."]⟩] := by
  refine ⟨node_eq_error (by decide +kernel), ?_, by decide +kernel⟩
  exact Begun.node_eq_ok ⟨by decide +kernel, by decide +kernel⟩

end Session

end Dialogue
