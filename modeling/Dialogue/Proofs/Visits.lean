import Dialogue.Proofs.Simulation

/-!
# Sessions that compile node after node

A session may be asked for one node after another. A node that fails leaves the
session where it stands, and the next one goes on from there; so what such a
session has done is a list of actions (`Session.visits_eq`), in which the plan of
a node that failed has been cut short. The same holds of a script that is
compiled in a session that has compiled nodes before (`Session.after_script`).
-/

namespace Dialogue

variable {σ : Type} [Host σ]

namespace Session

omit [Host σ] in
def after (session : Session σ) (lowering : Lowering σ α) : Session σ :=
  match lowering session with
  | .ok _ session => session
  | .error _ session => session

def visit (session : Session σ) (source : Node) : Session σ := session.after (Lowering.node source)

/-- The session after some nodes, each compiled whatever became of those before. -/
def visits (session : Session σ) (sources : List Node) : Session σ := sources.foldl visit session

theorem visits_cons (session : Session σ) (source : Node) (rest : List Node) :
    session.visits (source :: rest) = (session.visit source).visits rest := rfl

theorem visits_append (session : Session σ) (first rest : List Node) :
    session.visits (first ++ rest) = (session.visits first).visits rest :=
  List.foldl_append

theorem after_run (session : Session σ) (plan : Plan) (result : α) :
    session.after (do plan.run; pure result) = session.perform plan.actions := by
  unfold after
  cases hfailure : plan.failure with
  | none =>
    rw [Lowering.bind_ok (Plan.run_of_failure_eq_none hfailure session)]
    rfl
  | some error => rw [Lowering.bind_error (Plan.run_of_failure_eq_some hfailure session)]

theorem visit_eq (session : Session σ) (source : Node) :
    session.visit source = session.perform
      (Plan.node session.options.mismatch session.kinds session.started source).actions := by
  rw [← after_run session _ (session.blockOf source.name)]
  unfold visit after
  rw [Lowering.node_eq_run]

theorem after_script (session : Session σ) (source : Script) :
    session.after (Lowering.script source) = session.perform
      (Plan.script session.options session.kinds session.started source).actions := by
  cases hfirst : source.nodes.find? session.options.entry with
  | none =>
    unfold after Plan.script
    rw [Lowering.script_eq_error session source hfirst, hfirst]
    rfl
  | some first =>
    rw [← after_run session _ (session.blockOf first.name)]
    unfold after
    rw [Lowering.script_eq_run session source hfirst]

end Session

/-- What compiling nodes in turn does, when a failure does not stop it. -/
def Plan.visits (policy : MismatchPolicy) (kinds : Kinds) (started : List String) :
    List Node → List Action
  | [] => []
  | source :: rest =>
    let actions := (node policy kinds started source).actions
    actions ++ visits policy (kinds.after actions) (actions.foldl Action.started started) rest

theorem Session.visits_eq (session : Session σ) (sources : List Node) :
    session.visits sources = session.perform
      (Plan.visits session.options.mismatch session.kinds session.started sources) := by
  induction sources generalizing session with
  | nil => rfl
  | cons source rest ih =>
    rw [visits_cons, ih, visit_eq, options_perform, kinds_perform, started_perform,
      ← perform_append]
    rfl

theorem Session.visits_fresh (host : σ) (options : Options) (sources : List Node) :
    (fresh host options).visits sources =
      (fresh host options).perform (Plan.visits options.mismatch .none [] sources) :=
  visits_eq (fresh host options) sources

end Dialogue
