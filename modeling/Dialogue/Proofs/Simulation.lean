import Dialogue.Proofs.Performance

/-!
# Lowering performs its plan

Whatever the host is, lowering a statement into a block does to the session
exactly what the statement's plan says, and fails exactly when the plan does
(`Lowering.statement_eq_run`); so does compiling a node (`Lowering.node_eq_run`)
and compiling a script (`Lowering.script_eq_run`). Everything that is proved
about plans is thereby proved about lowering.
-/

namespace Dialogue

variable {σ : Type} [Host σ]

-- ---------------------------------------------------------------------------
-- Running lowerings and plans
-- ---------------------------------------------------------------------------

omit [Host σ] in
theorem Lowering.bind_ok {first : Lowering σ α} {next : α → Lowering σ β}
    (h : first session = .ok a after) : (first >>= next) session = next a after := by
  show EStateM.bind first next session = _
  simp [EStateM.bind, h]

omit [Host σ] in
theorem Lowering.bind_error {first : Lowering σ α} {next : α → Lowering σ β}
    (h : first session = .error error after) : (first >>= next) session = .error error after := by
  show EStateM.bind first next session = _
  simp [EStateM.bind, h]

omit [Host σ] in
theorem Lowering.bind_congr_run {first second : Lowering σ α} {next : α → Lowering σ β}
    (h : first before = second after) : (first >>= next) before = (second >>= next) after := by
  show EStateM.bind first next before = EStateM.bind second next after
  simp [EStateM.bind, h]

namespace Plan

theorem run_of_failure_eq_none {plan : Plan} (h : plan.failure = none) (session : Session σ) :
    plan.run session = .ok () (session.perform plan.actions) := by
  simp [run, h]

theorem run_of_failure_eq_some {plan : Plan} (h : plan.failure = some error) (session : Session σ) :
    plan.run session = .error error (session.perform plan.actions) := by
  simp [run, h]

theorem run_andThen {lowering rest : Lowering σ Unit} {before session : Session σ}
    {first next : Plan} (hfirst : lowering before = first.run session)
    (hnext : rest (session.perform first.actions) = next.run (session.perform first.actions)) :
    (do lowering; rest) before = (first.andThen next).run session := by
  cases hf : first.failure with
  | none =>
    rw [run_of_failure_eq_none hf] at hfirst
    rw [Lowering.bind_ok hfirst, hnext]
    simp [andThen, hf, run, Session.perform_append]
  | some error =>
    rw [run_of_failure_eq_some hf] at hfirst
    rw [Lowering.bind_error hfirst]
    simp [andThen, hf, run]

theorem andThen_assoc (first next last : Plan) :
    (first.andThen next).andThen last = first.andThen (next.andThen last) := by
  obtain ⟨firstActions, firstFailure⟩ := first
  obtain ⟨nextActions, nextFailure⟩ := next
  cases firstFailure with
  | some error => rfl
  | none =>
    cases nextFailure with
    | some error => rfl
    | none => simp [andThen]

theorem run_recovering (plan : Plan) (session : Session σ) :
    Lowering.recovering plan.run session = plan.recovering.run session := by
  unfold Lowering.recovering recovering
  cases hf : plan.failure with
  | none => simp [run, hf]
  | some error =>
    by_cases hfatal : error.isFatal
    · simp [run, hf, hfatal]
    · simp only [run, hf, hfatal, Bool.false_eq_true, ↓reduceIte, Session.perform_append]
      rfl

theorem perform_emit {session : Session σ} (h : session.blocks.find? name = some block)
    (command : NamedCommand) :
    session.perform (emit name command).actions =
      (command.declare session).withCommand block (command.resolve session) := by
  simp only [emit, Session.perform, List.foldl_cons, List.foldl_nil, Action.perform,
    Session.withBlock_of_find? h, Session.blockOf_of_find? h]

theorem run_emit {session : Session σ} (h : session.blocks.find? name = some block)
    (command : NamedCommand) :
    (emit name command).run session =
      .ok () ((command.declare session).withCommand block (command.resolve session)) := by
  rw [run_of_failure_eq_none rfl, perform_emit h]

end Plan

-- ---------------------------------------------------------------------------
-- Conditions
-- ---------------------------------------------------------------------------

/-- The kinds that a check goes by: those of the session, then the pending ones. -/
def Kinds.with (vars : VariableRegistry) (pending : Table Kind) : Kinds :=
  fun name => (vars.kind? name).or (pending.find? name)

theorem Kinds.with_insert (vars : VariableRegistry) (pending : Table Kind) (name : String)
    (kind : Kind) :
    Kinds.with vars (if pending.contains name then pending else pending.insert name kind) =
      (Kinds.with vars pending).declare name kind := by
  funext other
  unfold Kinds.with Kinds.declare
  cases hp : pending.find? name with
  | none =>
    by_cases hn : name = other
    · subst hn
      simp [Table.contains, hp]
    · simp [Table.contains, hp, hn]
  | some pendingKind =>
    by_cases hn : name = other
    · subst hn
      cases hv : vars.kind? name <;> simp [Table.contains, hp, hv]
    · simp [Table.contains, hp, hn]

theorem Check.ofComparison_eq (vars : VariableRegistry) (policy : MismatchPolicy)
    (pending : Table Kind) (comparison : Comparison) :
    Check.ofComparison vars policy pending comparison =
      ((Kinds.with vars pending).check policy comparison).map fun found =>
        (found, if pending.contains found.name then pending
          else pending.insert found.name found.value.kind) := by
  unfold Check.ofComparison Kinds.check Kinds.with
  cases CompareOperator.ofFunction? comparison.function with
  | none => rfl
  | some operator =>
    cases comparison.value.literal with
    | error error => rfl
    | ok literal =>
      simp only [bind, Except.bind, pure, Except.pure]
      cases conform comparison.name
        ((vars.kind? comparison.name).or (pending.find? comparison.name)) policy literal <;> rfl

/-- The up-front checks of a branch are the checks in sequence, with the pending
kinds in the place of variables that do not exist yet. -/
theorem Check.ofClauses_eq (vars : VariableRegistry) (policy : MismatchPolicy)
    (pending : Table Kind) (clauses : List Clause) :
    Check.ofClauses vars policy pending clauses =
      Kinds.checks policy (Kinds.with vars pending) clauses := by
  induction clauses generalizing pending with
  | nil => rfl
  | cons clause rest ih =>
    obtain ⟨condition, body⟩ := clause
    cases condition with
    | none =>
      simp only [Check.ofClauses, Kinds.checks, ih]
    | some comparison =>
      simp only [Check.ofClauses, Kinds.checks, Check.ofComparison_eq]
      cases (Kinds.with vars pending).check policy comparison with
      | error error => rfl
      | ok found =>
        simp only [bind, Except.bind, Except.map, ih, Kinds.with_insert]

omit [Host σ] in
theorem Lowering.checks_eq (clauses : List Clause) (session : Session σ) :
    Lowering.checks clauses session =
      Lowering.ofExcept (Kinds.checks session.options.mismatch session.kinds clauses) session := by
  have hwith : Kinds.with session.vars .empty = session.kinds := by
    funext name
    simp [Kinds.with, Session.kinds]
  rw [← hwith, ← Check.ofClauses_eq]
  rfl

-- ---------------------------------------------------------------------------
-- Statements
-- ---------------------------------------------------------------------------

namespace Lowering

theorem jump_eq_run {session : Session σ} (h : session.blocks.find? name = some block)
    (destination : String) :
    jump block destination session = (Plan.emit name (.call destination)).run session := by
  rw [Plan.run_emit h]
  rfl

theorem directive_eq_run {session : Session σ} (h : session.blocks.find? name = some block)
    (raw : String) : directive block raw session = (Plan.directive name raw).run session := by
  unfold directive Plan.directive
  cases hp : Directive.parse raw with
  | error error => rfl
  | ok parsed =>
    cases parsed with
    | none => rfl
    | some found =>
      obtain ⟨seconds⟩ := found
      rw [Plan.run_emit h]
      rfl

theorem bindVariable_eq (name : String) (literal : Literal) (session : Session σ) :
    bindVariable name literal session =
      match conform name (session.kinds name) session.options.mismatch literal with
      | .ok literal =>
        .ok (session.variableOf name literal.kind, literal) (session.withVariable name literal.kind)
      | .error error => .error error session := by
  unfold bindVariable VariableRegistry.bind Session.kinds
  show EStateM.bind (ofExcept _) _ session = _
  cases conform name (session.vars.kind? name) session.options.mismatch literal <;> rfl

theorem assign_eq_run {session : Session σ} (h : session.blocks.find? target = some block)
    (operation name : String) (value : Operand) :
    assign block operation name value session =
      (Plan.statement session.options.mismatch target session.kinds
        (.assign operation name value)).run session := by
  unfold assign Plan.statement Plan.assignment
  cases SetOperator.ofToken? operation with
  | none => rfl
  | some operator =>
    cases value.literal with
    | error error => rfl
    | ok literal =>
      show EStateM.bind (bindVariable name literal) _ session = _
      simp only [EStateM.bind, bindVariable_eq, bind, Except.bind]
      cases conform name (session.kinds name) session.options.mismatch literal with
      | error error => rfl
      | ok fitted =>
        show _ = (Plan.emit target (.set operator name fitted)).run session
        rw [Plan.run_emit h]
        rfl

theorem marker_eq_run {session : Session σ} (h : session.blocks.find? name = some block)
    (first : Bool) (check : Option Check) :
    (do emit block (← marker first check)) session =
      (Plan.emit name (.marker first check)).run session := by
  rw [Plan.run_emit h]
  cases check with
  | none => rfl
  | some check => cases first <;> rfl

mutual

theorem statement_eq_run {session : Session σ} (h : session.blocks.find? name = some block) :
    ∀ source : Statement, statement block source session =
      (Plan.statement session.options.mismatch name session.kinds source).run session
  | .line text => by
    simp only [statement, Plan.statement]
    rw [Plan.run_emit h]
    rfl
  | .jump destination => by
    simp only [statement, Plan.statement]
    exact jump_eq_run h destination
  | .directive raw => by
    simp only [statement, Plan.statement]
    exact directive_eq_run h raw
  | .choices options => by
    simp only [statement, Plan.statement]
    exact choices_eq_run h options
  | .branch branches => by
    simp only [statement, Plan.statement]
    cases hc : Kinds.checks session.options.mismatch session.kinds branches with
    | error error =>
      have hrun : checks branches session = .error error session := by
        rw [checks_eq, hc]
        rfl
      exact bind_error hrun
    | ok found =>
      have hrun : checks branches session = .ok found session := by
        rw [checks_eq, hc]
        rfl
      rw [bind_ok hrun]
      refine Plan.run_andThen (clauses_eq_run h true branches found) ?_
      rw [Plan.run_emit (Session.find?_perform _ h)]
      rfl
  | .assign operation name value => by
    simp only [statement]
    exact assign_eq_run h operation name value
  | .unsupported => by
    simp only [statement, Plan.statement]
    rfl

theorem statements_eq_run {session : Session σ} (h : session.blocks.find? name = some block) :
    ∀ source : List Statement, statements block source session =
      (Plan.statements session.options.mismatch name session.kinds source).run session
  | [] => by
    simp only [statements, Plan.statements]
    rfl
  | first :: rest => by
    simp only [statements, Plan.statements]
    have hfirst : recovering (statement block first) session =
        (Plan.statement session.options.mismatch name session.kinds first).recovering.run
          session := by
      rw [← Plan.run_recovering]
      unfold recovering
      rw [statement_eq_run h first]
    refine Plan.run_andThen hfirst ?_
    rw [statements_eq_run (Session.find?_perform _ h) rest, Session.options_perform,
      Session.kinds_perform]

theorem choices_eq_run {session : Session σ} (h : session.blocks.find? name = some block) :
    ∀ source : List Choice, choices block source session =
      (Plan.choices session.options.mismatch name session.kinds source).run session
  | [] => by
    simp only [choices, Plan.choices]
    rfl
  | .mk label body :: rest => by
    simp only [choices, Plan.choices]
    have hblock : blockFor label session = .ok (session.blockOf label) (session.withBlock label) :=
      rfl
    rw [bind_ok hblock, Plan.andThen_assoc]
    have hmenu : emit block (.menu label (session.blockOf label)) (session.withBlock label) =
        (Plan.emit name (.menu label label)).run session := by
      rw [Plan.run_emit h]
      rfl
    refine Plan.run_andThen hmenu ?_
    -- The menu entry has made the block of its label, so the body goes there.
    have hlabel :
        (session.perform (Plan.emit name (.menu label label)).actions).blocks.find? label =
          some (session.blockOf label) := by
      rw [Plan.perform_emit h]
      show (session.withBlock label).blocks.find? label = _
      rw [Session.find?_withBlock_self]
    refine Plan.run_andThen ?_ ?_
    · rw [statements_eq_run hlabel body, Session.options_perform, Session.kinds_perform]
      rfl
    · rw [choices_eq_run (Session.find?_perform _ (Session.find?_perform _ h)) rest]
      simp only [Session.options_perform, Session.kinds_perform]
      rfl

theorem clauses_eq_run {session : Session σ} (h : session.blocks.find? name = some block)
    (first : Bool) :
    ∀ (source : List Clause) (found : List (Option Check)),
      clauses block first source found session =
        (Plan.clauses session.options.mismatch name first session.kinds source found).run session
  | .mk _ body :: rest, check :: more => by
    simp only [clauses, Plan.clauses]
    rw [Plan.andThen_assoc, ← bind_assoc]
    refine Plan.run_andThen (marker_eq_run h first check) ?_
    have hafter := Session.find?_perform (Plan.emit name (.marker first check)).actions h
    refine Plan.run_andThen ?_ ?_
    · rw [statements_eq_run hafter body, Session.options_perform, Session.kinds_perform]
      rfl
    · rw [clauses_eq_run (Session.find?_perform _ hafter) false rest more]
      simp only [Session.options_perform, Session.kinds_perform]
      rfl
  | [], _ => by
    simp only [clauses, Plan.clauses]
    rfl
  | _ :: _, [] => by
    simp only [clauses, Plan.clauses]
    rfl

end

-- ---------------------------------------------------------------------------
-- Nodes and scripts
-- ---------------------------------------------------------------------------

theorem node_eq_run (source : Node) (session : Session σ) :
    node source session =
      (do (Plan.node session.options.mismatch session.kinds session.started source).run
          pure (session.blockOf source.name) : Lowering σ BlockId) session := by
  unfold node Plan.node
  have hblock : blockFor source.name session =
      .ok (session.blockOf source.name) (session.withBlock source.name) := rfl
  have hget : (get : Lowering σ (Session σ)) (session.withBlock source.name) =
      .ok (session.withBlock source.name) (session.withBlock source.name) := rfl
  rw [bind_ok hblock, bind_ok hget]
  by_cases hs : source.name ∈ session.started
  · rw [if_pos hs, if_pos (show source.name ∈ (session.withBlock source.name).started from hs)]
    rfl
  · rw [if_neg hs, if_neg (show source.name ∉ (session.withBlock source.name).started from hs)]
    have hstart : start source (session.withBlock source.name) =
        Plan.run { actions := [.mention source.name, .start source.name source.statements.length] }
          session := rfl
    rw [← bind_assoc]
    refine bind_congr_run (Plan.run_andThen hstart ?_)
    have hfind : (session.perform [.mention source.name,
        .start source.name source.statements.length]).blocks.find? source.name =
        some (session.blockOf source.name) := by
      show (session.withBlock source.name).blocks.find? source.name = _
      rw [Session.find?_withBlock_self]
    rw [statements_eq_run hfind, Session.options_perform, Session.kinds_perform]
    rfl

theorem nodesExcept_eq_run (entry : String) (entries : List (String × Node))
    (session : Session σ) :
    nodesExcept entry entries session =
      (Plan.nodes session.options.mismatch session.kinds session.started
        ((entries.filter fun (key, _) => key ≠ entry).map Prod.snd)).run session := by
  induction entries generalizing session with
  | nil => rfl
  | cons pair rest ih =>
    obtain ⟨key, source⟩ := pair
    simp only [nodesExcept]
    by_cases hk : key = entry
    · simp only [hk, ↓reduceIte, ih]
      simp
    · simp only [hk, ↓reduceIte]
      have hnode : discard (node source) session =
          (Plan.node session.options.mismatch session.kinds session.started source).run
            session := by
        show (node source >>= fun _ => pure ()) session = _
        rw [bind_congr_run (node_eq_run source session), bind_assoc]
        simp
      have hrest := ih (session.perform (Plan.node session.options.mismatch session.kinds
        session.started source).actions)
      rw [Session.options_perform, Session.kinds_perform, Session.started_perform] at hrest
      simpa [Plan.nodes, hk] using Plan.run_andThen hnode hrest

theorem script_eq_error (session : Session σ) (source : Script)
    (h : source.nodes.find? session.options.entry = none) :
    script source session =
      .error (.missingEntry session.options.entry) session := by
  have hget : (get : Lowering σ (Session σ)) session = .ok session session := rfl
  unfold script
  rw [bind_ok hget, h]
  rfl

theorem finish_eq_run (name : String) (session : Session σ) :
    (do let now ← get
        note (.compiledScript name now.blocks.size now.vars.size now.diagnostics.size) :
      Lowering σ Unit) session = Plan.run { actions := [.finish name] } session := rfl

theorem script_eq_run (session : Session σ) (source : Script)
    (h : source.nodes.find? session.options.entry = some first) :
    script source session =
      (do (Plan.script session.options session.kinds session.started source).run
          pure (session.blockOf first.name) : Lowering σ BlockId) session := by
  have hget : (get : Lowering σ (Session σ)) session = .ok session session := rfl
  unfold script Plan.script
  rw [bind_ok hget, h]
  simp only [Plan.nodes]
  rw [bind_congr_run (node_eq_run first session), bind_assoc, Plan.andThen_assoc]
  simp only [pure_bind]
  let rest : Lowering σ Unit := do
    nodesExcept session.options.entry source.nodes.entries
    let now ← get
    note (.compiledScript source.name now.blocks.size now.vars.size now.diagnostics.size)
  have hrest (now : Session σ) : rest now =
      ((Plan.nodes now.options.mismatch now.kinds now.started
        (source.others session.options.entry)).andThen
          { actions := [.finish source.name] }).run now :=
    Plan.run_andThen (nodesExcept_eq_run _ _ now) (finish_eq_run _ _)
  let plan := Plan.node session.options.mismatch session.kinds session.started first
  have hafter := hrest (session.perform plan.actions)
  rw [Session.options_perform, Session.kinds_perform, Session.started_perform] at hafter
  rw [← bind_congr_run (Plan.run_andThen rfl hafter)]
  simp only [rest, plan, bind_assoc]

theorem script_eq_outcome (session : Session σ) (source : Script)
    (h : source.nodes.find? session.options.entry = some first) :
    script source session =
      match (Plan.script session.options session.kinds session.started source).failure with
      | none => .ok (session.blockOf first.name) (session.perform
          (Plan.script session.options session.kinds session.started source).actions)
      | some error => .error error (session.perform
          (Plan.script session.options session.kinds session.started source).actions) := by
  rw [script_eq_run session source h]
  cases hfailure : (Plan.script session.options session.kinds session.started source).failure with
  | none => exact bind_ok (Plan.run_of_failure_eq_none hfailure _)
  | some error => exact bind_error (Plan.run_of_failure_eq_some hfailure _)

end Lowering

def Script.compilation (script : Script) (options : Options) : Session Flowchart :=
  (Session.fresh { name := script.name } options).perform (script.plan options).actions

theorem Script.compile_eq (script : Script) (options : Options) :
    script.compile options =
      match (script.plan options).failure with
      | none => .ok ⟨⟨0⟩, (script.compilation options).ledger.host.listing,
          (script.compilation options).diagnostics.toList⟩
      | some error => .error error := by
  unfold compile compilation
  generalize hs : Session.fresh ({ name := script.name } : Flowchart) options = session
  have hoptions : session.options = options := by rw [← hs]; rfl
  have hplan : Plan.script session.options session.kinds session.started script =
      script.plan options := by
    rw [← hs]
    rfl
  cases hf : script.nodes.find? options.entry with
  | none =>
    have hrun := Lowering.script_eq_error session script (hoptions ▸ hf)
    simp only [hs, hrun]
    simp [plan, Plan.script, hf, Plan.fail, hoptions]
  | some first =>
    have hrun := Lowering.script_eq_outcome session script (hoptions ▸ hf)
    have hentry : session.blockOf first.name = ⟨0⟩ := by
      rw [← hs]
      rfl
    rw [hplan, hentry] at hrun
    simp only [hs, hrun]
    cases (script.plan options).failure <;> rfl

end Dialogue
