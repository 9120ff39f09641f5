import Dialogue.Proofs.Plan

/-!
# Performing actions

An action does to a session what the lowering that it stands for does: it asks
the host for the blocks and variables that it names, where they are not known
yet, and then for the command. Performing never fails, names keep what they
stand for, and the kinds of a session after some actions are those that the
actions say.
-/

namespace Dialogue

variable {σ : Type} [Host σ]

-- ---------------------------------------------------------------------------
-- Steps of a session
-- ---------------------------------------------------------------------------

namespace Session

def blockOf (session : Session σ) (name : String) : BlockId :=
  (session.blocks.resolve name session.ledger).1

def withBlock (session : Session σ) (name : String) : Session σ :=
  { session with
    blocks := (session.blocks.resolve name session.ledger).2.1
    ledger := (session.blocks.resolve name session.ledger).2.2 }

def variableOf (session : Session σ) (name : String) (kind : Kind) : Declaration :=
  (session.vars.resolve name kind session.ledger).1

def withVariable (session : Session σ) (name : String) (kind : Kind) : Session σ :=
  { session with
    vars := (session.vars.resolve name kind session.ledger).2.1
    ledger := (session.vars.resolve name kind session.ledger).2.2 }

def withCommand (session : Session σ) (block : BlockId) (command : Command) : Session σ :=
  { session with ledger := session.ledger.emit block command }

omit [Host σ] in
def withNote (session : Session σ) (event : LogEvent) : Session σ :=
  { session with ledger := session.ledger.note event }

omit [Host σ] in
def withDiagnostic (session : Session σ) (error : CompileError) : Session σ :=
  { session with
    ledger := session.ledger.note (.skippingStatement session.current error.message)
    diagnostics := session.diagnostics.push ⟨session.current, error.message⟩ }

omit [Host σ] in
def withStart (session : Session σ) (name : String) (statements : Nat) : Session σ :=
  { session with
    started := name :: session.started
    current := name
    ledger := session.ledger.note (.compilingNode name statements) }

omit [Host σ] in
def kinds (session : Session σ) : Kinds := session.vars.kind?

end Session

namespace NamedCommand

def resolve (session : Session σ) : NamedCommand → Command
  | .say text => .say text
  | .menu text target => .menu text (session.blockOf target)
  | .call target => .call (session.blockOf target)
  | .set operator name value => .set operator (session.variableOf name value.kind).id value
  | .ifThen ⟨operator, name, value⟩ =>
    .ifThen ⟨operator, (session.variableOf name value.kind).id, value⟩
  | .elseIf ⟨operator, name, value⟩ =>
    .elseIf ⟨operator, (session.variableOf name value.kind).id, value⟩
  | .otherwise => .otherwise
  | .endIf => .endIf
  | .wait seconds => .wait seconds

def declare (session : Session σ) : NamedCommand → Session σ
  | .menu _ target | .call target => session.withBlock target
  | .set _ name value | .ifThen ⟨_, name, value⟩ | .elseIf ⟨_, name, value⟩ =>
    session.withVariable name value.kind
  | _ => session

theorem declare_cases (command : NamedCommand) (session : Session σ) :
    command.declare session = session ∨
      (∃ name, command.declare session = session.withBlock name) ∨
      ∃ name kind, command.declare session = session.withVariable name kind := by
  cases command with
  | menu text target => exact .inr (.inl ⟨target, rfl⟩)
  | call target => exact .inr (.inl ⟨target, rfl⟩)
  | set operator name value => exact .inr (.inr ⟨name, value.kind, rfl⟩)
  | ifThen check => exact .inr (.inr ⟨check.name, check.value.kind, rfl⟩)
  | elseIf check => exact .inr (.inr ⟨check.name, check.value.kind, rfl⟩)
  | _ => exact .inl rfl

end NamedCommand

namespace Action

def perform (session : Session σ) : Action → Session σ
  | .mention name => session.withBlock name
  | .start name statements => session.withStart name statements
  | .emit target command =>
    let opened := session.withBlock target
    (command.declare opened).withCommand (session.blockOf target) (command.resolve opened)
  | .ignore raw => session.withNote (.ignoringDirective raw)
  | .skip error => session.withDiagnostic error
  | .finish script =>
    session.withNote (.compiledScript script session.blocks.size session.vars.size
      session.diagnostics.size)

end Action

def Session.perform (session : Session σ) (actions : List Action) : Session σ :=
  actions.foldl Action.perform session

theorem Session.perform_cons (session : Session σ) (action : Action) (rest : List Action) :
    session.perform (action :: rest) = (action.perform session).perform rest := rfl

theorem Session.perform_append (session : Session σ) (first rest : List Action) :
    session.perform (first ++ rest) = (session.perform first).perform rest :=
  List.foldl_append

/-- What becomes of a session under a plan. -/
def Plan.run (plan : Plan) : Lowering σ Unit := fun session =>
  match plan.failure with
  | none => .ok () (session.perform plan.actions)
  | some error => .error error (session.perform plan.actions)


-- ---------------------------------------------------------------------------
-- Names keep what they stand for
-- ---------------------------------------------------------------------------

theorem VariableRegistry.kind?_resolve (vars : VariableRegistry) (name : String) (kind : Kind)
    (ledger : Ledger σ) :
    (vars.resolve name kind ledger).2.1.kind? = Kinds.declare vars.kind? name kind := by
  funext other
  unfold Kinds.declare resolve kind?
  cases h : vars.find? name with
  | none =>
    by_cases hn : name = other
    · subst hn
      simp [h]
    · simp [hn]
  | some found =>
    by_cases hn : name = other
    · subst hn
      simp [h]
    · simp [hn]

namespace Session

theorem blockOf_of_find? {session : Session σ} (h : session.blocks.find? name = some block) :
    session.blockOf name = block := by
  simp [blockOf, BlockRegistry.resolve, h]

theorem withBlock_of_find? {session : Session σ} (h : session.blocks.find? name = some block) :
    session.withBlock name = session := by
  simp [withBlock, BlockRegistry.resolve, h]

theorem find?_withBlock (session : Session σ) (name other : String) :
    (session.withBlock name).blocks.find? other =
      if name = other then some (session.blockOf name) else session.blocks.find? other := by
  unfold withBlock blockOf BlockRegistry.resolve
  cases h : session.blocks.find? name with
  | none => simp
  | some block =>
    by_cases hn : name = other
    · subst hn
      simp [h]
    · simp [hn]

theorem find?_withBlock_self (session : Session σ) (name : String) :
    (session.withBlock name).blocks.find? name = some (session.blockOf name) :=
  (find?_withBlock session name name).trans (if_pos rfl)

theorem variableOf_of_find? {session : Session σ} (h : session.vars.find? name = some found)
    (kind : Kind) : session.variableOf name kind = found := by
  simp [variableOf, VariableRegistry.resolve, h]

theorem withVariable_of_find? {session : Session σ} (h : session.vars.find? name = some found)
    (kind : Kind) : session.withVariable name kind = session := by
  simp [withVariable, VariableRegistry.resolve, h]

theorem find?_withVariable (session : Session σ) (name : String) (kind : Kind) (other : String) :
    (session.withVariable name kind).vars.find? other =
      if name = other then some (session.variableOf name kind) else session.vars.find? other := by
  unfold withVariable variableOf VariableRegistry.resolve
  cases h : session.vars.find? name with
  | none => simp
  | some found =>
    by_cases hn : name = other
    · subst hn
      simp [h]
    · simp [hn]

theorem find?_withVariable_self (session : Session σ) (name : String) (kind : Kind) :
    (session.withVariable name kind).vars.find? name = some (session.variableOf name kind) :=
  (find?_withVariable session name kind name).trans (if_pos rfl)

theorem kinds_withVariable (session : Session σ) (name : String) (kind : Kind) :
    (session.withVariable name kind).kinds = session.kinds.declare name kind :=
  session.vars.kind?_resolve name kind session.ledger

end Session

theorem Session.find?_withBlock_of_find? {session : Session σ}
    (h : session.blocks.find? name = some block) (other : String) :
    (session.withBlock other).blocks.find? name = some block := by
  rw [find?_withBlock]
  split
  · rename_i hn
    subst hn
    rw [blockOf_of_find? h]
  · exact h

theorem NamedCommand.find?_declare {session : Session σ}
    (h : session.blocks.find? name = some block) (command : NamedCommand) :
    (command.declare session).blocks.find? name = some block := by
  cases command with
  | menu text target => exact Session.find?_withBlock_of_find? h target
  | call target => exact Session.find?_withBlock_of_find? h target
  | _ => exact h

theorem Action.find?_perform {session : Session σ} (h : session.blocks.find? name = some block)
    (action : Action) : (action.perform session).blocks.find? name = some block := by
  cases action with
  | mention target => exact Session.find?_withBlock_of_find? h target
  | emit target command =>
    exact command.find?_declare (Session.find?_withBlock_of_find? h target)
  | _ => exact h

theorem Session.vars_find?_withVariable {session : Session σ}
    (h : session.vars.find? name = some found) (other : String) (kind : Kind) :
    (session.withVariable other kind).vars.find? name = some found := by
  rw [find?_withVariable]
  split
  · rename_i hn
    subst hn
    rw [variableOf_of_find? h]
  · exact h

theorem Action.vars_find?_perform {session : Session σ} (h : session.vars.find? name = some found)
    (action : Action) : (action.perform session).vars.find? name = some found := by
  cases action with
  | emit target command =>
    have hopen : (session.withBlock target).vars.find? name = some found := h
    cases command with
    | set operator name value => exact Session.vars_find?_withVariable hopen name value.kind
    | ifThen check => exact Session.vars_find?_withVariable hopen check.name check.value.kind
    | elseIf check => exact Session.vars_find?_withVariable hopen check.name check.value.kind
    | _ => exact h
  | _ => exact h

theorem Action.options_perform (session : Session σ) (action : Action) :
    (action.perform session).options = session.options := by
  cases action with
  | emit target command => cases command <;> rfl
  | _ => rfl

theorem Action.kinds_perform (session : Session σ) (action : Action) :
    (action.perform session).kinds = action.kinds session.kinds := by
  cases action with
  | emit target command =>
    cases command with
    | set operator name value => exact Session.kinds_withVariable _ name value.kind
    | ifThen check => exact Session.kinds_withVariable _ check.name check.value.kind
    | elseIf check => exact Session.kinds_withVariable _ check.name check.value.kind
    | _ => rfl
  | _ => rfl

theorem Action.started_perform (session : Session σ) (action : Action) :
    (action.perform session).started = action.started session.started := by
  cases action with
  | emit target command => cases command <;> rfl
  | _ => rfl

namespace Session

variable (session : Session σ) (actions : List Action)

theorem find?_perform {session : Session σ} (h : session.blocks.find? name = some block) :
    (session.perform actions).blocks.find? name = some block := by
  induction actions generalizing session with
  | nil => exact h
  | cons action rest ih => exact ih (action.find?_perform h)

theorem vars_find?_perform {session : Session σ} (h : session.vars.find? name = some found) :
    (session.perform actions).vars.find? name = some found := by
  induction actions generalizing session with
  | nil => exact h
  | cons action rest ih => exact ih (action.vars_find?_perform h)

@[simp] theorem options_perform : (session.perform actions).options = session.options := by
  induction actions generalizing session with
  | nil => rfl
  | cons action rest ih => exact (ih _).trans (action.options_perform session)

theorem kinds_perform : (session.perform actions).kinds = session.kinds.after actions := by
  induction actions generalizing session with
  | nil => rfl
  | cons action rest ih =>
    rw [Kinds.after_cons, ← Action.kinds_perform]
    exact ih (action.perform session)

theorem started_perform :
    (session.perform actions).started = actions.foldl Action.started session.started := by
  induction actions generalizing session with
  | nil => rfl
  | cons action rest ih =>
    rw [List.foldl_cons, ← Action.started_perform]
    exact ih (action.perform session)

end Session

end Dialogue
