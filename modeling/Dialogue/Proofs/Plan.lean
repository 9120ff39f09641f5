import Dialogue.Compilation

/-!
# Plans

What a lowering does, said without a host: a list of actions that speak of
blocks and variables by name, and perhaps the error that ends it. Which actions
these are depends on the script, on the policy and on the kinds that names are
declared with so far, and on nothing that a host answers.

`Plan.statement` and its companions follow the lowering of statements case by
case. That lowering does what its plan says is proved in `Proofs.Simulation`.
-/

namespace Dialogue

inductive NamedCommand
  | say (text : String)
  | menu (text target : String)
  | call (target : String)
  | set (operator : SetOperator) (name : String) (value : Literal)
  | ifThen (check : Check)
  | elseIf (check : Check)
  | otherwise
  | endIf
  | wait (seconds : Nat)
  deriving DecidableEq, Repr

def NamedCommand.marker (first : Bool) : Option Check → NamedCommand
  | none => .otherwise
  | some check => if first then .ifThen check else .elseIf check

-- ---------------------------------------------------------------------------
-- Kinds
-- ---------------------------------------------------------------------------

abbrev Kinds := String → Option Kind

namespace Kinds

def none : Kinds := fun _ => .none

/-- A name that is declared keeps its kind. -/
def declare (kinds : Kinds) (name : String) (kind : Kind) : Kinds :=
  fun other => (kinds other).or (if name = other then some kind else .none)

def afterCommand (kinds : Kinds) : NamedCommand → Kinds
  | .set _ name value => kinds.declare name value.kind
  | .ifThen check | .elseIf check => kinds.declare check.name check.value.kind
  | _ => kinds

def check (kinds : Kinds) (policy : MismatchPolicy) (comparison : Comparison) :
    Except CompileError Check := do
  let some operator := CompareOperator.ofFunction? comparison.function
    | throw (.unknownComparison comparison.function)
  let literal ← comparison.value.literal
  let value ← conform comparison.name (kinds comparison.name) policy literal
  pure ⟨operator, comparison.name, value⟩

/-- The comparisons of a branch, each declaring its variable for the next. -/
def checks (policy : MismatchPolicy) :
    Kinds → List Clause → Except CompileError (List (Option Check))
  | _, [] => pure []
  | kinds, .mk .none _ :: rest => do
    pure (.none :: (← checks policy kinds rest))
  | kinds, .mk (some comparison) _ :: rest => do
    let found ← kinds.check policy comparison
    pure (some found :: (← checks policy (kinds.declare found.name found.value.kind) rest))

end Kinds

-- ---------------------------------------------------------------------------
-- Actions
-- ---------------------------------------------------------------------------

/-- One thing that a lowering does to its session. -/
inductive Action
  /-- Asks for the block of a name. -/
  | mention (name : String)
  /-- Begins a node of so many statements. -/
  | start (name : String) (statements : Nat)
  | emit (target : String) (command : NamedCommand)
  | ignore (raw : String)
  /-- Gives a statement up. -/
  | skip (error : CompileError)
  | finish (script : String)
  deriving DecidableEq, Repr

namespace Action

def kinds (before : Kinds) : Action → Kinds
  | .emit _ command => before.afterCommand command
  | _ => before

def started (before : List String) : Action → List String
  | .start name _ => name :: before
  | _ => before

def emission? : Action → Option (String × NamedCommand)
  | .emit target command => some (target, command)
  | _ => none

def emissions (actions : List Action) : List (String × NamedCommand) :=
  actions.filterMap emission?

@[simp] theorem emissions_nil : emissions [] = [] := rfl

@[simp] theorem emissions_append (first rest : List Action) :
    emissions (first ++ rest) = emissions first ++ emissions rest :=
  List.filterMap_append

@[simp] theorem emissions_emit (target : String) (command : NamedCommand) (rest : List Action) :
    emissions (.emit target command :: rest) = (target, command) :: emissions rest := rfl

@[simp] theorem emissions_mention (name : String) (rest : List Action) :
    emissions (.mention name :: rest) = emissions rest := rfl

@[simp] theorem emissions_start (name : String) (statements : Nat) (rest : List Action) :
    emissions (.start name statements :: rest) = emissions rest := rfl

@[simp] theorem emissions_ignore (raw : String) (rest : List Action) :
    emissions (.ignore raw :: rest) = emissions rest := rfl

@[simp] theorem emissions_finish (script : String) (rest : List Action) :
    emissions (.finish script :: rest) = emissions rest := rfl

@[simp] theorem emissions_skip (error : CompileError) (rest : List Action) :
    emissions (.skip error :: rest) = emissions rest := rfl

end Action

def Kinds.after (kinds : Kinds) (actions : List Action) : Kinds := actions.foldl Action.kinds kinds

theorem Kinds.after_cons (kinds : Kinds) (action : Action) (rest : List Action) :
    kinds.after (action :: rest) = (action.kinds kinds).after rest := rfl

theorem Kinds.after_append (kinds : Kinds) (first rest : List Action) :
    kinds.after (first ++ rest) = (kinds.after first).after rest :=
  List.foldl_append

-- ---------------------------------------------------------------------------
-- Declarations only grow
-- ---------------------------------------------------------------------------

namespace Kinds

def Grows (before after : Kinds) : Prop :=
  ∀ name kind, before name = some kind → after name = some kind

theorem Grows.trans (hfirst : Grows first second) (hsecond : Grows second third) :
    Grows first third :=
  fun name kind h => hsecond name kind (hfirst name kind h)

theorem grows_declare (kinds : Kinds) (name : String) (kind : Kind) :
    kinds.Grows (kinds.declare name kind) := by
  intro other found h
  simp [declare, h]

theorem grows_afterCommand (kinds : Kinds) (command : NamedCommand) :
    kinds.Grows (kinds.afterCommand command) := by
  cases command with
  | set operator name value => exact kinds.grows_declare name value.kind
  | ifThen check => exact kinds.grows_declare check.name check.value.kind
  | elseIf check => exact kinds.grows_declare check.name check.value.kind
  | _ => exact fun _ _ h => h

theorem grows_after (kinds : Kinds) (actions : List Action) :
    kinds.Grows (kinds.after actions) := by
  induction actions generalizing kinds with
  | nil => exact fun _ _ h => h
  | cons action rest ih =>
    rw [after_cons]
    cases action with
    | emit target command => exact (kinds.grows_afterCommand command).trans (ih _)
    | _ => exact ih kinds

/-- Whatever is declared in `checked` is declared, alike or not. -/
def Covers (kinds checked : Kinds) : Prop := ∀ name, kinds name = .none → checked name = .none

variable {kinds checked : Kinds}

theorem covers_refl (kinds : Kinds) : kinds.Covers kinds := fun _ h => h

theorem Covers.declare (h : kinds.Covers checked) (name : String) (kind : Kind) :
    (kinds.declare name kind).Covers (checked.declare name kind) := by
  intro other hnew
  obtain ⟨hother, hname⟩ := Option.or_eq_none_iff.mp hnew
  exact Option.or_eq_none_iff.mpr ⟨h other hother, hname⟩

theorem Covers.afterCommand (h : kinds.Covers checked) (command : NamedCommand) :
    (kinds.afterCommand command).Covers (checked.afterCommand command) := by
  cases command with
  | set operator name value => exact h.declare name value.kind
  | ifThen check => exact h.declare check.name check.value.kind
  | elseIf check => exact h.declare check.name check.value.kind
  | _ => exact h

theorem Covers.after (h : kinds.Covers checked) (actions : List Action) :
    (kinds.after actions).Covers checked := by
  intro name hnew
  cases hold : kinds name with
  | none => exact h name hold
  | some kind =>
    rw [grows_after kinds actions name kind hold] at hnew
    cases hnew

end Kinds

-- ---------------------------------------------------------------------------
-- Plans
-- ---------------------------------------------------------------------------

/-- Actions, and the error that comes after them if there is one. -/
structure Plan where
  actions : List Action := []
  failure : Option CompileError := none

namespace Plan

def emit (target : String) (command : NamedCommand) : Plan := { actions := [.emit target command] }

def fail (error : CompileError) : Plan := { failure := some error }

def andThen (first next : Plan) : Plan :=
  match first.failure with
  | some _ => first
  | none => ⟨first.actions ++ next.actions, next.failure⟩

/-- Gives a statement up if its plan fails for a reason that is not fatal. -/
def recovering (plan : Plan) : Plan :=
  match plan.failure with
  | some error => if error.isFatal then plan else { actions := plan.actions ++ [.skip error] }
  | none => plan

def directive (target raw : String) : Plan :=
  match Directive.parse raw with
  | .ok (some (.wait seconds)) => .emit target (.wait seconds)
  | .ok none => { actions := [.ignore raw] }
  | .error error => .fail error

def assignment (policy : MismatchPolicy) (kinds : Kinds) (operation name : String)
    (value : Operand) : Except CompileError NamedCommand := do
  let some operator := SetOperator.ofToken? operation | throw (.unknownOperator operation)
  let literal ← value.literal
  let literal ← conform name (kinds name) policy literal
  pure (.set operator name literal)

mutual

def statement (policy : MismatchPolicy) (target : String) (kinds : Kinds) : Statement → Plan
  | .line text => .emit target (.say text)
  | .jump destination => .emit target (.call destination)
  | .directive raw => directive target raw
  | .choices options => choices policy target kinds options
  | .branch branches =>
    match Kinds.checks policy kinds branches with
    | .ok found => (clauses policy target true kinds branches found).andThen (.emit target .endIf)
    | .error error => .fail error
  | .assign operation name value =>
    match assignment policy kinds operation name value with
    | .ok command => .emit target command
    | .error error => .fail error
  | .unsupported => {}

def statements (policy : MismatchPolicy) (target : String) (kinds : Kinds) : List Statement → Plan
  | [] => {}
  | first :: rest =>
    let plan := (statement policy target kinds first).recovering
    plan.andThen (statements policy target (kinds.after plan.actions) rest)

def choices (policy : MismatchPolicy) (target : String) (kinds : Kinds) : List Choice → Plan
  | [] => {}
  | .mk label body :: rest =>
    let plan := (emit target (.menu label label)).andThen (statements policy label kinds body)
    plan.andThen (choices policy target (kinds.after plan.actions) rest)

def clauses (policy : MismatchPolicy) (target : String) (first : Bool) (kinds : Kinds) :
    List Clause → List (Option Check) → Plan
  | .mk _ body :: rest, check :: more =>
    let opening := NamedCommand.marker first check
    let plan := (emit target opening).andThen
      (statements policy target (kinds.afterCommand opening) body)
    plan.andThen (clauses policy target false (kinds.after plan.actions) rest more)
  | _, _ => {}

end

/-- A node that has been started on before is only mentioned. -/
def node (policy : MismatchPolicy) (kinds : Kinds) (started : List String) (source : Node) : Plan :=
  if source.name ∈ started then { actions := [.mention source.name] }
  else
    Plan.andThen { actions := [.mention source.name, .start source.name source.statements.length] }
      (statements policy source.name kinds source.statements)

def nodes (policy : MismatchPolicy) (kinds : Kinds) (started : List String) : List Node → Plan
  | [] => {}
  | source :: rest =>
    let plan := node policy kinds started source
    plan.andThen (nodes policy (kinds.after plan.actions)
      (plan.actions.foldl Action.started started) rest)

-- ---------------------------------------------------------------------------
-- Actions inside a node
-- ---------------------------------------------------------------------------

theorem mem_andThen {first next : Plan} (h : action ∈ (first.andThen next).actions) :
    action ∈ first.actions ∨ action ∈ next.actions := by
  unfold andThen at h
  split at h
  · exact .inl h
  · exact List.mem_append.mp h

theorem mem_recovering {plan : Plan} (h : action ∈ plan.recovering.actions) :
    action ∈ plan.actions ∨ ∃ error, action = .skip error := by
  unfold recovering at h
  split at h
  · rename_i error _
    split at h
    · exact .inl h
    · rcases List.mem_append.mp h with hmem | hskip
      · exact .inl hmem
      · exact .inr ⟨error, List.mem_singleton.mp hskip⟩
  · exact .inl h

theorem after_recovering (kinds : Kinds) (plan : Plan) :
    kinds.after plan.recovering.actions = kinds.after plan.actions := by
  unfold recovering
  split
  · split
    · rfl
    · exact Kinds.after_append kinds plan.actions _
  · rfl

end Plan

/-- What lowering a statement can do: it begins no node and ends no script. -/
def Action.Inner : Action → Prop
  | .emit _ _ | .ignore _ | .skip _ => True
  | _ => False

namespace Plan

theorem started_of_inner {actions : List Action} (h : ∀ action ∈ actions, action.Inner)
    (started : List String) : actions.foldl Action.started started = started := by
  induction actions with
  | nil => rfl
  | cons action rest ih =>
    have hfirst := h action List.mem_cons_self
    have hrest := ih fun other hother => h other (List.mem_cons_of_mem _ hother)
    cases action with
    | emit target command => exact hrest
    | ignore raw => exact hrest
    | skip error => exact hrest
    | _ => exact hfirst.elim

end Plan

def Script.others (script : Script) (entry : String) : List Node :=
  (script.nodes.entries.filter fun (key, _) => key ≠ entry).map Prod.snd

def Plan.script (options : Options) (kinds : Kinds) (started : List String) (source : Script) :
    Plan :=
  match source.nodes.find? options.entry with
  | some first =>
    (nodes options.mismatch kinds started (first :: source.others options.entry)).andThen
      { actions := [.finish source.name] }
  | none => .fail (.missingEntry options.entry)

def Script.plan (script : Script) (options : Options) : Plan := Plan.script options .none [] script

end Dialogue
