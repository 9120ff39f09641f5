import Dialogue.Proofs.Plan

/-!
# How plans are made

`Planned` relates each part of a script to its plan, with one rule for each way in
which a plan is made. `Plan.planned_statement` and its companions show that the
plans are made by these rules; this is the only place where the cases of
`Plan.statement` are gone through. What holds of all plans is proved by induction
on `Planned`, and what holds of plans that succeed by induction on `Lowered`, which
`Proofs.Success` derives from it.
-/

namespace Dialogue

theorem bind_eq_ok_iff {x : Except ε α} {f : α → Except ε β} :
    x >>= f = .ok b ↔ ∃ a, x = .ok a ∧ f a = .ok b := by
  cases x <;> simp [bind, Except.bind]

-- ---------------------------------------------------------------------------
-- Conditions that pass
-- ---------------------------------------------------------------------------

inductive Kinds.Passes (policy : MismatchPolicy) (kinds : Kinds) :
    Option Comparison → Option Check → Prop
  | always : Passes policy kinds .none .none
  | compared {comparison : Comparison} :
      CompareOperator.ofFunction? comparison.function = some operator →
      comparison.value.literal = .ok literal →
      conform comparison.name (kinds comparison.name) policy literal = .ok value →
      Passes policy kinds (some comparison) (some ⟨operator, comparison.name, value⟩)

namespace Kinds

variable {policy : MismatchPolicy} {kinds : Kinds}

theorem afterCommand_marker (kinds : Kinds) (first : Bool) (check : Check) :
    kinds.afterCommand (.marker first (some check)) =
      kinds.declare check.name check.value.kind := by
  cases first <;> rfl

theorem check_eq_ok_iff {comparison : Comparison} {found : Check} :
    kinds.check policy comparison = .ok found ↔
      kinds.Passes policy (some comparison) (some found) := by
  constructor
  · intro h
    unfold check at h
    split at h
    · rename_i operator hoperator
      simp only [bind_eq_ok_iff] at h
      obtain ⟨literal, hliteral, value, hvalue, hfound⟩ := h
      cases hfound
      exact .compared hoperator hliteral hvalue
    · cases h
  · intro h
    cases h with
    | compared hoperator hliteral hvalue =>
      simp only [check, hoperator, hliteral, bind, Except.bind, hvalue]
      rfl

/-- The conditions of a branch pass one after another, each with what those before
it compare declared. -/
theorem checks_cons_iff (first : Bool) {condition : Option Comparison} {body : List Statement}
    {rest : List Clause} {found : List (Option Check)} :
    checks policy kinds (.mk condition body :: rest) = .ok found ↔
      ∃ check more, found = check :: more ∧ kinds.Passes policy condition check ∧
        checks policy (kinds.afterCommand (.marker first check)) rest = .ok more := by
  cases condition with
  | none =>
    simp only [checks, bind_eq_ok_iff]
    constructor
    · rintro ⟨more, hmore, hfound⟩
      cases hfound
      exact ⟨.none, more, rfl, .always, hmore⟩
    · rintro ⟨check, more, rfl, ⟨⟩, hmore⟩
      exact ⟨more, hmore, rfl⟩
  | some comparison =>
    simp only [checks, bind_eq_ok_iff, check_eq_ok_iff]
    constructor
    · rintro ⟨check, hcheck, more, hmore, hfound⟩
      cases hfound
      exact ⟨some check, more, rfl, hcheck, by rwa [afterCommand_marker]⟩
    · rintro ⟨check, more, rfl, hpasses, hmore⟩
      cases hpasses with
      | compared hoperator hliteral hvalue =>
        rw [afterCommand_marker] at hmore
        exact ⟨_, .compared hoperator hliteral hvalue, more, hmore, rfl⟩

theorem checks_congr {source kept : List Clause}
    (h : kept.map Clause.condition = source.map Clause.condition) (kinds : Kinds) :
    checks policy kinds kept = checks policy kinds source := by
  induction source generalizing kept kinds with
  | nil =>
    rw [List.map_nil, List.map_eq_nil_iff] at h
    rw [h]
  | cons clause rest ih =>
    obtain ⟨condition, body⟩ := clause
    obtain ⟨⟨_, body'⟩, kept', rfl, rfl, hrest⟩ := List.map_eq_cons_iff.mp h
    rename_i condition
    simp only [Clause.condition]
    cases condition with
    | none => simp only [checks, ih hrest]
    | some comparison => simp only [checks, ih hrest]

end Kinds

-- ---------------------------------------------------------------------------
-- Statements that come to one command, or to an error
-- ---------------------------------------------------------------------------

inductive Statement.Emits (policy : MismatchPolicy) (kinds : Kinds) :
    Statement → NamedCommand → Prop
  | line : Emits policy kinds (.line text) (.say text)
  | jump : Emits policy kinds (.jump destination) (.call destination)
  | wait : Directive.parse raw = .ok (some (.wait seconds)) →
      Emits policy kinds (.directive raw) (.wait seconds)
  | assign {value : Operand} : SetOperator.ofToken? operation = some operator →
      value.literal = .ok literal → conform name (kinds name) policy literal = .ok fitted →
      Emits policy kinds (.assign operation name value) (.set operator name fitted)

/-- What is wrong with a statement is found before anything is done for it. -/
inductive Statement.Rejected (policy : MismatchPolicy) (kinds : Kinds) :
    Statement → CompileError → Prop
  | branch : Kinds.checks policy kinds branches = .error error →
      Rejected policy kinds (.branch branches) error
  | assign : Plan.assignment policy kinds operation name value = .error error →
      Rejected policy kinds (.assign operation name value) error

theorem Plan.assignment_eq_ok_iff {policy : MismatchPolicy} {kinds : Kinds}
    {operation name : String} {value : Operand} :
    assignment policy kinds operation name value = .ok command ↔
      Statement.Emits policy kinds (.assign operation name value) command := by
  constructor
  · intro h
    unfold assignment at h
    split at h
    · rename_i operator hoperator
      simp only [bind_eq_ok_iff] at h
      obtain ⟨literal, hliteral, fitted, hfitted, hcommand⟩ := h
      cases hcommand
      exact .assign hoperator hliteral hfitted
    · cases h
  · intro h
    cases h with
    | assign hoperator hliteral hfitted =>
      simp only [assignment, hoperator, hliteral, bind, Except.bind, hfitted]
      rfl

-- ---------------------------------------------------------------------------
-- Phrases
-- ---------------------------------------------------------------------------

/-- A part of a script that has a plan. Clauses have one once they are checked. -/
inductive Phrase
  | statement (source : Statement)
  | statements (source : List Statement)
  | choices (source : List Choice)
  | clauses (first : Bool) (source : List Clause) (found : List (Option Check))

def Phrase.plan (policy : MismatchPolicy) (target : String) (kinds : Kinds) : Phrase → Plan
  | .statement source => Plan.statement policy target kinds source
  | .statements source => Plan.statements policy target kinds source
  | .choices source => Plan.choices policy target kinds source
  | .clauses first source found => Plan.clauses policy target first kinds source found

/-- The plans of phrases that go to a block, with the kinds that are declared before. -/
inductive Planned (policy : MismatchPolicy) : String → Kinds → Phrase → Plan → Prop
  | emit : source.Emits policy kinds command →
      Planned policy target kinds (.statement source) (.emit target command)
  | ignore : Directive.parse raw = .ok none →
      Planned policy target kinds (.statement (.directive raw)) { actions := [.ignore raw] }
  | malformed : Directive.parse raw = .error error →
      Planned policy target kinds (.statement (.directive raw)) (.fail error)
  | rejected : source.Rejected policy kinds error →
      Planned policy target kinds (.statement source) (.fail error)
  | unsupported : Planned policy target kinds (.statement .unsupported) {}
  | menu : Planned policy target kinds (.choices options) plan →
      Planned policy target kinds (.statement (.choices options)) plan
  | branch : Kinds.checks policy kinds branches = .ok found →
      Planned policy target kinds (.clauses true branches found) plan →
      Planned policy target kinds (.statement (.branch branches))
        (plan.andThen (.emit target .endIf))
  | nil : Planned policy target kinds (.statements []) {}
  | cons : Planned policy target kinds (.statement first) plan →
      Planned policy target (kinds.after plan.recovering.actions) (.statements rest) next →
      Planned policy target kinds (.statements (first :: rest)) (plan.recovering.andThen next)
  | noChoice : Planned policy target kinds (.choices []) {}
  | choice : Planned policy label kinds (.statements body) plan →
      Planned policy target (kinds.after plan.actions) (.choices rest) next →
      Planned policy target kinds (.choices (.mk label body :: rest))
        (((Plan.emit target (.menu label label)).andThen plan).andThen next)
  | noClause : Planned policy target kinds (.clauses first [] []) {}
  /-- The condition has been checked before, when no more was declared than now. -/
  | clause {checked : Kinds} : checked.Passes policy condition check → kinds.Covers checked →
      Planned policy target (kinds.afterCommand (.marker first check)) (.statements body) plan →
      Planned policy target ((kinds.afterCommand (.marker first check)).after plan.actions)
        (.clauses false rest more) next →
      Planned policy target kinds (.clauses first (.mk condition body :: rest) (check :: more))
        (((Plan.emit target (.marker first check)).andThen plan).andThen next)

namespace Plan

variable {policy : MismatchPolicy}

mutual

theorem planned_statement {target : String} {kinds : Kinds} : ∀ source : Statement,
    Planned policy target kinds (.statement source) (statement policy target kinds source)
  | .line text => by
    simp only [statement]
    exact .emit .line
  | .jump destination => by
    simp only [statement]
    exact .emit .jump
  | .directive raw => by
    simp only [statement, directive]
    split
    · rename_i hparse
      exact .emit (.wait hparse)
    · rename_i hparse
      exact .ignore hparse
    · rename_i hparse
      exact .malformed hparse
  | .choices options => by
    simp only [statement]
    exact .menu (planned_choices options)
  | .branch branches => by
    simp only [statement]
    split
    · rename_i found hfound
      exact .branch hfound (planned_clauses branches found hfound kinds.covers_refl)
    · rename_i hchecks
      exact .rejected (.branch hchecks)
  | .assign operation name value => by
    simp only [statement]
    split
    · rename_i hcommand
      exact .emit (assignment_eq_ok_iff.mp hcommand)
    · rename_i hassign
      exact .rejected (.assign hassign)
  | .unsupported => by
    simp only [statement]
    exact .unsupported

theorem planned_statements {target : String} {kinds : Kinds} : ∀ source : List Statement,
    Planned policy target kinds (.statements source) (statements policy target kinds source)
  | [] => by
    simp only [statements]
    exact .nil
  | first :: rest => by
    simp only [statements]
    exact .cons (planned_statement first) (planned_statements rest)

theorem planned_choices {target : String} {kinds : Kinds} : ∀ source : List Choice,
    Planned policy target kinds (.choices source) (choices policy target kinds source)
  | [] => by
    simp only [choices]
    exact .noChoice
  | .mk label body :: rest => by
    simp only [choices]
    exact .choice (planned_statements body) (planned_choices rest)

theorem planned_clauses {target : String} {first : Bool} {kinds checked : Kinds} :
    ∀ (source : List Clause) (found : List (Option Check)),
      Kinds.checks policy checked source = .ok found → kinds.Covers checked →
      Planned policy target kinds (.clauses first source found)
        (clauses policy target first kinds source found)
  | [], found, hfound, _ => by
    cases hfound
    simp only [clauses]
    exact .noClause
  | .mk condition body :: rest, found, hfound, hcovers => by
    obtain ⟨check, more, rfl, hpasses, hmore⟩ := (Kinds.checks_cons_iff first).mp hfound
    have hlater := (hcovers.afterCommand (.marker first check)).after
      (statements policy target (kinds.afterCommand (.marker first check)) body).actions
    simp only [clauses]
    exact .clause hpasses hcovers (planned_statements body) (planned_clauses rest more hmore hlater)

end

end Plan

namespace Planned

variable {policy : MismatchPolicy} {target : String} {kinds : Kinds} {phrase : Phrase}
  {plan : Plan}

theorem plan_eq (h : Planned policy target kinds phrase plan) :
    phrase.plan policy target kinds = plan := by
  induction h with
  | emit hemits =>
    cases hemits with
    | line => simp only [Phrase.plan, Plan.statement]
    | jump => simp only [Phrase.plan, Plan.statement]
    | wait hparse => simp only [Phrase.plan, Plan.statement, Plan.directive, hparse]
    | assign hoperator hliteral hfitted =>
      have hassign := Plan.assignment_eq_ok_iff.mpr (.assign hoperator hliteral hfitted)
      simp only [Phrase.plan, Plan.statement, hassign]
  | ignore hparse => simp only [Phrase.plan, Plan.statement, Plan.directive, hparse]
  | malformed hparse => simp only [Phrase.plan, Plan.statement, Plan.directive, hparse]
  | rejected hrejected =>
    cases hrejected with
    | branch hchecks => simp only [Phrase.plan, Plan.statement, hchecks]
    | assign hassign => simp only [Phrase.plan, Plan.statement, hassign]
  | unsupported => simp only [Phrase.plan, Plan.statement]
  | menu _ ih =>
    simp only [Phrase.plan, Plan.statement] at ih ⊢
    exact ih
  | branch hfound _ ih =>
    simp only [Phrase.plan] at ih
    simp only [Phrase.plan, Plan.statement, hfound, ih]
  | nil => simp only [Phrase.plan, Plan.statements]
  | cons _ _ hfirst hrest =>
    simp only [Phrase.plan] at hfirst hrest
    simp only [Phrase.plan, Plan.statements, hfirst, hrest]
  | noChoice => simp only [Phrase.plan, Plan.choices]
  | choice _ _ hbody hrest =>
    simp only [Phrase.plan] at hbody hrest
    simp only [Phrase.plan, Plan.choices, hbody]
    exact congrArg _ hrest
  | noClause => simp only [Phrase.plan, Plan.clauses]
  | clause _ _ _ _ hbody hrest =>
    simp only [Phrase.plan] at hbody hrest
    simp only [Phrase.plan, Plan.clauses, hbody]
    exact congrArg _ hrest

theorem inner (h : Planned policy target kinds phrase plan) :
    ∀ action ∈ plan.actions, action.Inner := by
  have hemit {target : String} {command : NamedCommand} :
      ∀ action ∈ (Plan.emit target command).actions, action.Inner := by
    intro action hmem
    exact List.mem_singleton.mp hmem ▸ trivial
  have hthen {first next : Plan} (hfirst : ∀ action ∈ first.actions, action.Inner)
      (hnext : ∀ action ∈ next.actions, action.Inner) :
      ∀ action ∈ (first.andThen next).actions, action.Inner := by
    intro action hmem
    rcases Plan.mem_andThen hmem with hmem | hmem
    · exact hfirst action hmem
    · exact hnext action hmem
  induction h with
  | emit _ => exact hemit
  | ignore _ =>
    intro action hmem
    exact List.mem_singleton.mp hmem ▸ trivial
  | malformed _ | rejected _ | unsupported | nil | noChoice | noClause => exact nofun
  | menu _ ih => exact ih
  | branch _ _ ih => exact hthen ih hemit
  | cons _ _ hfirst hrest =>
    refine hthen (fun action hmem => ?_) hrest
    rcases Plan.mem_recovering hmem with hmem | ⟨error, rfl⟩
    · exact hfirst action hmem
    · trivial
  | choice _ _ hbody hrest => exact hthen (hthen hemit hbody) hrest
  | clause _ _ _ _ hbody hrest => exact hthen (hthen hemit hbody) hrest

end Planned

namespace Plan

variable {policy : MismatchPolicy} {kinds : Kinds}

theorem inner_statements (source : List Statement) :
    ∀ action ∈ (statements policy target kinds source).actions, action.Inner :=
  (planned_statements source).inner

theorem started_node (started : List String) (source : Node) :
    (node policy kinds started source).actions.foldl Action.started started =
      if source.name ∈ started then started else source.name :: started := by
  unfold node
  split
  · rfl
  · exact started_of_inner (inner_statements source.statements) (source.name :: started)

end Plan

end Dialogue
