import Dialogue.Proofs.Creation
import Dialogue.Proofs.Operands

/-!
# Scripts that use every variable with one kind

What a lowering does with a literal depends on what has been declared before it.
Where no name is used with literals of two kinds, that makes no difference: the
plan of a statement is what it would be with anything else declared
(`Planned.settled`), and the nodes of a script are lowered each as if it stood alone
(`Plan.nodes_eq_each`).
-/

namespace Dialogue

-- ---------------------------------------------------------------------------
-- Literals and the names they are used with
-- ---------------------------------------------------------------------------

namespace Operands

def kinds (operands : List (String × Operand)) : List (String × Kind) :=
  operands.filterMap fun operand =>
    operand.2.literal.toOption.map fun literal => (operand.1, literal.kind)

theorem kinds_append (first rest : List (String × Operand)) :
    kinds (first ++ rest) = kinds first ++ kinds rest :=
  List.filterMap_append

theorem mem_kinds {value : Operand} (name : String) (h : value.literal = .ok literal) :
    (name, literal.kind) ∈ kinds [(name, value)] := by
  simp [kinds, h, Except.toOption]

/-- No name is used with two kinds. -/
def Uniform (uses : List (String × Kind)) : Prop :=
  ∀ first ∈ uses, ∀ second ∈ uses, first.1 = second.1 → first.2 = second.2

instance (uses : List (String × Kind)) : Decidable (Uniform uses) :=
  inferInstanceAs (Decidable (∀ first ∈ uses, ∀ second ∈ uses, _ = _ → _ = _))

end Operands

def Script.uses (script : Script) : List (String × Kind) := Operands.kinds script.operands

-- ---------------------------------------------------------------------------
-- Declarations within the uses
-- ---------------------------------------------------------------------------

theorem NamedCommand.afterCommand_eq (kinds : Kinds) (command : NamedCommand) :
    kinds.afterCommand command =
      match command.declared? with
      | some (name, kind) => kinds.declare name kind
      | none => kinds := by
  cases command <;> rfl

namespace Kinds

/-- Every name that is declared is used with the kind that it is declared with. -/
def Within (uses : List (String × Kind)) (kinds : Kinds) : Prop :=
  ∀ name kind, kinds name = some kind → (name, kind) ∈ uses

theorem within_none (uses : List (String × Kind)) : Kinds.none.Within uses := nofun

variable {uses : List (String × Kind)} {kinds : Kinds}

theorem Within.declare (h : kinds.Within uses) (hmem : (name, kind) ∈ uses) :
    (kinds.declare name kind).Within uses := by
  intro other found hfound
  unfold Kinds.declare at hfound
  cases hold : kinds other with
  | some old =>
    rw [hold, Option.some_or] at hfound
    exact h other found (hold.trans hfound)
  | none =>
    rw [hold, Option.none_or] at hfound
    split at hfound
    · rename_i hname
      cases hfound
      exact hname ▸ hmem
    · cases hfound

theorem Within.afterCommand (h : kinds.Within uses) {command : NamedCommand}
    (hmem : ∀ pair ∈ command.declared?, pair ∈ uses) :
    (kinds.afterCommand command).Within uses := by
  rw [NamedCommand.afterCommand_eq]
  split
  · rename_i name kind hdeclared
    exact h.declare (hmem _ hdeclared)
  · exact h

theorem Within.after (h : kinds.Within uses) {actions : List Action}
    (hsubset : Action.declared actions ⊆ uses) : (kinds.after actions).Within uses := by
  induction actions generalizing kinds with
  | nil => exact h
  | cons action rest ih =>
    cases action with
    | emit target command =>
      refine ih (h.afterCommand ?_) ?_
      · intro pair hpair
        refine hsubset (List.mem_filterMap.mpr ⟨(target, command), ?_, hpair⟩)
        exact List.mem_cons_self
      · intro pair hpair
        obtain ⟨emission, hemission, hdeclared⟩ := List.mem_filterMap.mp hpair
        exact hsubset (List.mem_filterMap.mpr
          ⟨emission, List.mem_cons_of_mem _ hemission, hdeclared⟩)
    | _ => exact ih h hsubset

theorem declared_marker {first : Bool} {check : Option Check}
    (h : ∀ found ∈ check, (found.name, found.value.kind) ∈ uses) :
    ∀ pair ∈ (NamedCommand.marker first check).declared?, pair ∈ uses := by
  intro pair hpair
  cases check with
  | none => cases hpair
  | some found =>
    cases first <;> (cases hpair; exact h found rfl)

variable (huniform : Operands.Uniform uses) (hkinds : kinds.Within uses)
include huniform hkinds

theorem conform_eq_ok {literal : Literal} (policy : MismatchPolicy)
    (hmem : (name, literal.kind) ∈ uses) :
    conform name (kinds name) policy literal = .ok literal := by
  cases hkind : kinds name with
  | none => rfl
  | some kind =>
    have hsame : kind = literal.kind := huniform _ (hkinds name kind hkind) _ hmem rfl
    simp [conform, hsame]

theorem check_eq_check_none {comparison : Comparison}
    (huses : Operands.kinds [(comparison.name, comparison.value)] ⊆ uses) :
    kinds.check policy comparison = Kinds.none.check policy comparison := by
  unfold check
  cases CompareOperator.ofFunction? comparison.function with
  | none => rfl
  | some operator =>
    cases hliteral : comparison.value.literal with
    | error error => rfl
    | ok literal =>
      have hmem := huses (Operands.mem_kinds comparison.name hliteral)
      have hfits := conform_eq_ok huniform hkinds policy hmem
      simp only [bind, Except.bind, hfits]
      rfl

theorem mem_uses_of_passes {found : Check}
    (huses : Operands.kinds (Operands.condition condition) ⊆ uses)
    (h : kinds.Passes policy condition (some found)) : (found.name, found.value.kind) ∈ uses := by
  cases h with
  | @compared _ _ _ comparison _ hliteral hvalue =>
    have hmem := huses (Operands.mem_kinds comparison.name hliteral)
    rw [conform_eq_ok huniform hkinds policy hmem] at hvalue
    cases hvalue
    exact hmem

theorem checks_eq_checks_none {source : List Clause}
    (huses : Operands.kinds (Operands.clauses source) ⊆ uses) :
    checks policy kinds source = checks policy .none source := by
  induction source generalizing kinds with
  | nil => rfl
  | cons clause rest ih =>
    obtain ⟨guard, body⟩ := clause
    simp only [Operands.clauses, Operands.kinds_append, List.append_subset] at huses
    obtain ⟨⟨hguard, _⟩, hrest⟩ := huses
    cases guard with
    | none =>
      simp only [checks]
      rw [ih hkinds hrest]
    | some comparison =>
      simp only [checks, check_eq_check_none huniform hkinds hguard]
      cases hcheck : Kinds.none.check policy comparison with
      | error error => rfl
      | ok found =>
        have hmem := mem_uses_of_passes huniform (within_none uses) hguard
          (check_eq_ok_iff.mp hcheck)
        simp only [bind, Except.bind]
        rw [ih (hkinds.declare hmem) hrest, ih ((within_none uses).declare hmem) hrest]

theorem mem_uses_of_checks {source : List Clause} {found : List (Option Check)} {check : Check}
    (huses : Operands.kinds (Operands.clauses source) ⊆ uses)
    (h : checks policy kinds source = .ok found) (hcheck : some check ∈ found) :
    (check.name, check.value.kind) ∈ uses := by
  induction source generalizing kinds found with
  | nil =>
    cases h
    cases hcheck
  | cons clause rest ih =>
    obtain ⟨guard, body⟩ := clause
    simp only [Operands.clauses, Operands.kinds_append, List.append_subset] at huses
    obtain ⟨⟨hguard, _⟩, hrest⟩ := huses
    obtain ⟨first, more, rfl, hpasses, hmore⟩ := (checks_cons_iff true).mp h
    have hfirst : ∀ found ∈ first, (found.name, found.value.kind) ∈ uses := by
      rintro found rfl
      exact mem_uses_of_passes huniform hkinds hguard hpasses
    rcases List.mem_cons.mp hcheck with heq | hlater
    · exact hfirst check heq.symm
    · exact ih (hkinds.afterCommand (declared_marker hfirst)) hrest hmore hlater

theorem assignment_congr {other : Kinds} (hother : other.Within uses) {operation name : String}
    {value : Operand} (huses : Operands.kinds [(name, value)] ⊆ uses) :
    Plan.assignment policy other operation name value =
      Plan.assignment policy kinds operation name value := by
  unfold Plan.assignment
  cases SetOperator.ofToken? operation with
  | none => rfl
  | some operator =>
    cases hliteral : value.literal with
    | error error => rfl
    | ok literal =>
      have hmem := huses (Operands.mem_kinds name hliteral)
      have hfits := conform_eq_ok huniform hkinds policy hmem
      have hfits' := conform_eq_ok huniform hother policy hmem
      simp only [bind, Except.bind, hfits, hfits']

omit hkinds in
/-- A condition that passes with the kinds that are used passes with nothing declared. -/
theorem Passes.alone (huses : Operands.kinds (Operands.condition condition) ⊆ uses)
    {checked : Kinds} {found : Option Check} (h : checked.Passes policy condition found)
    (hfound : ∀ check ∈ found, (check.name, check.value.kind) ∈ uses) :
    Kinds.none.Passes policy condition found := by
  cases h with
  | always => exact .always
  | @compared _ _ _ comparison hoperator hliteral hvalue =>
    have hmem := huses (Operands.mem_kinds comparison.name hliteral)
    have hkind := huniform _ (hfound _ rfl) _ hmem rfl
    cases eq_of_conform hvalue hkind
    exact .compared hoperator hliteral rfl

end Kinds

-- ---------------------------------------------------------------------------
-- Plans that do not depend on what is declared
-- ---------------------------------------------------------------------------

namespace Plan

/-- A plan is what it would be with nothing declared, and declares what is used. -/
structure Settled (uses : List (String × Kind)) (plan alone : Plan) : Prop where
  same : plan = alone
  declared : Action.declared plan.actions ⊆ uses

variable {uses : List (String × Kind)} {policy : MismatchPolicy} {target : String} {kinds : Kinds}

theorem declared_emit {command : NamedCommand} (target : String)
    (h : ∀ pair ∈ command.declared?, pair ∈ uses) :
    Action.declared (emit target command).actions ⊆ uses := by
  intro pair hpair
  obtain ⟨emission, hemission, hdeclared⟩ := List.mem_filterMap.mp hpair
  rw [List.mem_singleton.mp hemission] at hdeclared
  exact h pair hdeclared

theorem declared_andThen {first next : Plan} (hfirst : Action.declared first.actions ⊆ uses)
    (hnext : Action.declared next.actions ⊆ uses) :
    Action.declared (first.andThen next).actions ⊆ uses := by
  unfold andThen
  split
  · exact hfirst
  · rw [Action.declared_append]
    exact List.append_subset.mpr ⟨hfirst, hnext⟩

theorem declared_recovering {plan : Plan} (h : Action.declared plan.actions ⊆ uses) :
    Action.declared plan.recovering.actions ⊆ uses := by
  unfold recovering
  split
  · split
    · exact h
    · rw [Action.declared_append]
      exact List.append_subset.mpr ⟨h, List.nil_subset _⟩
  · exact h

end Plan

def Phrase.ChecksWithin (uses : List (String × Kind)) : Phrase → Prop
  | .clauses _ _ found => ∀ check, some check ∈ found → (check.name, check.value.kind) ∈ uses
  | _ => True

section

variable {uses : List (String × Kind)} {policy : MismatchPolicy} {kinds : Kinds}

theorem Statement.Emits.settled {source : Statement} (huniform : Operands.Uniform uses)
    (hkinds : kinds.Within uses) (huses : Operands.kinds (Operands.statement source) ⊆ uses)
    (h : source.Emits policy kinds command) :
    (∀ pair ∈ command.declared?, pair ∈ uses) ∧
      ∀ other : Kinds, other.Within uses → source.Emits policy other command := by
  cases h with
  | line => exact ⟨nofun, fun _ _ => .line⟩
  | jump => exact ⟨nofun, fun _ _ => .jump⟩
  | wait hparse => exact ⟨nofun, fun _ _ => .wait hparse⟩
  | @assign _ _ _ name _ _ hoperator hliteral hfitted =>
    have hmem := huses (Operands.mem_kinds name hliteral)
    rw [Kinds.conform_eq_ok huniform hkinds policy hmem] at hfitted
    cases hfitted
    refine ⟨?_, fun other hother => ?_⟩
    · rintro pair ⟨⟩
      exact hmem
    · exact .assign hoperator hliteral (Kinds.conform_eq_ok huniform hother policy hmem)

theorem Statement.Rejected.settled {source : Statement} (huniform : Operands.Uniform uses)
    (hkinds : kinds.Within uses) (huses : Operands.kinds (Operands.statement source) ⊆ uses)
    (h : source.Rejected policy kinds error) {other : Kinds} (hother : other.Within uses) :
    source.Rejected policy other error := by
  cases h with
  | branch hchecks =>
    simp only [Operands.statement] at huses
    rw [Kinds.checks_eq_checks_none huniform hkinds huses,
      ← Kinds.checks_eq_checks_none huniform hother huses] at hchecks
    exact .branch hchecks
  | assign hassign =>
    exact .assign ((Kinds.assignment_congr huniform hkinds hother huses).trans hassign)

/-- The plan of a phrase does not depend on what is declared before it. -/
theorem Planned.settled (huniform : Operands.Uniform uses)
    (h : Planned policy target kinds phrase plan) (hkinds : kinds.Within uses)
    (huses : Operands.kinds (Operands.phrase phrase) ⊆ uses)
    (hchecks : phrase.ChecksWithin uses) :
    Action.declared plan.actions ⊆ uses ∧
      ∀ other : Kinds, other.Within uses → Planned policy target other phrase plan := by
  induction h with
  | emit hemits =>
    obtain ⟨hdeclared, hanyhow⟩ := hemits.settled huniform hkinds huses
    exact ⟨Plan.declared_emit _ hdeclared, fun other hother => .emit (hanyhow other hother)⟩
  | ignore hparse => exact ⟨List.nil_subset _, fun _ _ => .ignore hparse⟩
  | malformed hparse => exact ⟨List.nil_subset _, fun _ _ => .malformed hparse⟩
  | rejected hrejected =>
    refine ⟨List.nil_subset _, fun other hother => .rejected ?_⟩
    exact hrejected.settled huniform hkinds huses hother
  | unsupported => exact ⟨List.nil_subset _, fun _ _ => .unsupported⟩
  | menu _ ih =>
    simp only [Operands.phrase, Operands.statement] at huses ih
    obtain ⟨hdeclared, hanyhow⟩ := ih hkinds huses trivial
    exact ⟨hdeclared, fun other hother => .menu (hanyhow other hother)⟩
  | branch hfound _ ih =>
    simp only [Operands.phrase, Operands.statement] at huses ih
    obtain ⟨hdeclared, hanyhow⟩ := ih hkinds huses fun check hcheck =>
      Kinds.mem_uses_of_checks huniform hkinds huses hfound hcheck
    refine ⟨Plan.declared_andThen hdeclared (List.nil_subset _), fun other hother => ?_⟩
    rw [Kinds.checks_eq_checks_none huniform hkinds huses,
      ← Kinds.checks_eq_checks_none huniform hother huses] at hfound
    exact .branch hfound (hanyhow other hother)
  | nil => exact ⟨List.nil_subset _, fun _ _ => .nil⟩
  | cons _ _ hfirst hrest =>
    simp only [Operands.phrase, Operands.statements, Operands.kinds_append,
      List.append_subset] at huses hfirst hrest
    obtain ⟨hdeclared, hanyhow⟩ := hfirst hkinds huses.1 trivial
    have hrecovered := Plan.declared_recovering hdeclared
    obtain ⟨hmore, hlater⟩ := hrest (hkinds.after hrecovered) huses.2 trivial
    refine ⟨Plan.declared_andThen hrecovered hmore, fun other hother => ?_⟩
    exact .cons (hanyhow other hother) (hlater _ (hother.after hrecovered))
  | noChoice => exact ⟨List.nil_subset _, fun _ _ => .noChoice⟩
  | choice _ _ hbody hrest =>
    simp only [Operands.phrase, Operands.choices, Operands.kinds_append,
      List.append_subset] at huses hbody hrest
    obtain ⟨hdeclared, hanyhow⟩ := hbody hkinds huses.1 trivial
    obtain ⟨hmore, hlater⟩ := hrest (hkinds.after hdeclared) huses.2 trivial
    refine ⟨Plan.declared_andThen (Plan.declared_andThen ?_ hdeclared) hmore, ?_⟩
    · exact List.nil_subset _
    · intro other hother
      exact .choice (hanyhow other hother) (hlater _ (hother.after hdeclared))
  | noClause => exact ⟨List.nil_subset _, fun _ _ => .noClause⟩
  | @clause _ check _ _ _ _ _ _ _ first _ hpasses _ _ _ hbody hrest =>
    simp only [Operands.phrase, Operands.clauses, Operands.kinds_append,
      List.append_subset] at huses hbody hrest
    obtain ⟨⟨hguard, hinside⟩, hothers⟩ := huses
    have hcheck : ∀ found ∈ check, (found.name, found.value.kind) ∈ uses :=
      fun found hsome => hchecks found (hsome ▸ List.mem_cons_self)
    have hmarker := @Kinds.declared_marker uses first check hcheck
    obtain ⟨hdeclared, hanyhow⟩ := hbody (hkinds.afterCommand hmarker) hinside trivial
    obtain ⟨hmore, hlater⟩ := hrest ((hkinds.afterCommand hmarker).after hdeclared) hothers
      fun found hmem => hchecks found (List.mem_cons_of_mem _ hmem)
    refine ⟨Plan.declared_andThen (Plan.declared_andThen ?_ hdeclared) hmore, ?_⟩
    · exact Plan.declared_emit _ hmarker
    · intro other hother
      have hopened := hother.afterCommand hmarker
      exact .clause (Kinds.Passes.alone huniform hguard hpasses hcheck) (fun _ _ => rfl)
        (hanyhow _ hopened) (hlater _ (hopened.after hdeclared))

end

namespace Plan

variable {uses : List (String × Kind)} {policy : MismatchPolicy} {target : String} {kinds : Kinds}

theorem settled_statements (huniform : Operands.Uniform uses) (hkinds : kinds.Within uses)
    (source : List Statement) (huses : Operands.kinds (Operands.statements source) ⊆ uses) :
    Settled uses (statements policy target kinds source)
      (statements policy target .none source) := by
  obtain ⟨hdeclared, hanyhow⟩ :=
    (planned_statements source).settled huniform hkinds huses trivial
  exact ⟨(hanyhow .none (Kinds.within_none uses)).plan_eq.symm, hdeclared⟩

-- ---------------------------------------------------------------------------
-- Nodes
-- ---------------------------------------------------------------------------

def alone (policy : MismatchPolicy) (source : Node) : Plan := node policy .none [] source

def parts (policy : MismatchPolicy) (order : List Node) : List Action :=
  order.flatMap fun source => (alone policy source).actions

def each (policy : MismatchPolicy) : List Node → Plan
  | [] => {}
  | source :: rest => (alone policy source).andThen (each policy rest)

theorem parts_append (policy : MismatchPolicy) (first rest : List Node) :
    parts policy (first ++ rest) = parts policy first ++ parts policy rest :=
  List.flatMap_append

theorem failure_each_eq_none {order : List Node} :
    (each policy order).failure = none ↔
      ∀ source ∈ order, (alone policy source).failure = none := by
  induction order with
  | nil => simp [each]
  | cons source rest ih => simp only [each, failure_andThen_eq_none, ih, List.forall_mem_cons]

theorem actions_each {order : List Node} (h : (each policy order).failure = none) :
    (each policy order).actions = parts policy order := by
  induction order with
  | nil => rfl
  | cons source rest ih =>
    obtain ⟨hfirst, hrest⟩ := failure_andThen_eq_none.mp h
    rw [each, actions_andThen hfirst, ih hrest]
    rfl

theorem settled_node {started : List String} {source : Node} (huniform : Operands.Uniform uses)
    (hkinds : kinds.Within uses) (huses : Operands.kinds (Operands.node source) ⊆ uses)
    (hnew : source.name ∉ started) :
    Settled uses (node policy kinds started source) (alone policy source) := by
  obtain ⟨hsame, hdeclared⟩ := settled_statements huniform hkinds source.statements huses
  unfold alone node
  rw [if_neg hnew, if_neg List.not_mem_nil]
  exact ⟨by rw [hsame], declared_andThen (List.nil_subset _) hdeclared⟩

theorem actions_alone (policy : MismatchPolicy) (source : Node) :
    (alone policy source).actions =
      .mention source.name :: .start source.name source.statements.length ::
        (statements policy source.name .none source.statements).actions := by
  simp [alone, node, andThen]

theorem started_alone (source : Node) (started : List String) :
    (alone policy source).actions.foldl Action.started started = source.name :: started := by
  rw [actions_alone]
  exact started_of_inner (inner_statements source.statements) (source.name :: started)

theorem declared_parts (huniform : Operands.Uniform uses) {order : List Node}
    (huses : ∀ source ∈ order, Operands.kinds (Operands.node source) ⊆ uses) :
    Action.declared (parts policy order) ⊆ uses := by
  induction order with
  | nil => exact List.nil_subset uses
  | cons source rest ih =>
    have hsource : Settled uses (alone policy source) (alone policy source) :=
      settled_node huniform (Kinds.within_none uses) (huses source List.mem_cons_self)
        List.not_mem_nil
    have hrest := ih fun later hlater => huses later (List.mem_cons_of_mem _ hlater)
    rw [← List.singleton_append, parts_append, Action.declared_append]
    exact List.append_subset.mpr ⟨by simpa [parts] using hsource.declared, hrest⟩

/-- Nodes that use every name with one kind are lowered independently of each other. -/
theorem nodes_eq_each {order : List Node} {started : List String}
    (huniform : Operands.Uniform uses) (hkinds : kinds.Within uses)
    (huses : ∀ source ∈ order, Operands.kinds (Operands.node source) ⊆ uses)
    (hnodup : (order.map (·.name)).Nodup) (hnew : ∀ source ∈ order, source.name ∉ started) :
    nodes policy kinds started order = each policy order := by
  induction order generalizing kinds started with
  | nil => rfl
  | cons source rest ih =>
    have hsource : Settled uses (node policy kinds started source) (alone policy source) :=
      settled_node huniform hkinds (huses source List.mem_cons_self)
        (hnew source List.mem_cons_self)
    rw [nodes, each, hsource.same, started_alone]
    rw [ih]
    · exact hsource.same ▸ hkinds.after hsource.declared
    · exact fun later hlater => huses later (List.mem_cons_of_mem _ hlater)
    · exact (List.nodup_cons.mp hnodup).2
    · exact notMem_started hnodup hnew

end Plan

end Dialogue
