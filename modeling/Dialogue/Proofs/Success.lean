import Dialogue.Proofs.Phrases

/-!
# Plans that succeed

What the parts of a plan are when the whole does not fail. A statement that is
given up is given up before it has done anything (`Planned.failure_cases`): only a
fatal error comes out of a body, and whatever else can be wrong with a statement is
found before its first action. So each statement of a list is either lowered whole
or leaves nothing but its skip, and the actions of plans that succeed are made by
the rules of `Lowered`.
-/

namespace Dialogue

-- ---------------------------------------------------------------------------
-- Which errors are fatal
-- ---------------------------------------------------------------------------

theorem Directive.parse_eq_error (h : Directive.parse raw = .error error) :
    ∃ fault, error = .malformedDirective raw fault := by
  unfold parse at h
  split at h
  · cases h
    exact ⟨_, rfl⟩
  · split at h
    · cases h
    · cases h
      exact ⟨_, rfl⟩
  · cases h

theorem Operand.isFatal_of_literal {value : Operand} (h : value.literal = .error error) :
    error.isFatal = false := by
  unfold literal at h
  split at h
  case h_4 =>
    cases h
    rfl
  all_goals cases h

theorem isFatal_of_conform (h : conform name declared policy literal = .error error) :
    error.isFatal = false := by
  unfold conform at h
  split at h
  · cases h
  · split at h
    · cases h
    · split at h
      · cases h
      · cases h
        rfl

theorem bind_eq_error_iff {x : Except ε α} {f : α → Except ε β} :
    x >>= f = .error error ↔ x = .error error ∨ ∃ a, x = .ok a ∧ f a = .error error := by
  cases x <;> simp [bind, Except.bind]

namespace Kinds

variable {policy : MismatchPolicy} {kinds : Kinds}

theorem isFatal_of_check (h : kinds.check policy comparison = .error error) :
    error.isFatal = false := by
  unfold check at h
  split at h
  · simp only [bind_eq_error_iff] at h
    rcases h with hliteral | ⟨literal, -, hconform | ⟨_, -, hpure⟩⟩
    · exact Operand.isFatal_of_literal hliteral
    · exact isFatal_of_conform hconform
    · cases hpure
  · cases h
    rfl

theorem isFatal_of_checks {source : List Clause} (h : checks policy kinds source = .error error) :
    error.isFatal = false := by
  induction source generalizing kinds with
  | nil => cases h
  | cons clause rest ih =>
    obtain ⟨condition, body⟩ := clause
    cases condition with
    | none =>
      simp only [checks, bind_eq_error_iff] at h
      rcases h with hrest | ⟨_, -, hpure⟩
      · exact ih hrest
      · cases hpure
    | some comparison =>
      simp only [checks, bind_eq_error_iff] at h
      rcases h with hcheck | ⟨check, -, hrest | ⟨_, -, hpure⟩⟩
      · exact isFatal_of_check hcheck
      · exact ih hrest
      · cases hpure

end Kinds

theorem Plan.isFatal_of_assignment
    (h : Plan.assignment policy kinds operation name value = .error error) :
    error.isFatal = false := by
  unfold assignment at h
  split at h
  · simp only [bind_eq_error_iff] at h
    rcases h with hliteral | ⟨literal, -, hconform | ⟨_, -, hpure⟩⟩
    · exact Operand.isFatal_of_literal hliteral
    · exact isFatal_of_conform hconform
    · cases hpure
  · cases h
    rfl

namespace Plan

-- ---------------------------------------------------------------------------
-- Sequencing
-- ---------------------------------------------------------------------------

theorem failure_andThen_eq_none {first next : Plan} :
    (first.andThen next).failure = none ↔ first.failure = none ∧ next.failure = none := by
  unfold andThen
  cases h : first.failure <;> simp [h]

theorem actions_andThen {first : Plan} (h : first.failure = none) (next : Plan) :
    (first.andThen next).actions = first.actions ++ next.actions := by
  simp [andThen, h]

theorem failure_andThen_cases {first next : Plan}
    (h : (first.andThen next).failure = some error) :
    first.failure = some error ∨ first.failure = none ∧ next.failure = some error := by
  unfold andThen at h
  cases hf : first.failure with
  | none =>
    rw [hf] at h
    exact .inr ⟨rfl, h⟩
  | some fault =>
    rw [hf] at h
    exact .inl (hf ▸ h)

theorem failure_andThen_eq_some {first next : Plan}
    (h : (first.andThen next).failure = some error) :
    first.failure = some error ∨ next.failure = some error :=
  (failure_andThen_cases h).imp_right And.right

theorem isFatal_of_recovering {plan : Plan} (h : plan.recovering.failure = some error) :
    error.isFatal = true := by
  unfold recovering at h
  cases hf : plan.failure with
  | none => simp [hf] at h
  | some fault =>
    by_cases hfatal : fault.isFatal
    · simp only [hf, hfatal, ↓reduceIte, Option.some.injEq] at h
      exact h ▸ hfatal
    · simp [hf, hfatal] at h

theorem recovering_cases {plan : Plan} (h : plan.recovering.failure = none) :
    (plan.failure = none ∧ plan.recovering = plan) ∨
      ∃ error, error.isFatal = false ∧ plan.failure = some error ∧
        plan.recovering = { actions := plan.actions ++ [.skip error] } := by
  unfold recovering at h ⊢
  cases hf : plan.failure with
  | none => exact .inl ⟨rfl, rfl⟩
  | some error =>
    cases hfatal : error.isFatal with
    | true => simp [hf, hfatal] at h
    | false => exact .inr ⟨error, hfatal, rfl, by simp [hfatal]⟩

theorem failure_of_recovering {plan : Plan} (h : plan.recovering.failure = some error) :
    plan.failure = some error := by
  unfold recovering at h
  split at h
  · split at h
    · exact h
    · cases h
  · exact h

end Plan

-- ---------------------------------------------------------------------------
-- Only fatal errors leave a body
-- ---------------------------------------------------------------------------

theorem Statement.Rejected.isFatal {source : Statement} {policy : MismatchPolicy} {kinds : Kinds}
    (h : source.Rejected policy kinds error) : error.isFatal = false := by
  cases h with
  | branch hchecks => exact Kinds.isFatal_of_checks hchecks
  | assign hassign => exact Plan.isFatal_of_assignment hassign

theorem Statement.Rejected.recovering_fail {source : Statement} {policy : MismatchPolicy}
    {kinds : Kinds} (h : source.Rejected policy kinds error) :
    (Plan.fail error).recovering = { actions := [.skip error] } := by
  simp [Plan.fail, Plan.recovering, h.isFatal]

/-- A phrase that fails for a reason that is not fatal is a statement that has done
nothing. -/
theorem Planned.failure_cases (h : Planned policy target kinds phrase plan)
    (hfailure : plan.failure = some error) :
    error.isFatal = true ∨ plan.actions = [] ∧
      ∃ source : Statement, phrase = .statement source ∧ source.Rejected policy kinds error := by
  induction h with
  | emit _ => cases hfailure
  | ignore _ => cases hfailure
  | malformed hparse =>
    cases hfailure
    obtain ⟨fault, rfl⟩ := Directive.parse_eq_error hparse
    exact .inl rfl
  | rejected hrejected =>
    cases hfailure
    exact .inr ⟨rfl, _, rfl, hrejected⟩
  | unsupported => cases hfailure
  | menu _ ih =>
    rcases ih hfailure with hfatal | ⟨_, _, ⟨⟩, _⟩
    exact .inl hfatal
  | branch _ _ ih =>
    rcases Plan.failure_andThen_eq_some hfailure with hclauses | hend
    · rcases ih hclauses with hfatal | ⟨_, _, ⟨⟩, _⟩
      exact .inl hfatal
    · cases hend
  | nil => cases hfailure
  | cons _ _ _ hrest =>
    rcases Plan.failure_andThen_eq_some hfailure with hfirst | hlater
    · exact .inl (Plan.isFatal_of_recovering hfirst)
    · rcases hrest hlater with hfatal | ⟨_, _, ⟨⟩, _⟩
      exact .inl hfatal
  | noChoice => cases hfailure
  | choice _ _ hbody hrest =>
    rcases Plan.failure_andThen_eq_some hfailure with hfirst | hlater
    · rcases hbody hfirst with hfatal | ⟨_, _, ⟨⟩, _⟩
      exact .inl hfatal
    · rcases hrest hlater with hfatal | ⟨_, _, ⟨⟩, _⟩
      exact .inl hfatal
  | noClause => cases hfailure
  | clause _ _ _ _ hbody hrest =>
    rcases Plan.failure_andThen_eq_some hfailure with hfirst | hlater
    · rcases hbody hfirst with hfatal | ⟨_, _, ⟨⟩, _⟩
      exact .inl hfatal
    · rcases hrest hlater with hfatal | ⟨_, _, ⟨⟩, _⟩
      exact .inl hfatal

-- ---------------------------------------------------------------------------
-- The actions of a plan that succeeds
-- ---------------------------------------------------------------------------

/-- What phrases do that do not fail. -/
inductive Lowered (policy : MismatchPolicy) : String → Kinds → Phrase → List Action → Prop
  | emit : source.Emits policy kinds command →
      Lowered policy target kinds (.statement source) [.emit target command]
  | ignore : Directive.parse raw = .ok none →
      Lowered policy target kinds (.statement (.directive raw)) [.ignore raw]
  | unsupported : Lowered policy target kinds (.statement .unsupported) []
  | menu : Lowered policy target kinds (.choices options) actions →
      Lowered policy target kinds (.statement (.choices options)) actions
  | branch : Kinds.checks policy kinds branches = .ok found →
      Lowered policy target kinds (.clauses true branches found) actions →
      Lowered policy target kinds (.statement (.branch branches))
        (actions ++ [.emit target .endIf])
  | nil : Lowered policy target kinds (.statements []) []
  | cons : Lowered policy target kinds (.statement first) actions →
      Lowered policy target (kinds.after actions) (.statements rest) more →
      Lowered policy target kinds (.statements (first :: rest)) (actions ++ more)
  /-- What is skipped has declared nothing. -/
  | skip : first.Rejected policy kinds error →
      Lowered policy target kinds (.statements rest) actions →
      Lowered policy target kinds (.statements (first :: rest)) (.skip error :: actions)
  | noChoice : Lowered policy target kinds (.choices []) []
  | choice : Lowered policy label kinds (.statements body) actions →
      Lowered policy target (kinds.after actions) (.choices rest) more →
      Lowered policy target kinds (.choices (.mk label body :: rest))
        (.emit target (.menu label label) :: actions ++ more)
  | noClause : Lowered policy target kinds (.clauses first [] []) []
  | clause {checked : Kinds} : checked.Passes policy condition check → kinds.Covers checked →
      Lowered policy target (kinds.afterCommand (.marker first check)) (.statements body) actions →
      Lowered policy target ((kinds.afterCommand (.marker first check)).after actions)
        (.clauses false rest found) more →
      Lowered policy target kinds (.clauses first (.mk condition body :: rest) (check :: found))
        (.emit target (.marker first check) :: actions ++ more)

theorem Planned.lowered (h : Planned policy target kinds phrase plan)
    (hfailure : plan.failure = none) : Lowered policy target kinds phrase plan.actions := by
  induction h with
  | emit hemits => exact .emit hemits
  | ignore hparse => exact .ignore hparse
  | malformed _ => cases hfailure
  | rejected _ => cases hfailure
  | unsupported => exact .unsupported
  | menu _ ih => exact .menu (ih hfailure)
  | branch hfound _ ih =>
    have hclauses := (Plan.failure_andThen_eq_none.mp hfailure).1
    rw [Plan.actions_andThen hclauses]
    exact .branch hfound (ih hclauses)
  | nil => exact .nil
  | cons hplan _ hfirst hrest =>
    obtain ⟨hrecovered, hlater⟩ := Plan.failure_andThen_eq_none.mp hfailure
    rw [Plan.actions_andThen hrecovered]
    rcases Plan.recovering_cases hrecovered with ⟨hnone, heq⟩ | ⟨error, hfatal, hsome, heq⟩
    · rw [heq] at hrest ⊢
      exact .cons (hfirst hnone) (hrest hlater)
    · rcases hplan.failure_cases hsome with hbad | ⟨hnil, _, ⟨⟩, hrejected⟩
      · simp [hfatal] at hbad
      · rw [heq, hnil] at hrest ⊢
        exact .skip hrejected (hrest hlater)
  | noChoice => exact .noChoice
  | choice _ _ hbody hrest =>
    obtain ⟨hfirst, hlater⟩ := Plan.failure_andThen_eq_none.mp hfailure
    rw [Plan.actions_andThen hfirst]
    exact .choice (hbody hfirst) (hrest hlater)
  | noClause => exact .noClause
  | clause hpasses hcovers _ _ hbody hrest =>
    obtain ⟨hfirst, hlater⟩ := Plan.failure_andThen_eq_none.mp hfailure
    rw [Plan.actions_andThen hfirst]
    exact .clause hpasses hcovers (hbody hfirst) (hrest hlater)

theorem Lowered.planned (h : Lowered policy target kinds phrase actions) :
    Planned policy target kinds phrase ⟨actions, none⟩ := by
  induction h with
  | emit hemits => exact .emit hemits
  | ignore hparse => exact .ignore hparse
  | unsupported => exact .unsupported
  | menu _ ih => exact .menu ih
  | branch hfound _ ih => exact .branch hfound ih
  | nil => exact .nil
  | cons _ _ hfirst hrest => exact .cons hfirst hrest
  | skip hrejected _ ih =>
    have hplan := Planned.cons (.rejected hrejected) (by rw [hrejected.recovering_fail]; exact ih)
    rwa [hrejected.recovering_fail] at hplan
  | noChoice => exact .noChoice
  | choice _ _ hbody hrest => exact .choice hbody hrest
  | noClause => exact .noClause
  | clause hpasses hcovers _ _ hbody hrest => exact .clause hpasses hcovers hbody hrest

theorem Lowered.plan_eq (h : Lowered policy target kinds phrase actions) :
    phrase.plan policy target kinds = ⟨actions, none⟩ :=
  h.planned.plan_eq

theorem Lowered.statement_eq (h : Lowered policy target kinds (.statement source) actions) :
    Plan.statement policy target kinds source = ⟨actions, none⟩ :=
  h.plan_eq

theorem Lowered.statements_eq (h : Lowered policy target kinds (.statements source) actions) :
    Plan.statements policy target kinds source = ⟨actions, none⟩ :=
  h.plan_eq

theorem Statement.Rejected.statement_eq {source : Statement} {policy : MismatchPolicy}
    {kinds : Kinds} (h : source.Rejected policy kinds error) (target : String) :
    Plan.statement policy target kinds source = .fail error :=
  (Planned.rejected h).plan_eq

-- ---------------------------------------------------------------------------
-- Nodes
-- ---------------------------------------------------------------------------

namespace Plan

variable {policy : MismatchPolicy} {target : String} {kinds : Kinds}

theorem isFatal_of_statements {source : List Statement}
    (h : (statements policy target kinds source).failure = some error) :
    error.isFatal = true := by
  rcases (planned_statements source).failure_cases h with hfatal | ⟨_, _, ⟨⟩, _⟩
  exact hfatal

theorem lowered_statements {source : List Statement}
    (h : (statements policy target kinds source).failure = none) :
    Lowered policy target kinds (.statements source)
      (statements policy target kinds source).actions :=
  (planned_statements source).lowered h

theorem notMem_started {source : Node} {rest : List Node} {started : List String}
    (hnodup : ((source :: rest).map (·.name)).Nodup)
    (hnew : ∀ node ∈ source :: rest, node.name ∉ started) :
    ∀ node ∈ rest, node.name ∉ source.name :: started := by
  rw [List.map_cons, List.nodup_cons] at hnodup
  intro node hnode hmem
  rcases List.mem_cons.mp hmem with heq | hold
  · exact hnodup.1 (heq ▸ List.mem_map.mpr ⟨node, hnode, rfl⟩)
  · exact hnew node (List.mem_cons_of_mem _ hnode) hold

theorem nodes_cons_of_mem {started : List String} {source : Node} (h : source.name ∈ started)
    (rest : List Node) :
    nodes policy kinds started (source :: rest) =
      Plan.andThen { actions := [.mention source.name] } (nodes policy kinds started rest) := by
  simp only [nodes, node, if_pos h]
  rfl

theorem nodes_cons_of_notMem {started : List String} {source : Node} (h : source.name ∉ started)
    (hbody : Lowered policy source.name kinds (.statements source.statements) body)
    (rest : List Node) :
    nodes policy kinds started (source :: rest) =
      Plan.andThen
        { actions := .mention source.name :: .start source.name source.statements.length :: body }
        (nodes policy (kinds.after body) (source.name :: started) rest) := by
  have hstarted : List.foldl Action.started started
      (.mention source.name :: .start source.name source.statements.length :: body) =
      source.name :: started := started_of_inner hbody.planned.inner (source.name :: started)
  have hnode : node policy kinds started source =
      { actions := .mention source.name :: .start source.name source.statements.length ::
          body } := by
    simp [node, if_neg h, andThen, hbody.statements_eq]
  simp only [nodes, hnode, hstarted]
  rfl

/-- A node is lowered whole the first time, and after that only mentioned. -/
theorem nodes_cons_cases {started : List String} {source : Node} {rest : List Node}
    (h : (nodes policy kinds started (source :: rest)).failure = none) :
    (source.name ∈ started ∧ (nodes policy kinds started rest).failure = none ∧
      (nodes policy kinds started (source :: rest)).actions =
        .mention source.name :: (nodes policy kinds started rest).actions) ∨
    (source.name ∉ started ∧ ∃ body,
      Lowered policy source.name kinds (.statements source.statements) body ∧
      (nodes policy (kinds.after body) (source.name :: started) rest).failure = none ∧
      (nodes policy kinds started (source :: rest)).actions =
        .mention source.name :: .start source.name source.statements.length :: body ++
          (nodes policy (kinds.after body) (source.name :: started) rest).actions) := by
  by_cases hs : source.name ∈ started
  · rw [nodes_cons_of_mem hs] at h ⊢
    exact .inl ⟨hs, (failure_andThen_eq_none.mp h).2, rfl⟩
  · have hbody : (statements policy source.name kinds source.statements).failure = none := by
      simp only [nodes, node, if_neg hs] at h
      exact (failure_andThen_eq_none.mp (failure_andThen_eq_none.mp h).1).2
    have hlowered := lowered_statements hbody
    rw [nodes_cons_of_notMem hs hlowered] at h ⊢
    exact .inr ⟨hs, _, hlowered, (failure_andThen_eq_none.mp h).2, rfl⟩

end Plan

-- ---------------------------------------------------------------------------
-- Literals that fit
-- ---------------------------------------------------------------------------

theorem kind_of_conform (h : conform name (some kind) policy literal = .ok fitted) :
    fitted.kind = kind := by
  unfold conform at h
  simp only at h
  split at h
  · rename_i hkind
    cases h
    exact hkind.symm
  · split at h
    · rename_i hcoerce
      cases h
      exact Literal.kind_of_coerce? hcoerce
    · cases h

theorem eq_of_conform (h : conform name declared policy literal = .ok fitted)
    (hkind : fitted.kind = literal.kind) : fitted = literal := by
  cases declared with
  | none =>
    cases h
    rfl
  | some kind =>
    have hdeclared : kind = literal.kind := (kind_of_conform h).symm.trans hkind
    simp only [conform, if_pos hdeclared, Except.ok.injEq] at h
    exact h.symm

theorem eq_of_conform_reject (h : conform name declared .reject literal = .ok fitted) :
    fitted = literal := by
  unfold conform at h
  split at h
  · cases h
    rfl
  · split at h
    · cases h
      rfl
    · cases h

end Dialogue
