import Dialogue.Proofs.Outcome
import Dialogue.Proofs.Reading
import Dialogue.Proofs.Rendering
import Dialogue.Proofs.Success

/-!
# Texts that are taken for numbers

Of the literals that a plan emits, those that are no finite numbers come from one
source: a text that names such a number, used with a variable that is declared as
a number. `Tame.script` says that a script has none where it matters, and
`Tame.script_iff` that this is what it takes for all literals to be finite.
-/

namespace Dialogue

/-- A text that is used with a number names no number that is not finite. -/
def Operand.Tame (declared : Option Kind) : Operand → Prop
  | .string text => declared = some .number →
    ∀ value, Number.ofText? (Text.trim text) = some value → value.isFinite = true
  | _ => True

-- ---------------------------------------------------------------------------
-- One literal
-- ---------------------------------------------------------------------------

theorem Literal.finite_of_coerce? {kind : Kind} {literal fitted : Literal}
    (hliteral : literal.Finite) (h : literal.coerce? kind = some fitted)
    (htext : ∀ text, literal = .string text → kind = .number →
      ∀ value, Number.ofText? (Text.trim text) = some value → value.isFinite = true) :
    fitted.Finite := by
  cases literal with
  | string text =>
    cases kind with
    | string =>
      simp only [coerce?, Option.some.injEq] at h
      subst h
      trivial
    | number =>
      simp only [coerce?, Option.map_eq_some_iff] at h
      obtain ⟨value, hvalue, rfl⟩ := h
      exact htext text rfl rfl value hvalue
    | bool =>
      simp only [coerce?, Option.map_eq_some_iff] at h
      obtain ⟨value, _, rfl⟩ := h
      trivial
  | number value =>
    cases kind <;> simp only [coerce?, Option.some.injEq] at h <;> subst h
    · trivial
    · exact hliteral
    · trivial
  | bool value =>
    cases kind <;> simp only [coerce?, Option.some.injEq] at h <;> subst h
    · trivial
    · cases value <;> rfl
    · trivial

/-- A literal that fits is finite exactly if its operand is tame. -/
theorem Operand.finite_iff_tame {value : Operand} {literal fitted : Literal}
    (hfinite : value.Finite) (hliteral : value.literal = .ok literal)
    (hfits : conform name declared policy literal = .ok fitted) :
    fitted.Finite ↔ value.Tame declared := by
  have hwritten : literal.Finite := by
    cases value <;> cases hliteral
    · trivial
    · exact hfinite
    · trivial
  unfold conform at hfits
  split at hfits
  · cases hfits
    refine iff_of_true hwritten ?_
    cases value with
    | string text => exact nofun
    | _ => trivial
  · rename_i kind
    split at hfits
    · rename_i hkind
      cases hfits
      refine iff_of_true hwritten ?_
      cases value with
      | string text =>
        cases hliteral
        rintro ⟨⟩
        cases hkind
      | _ => trivial
    · split at hfits
      · rename_i coerced hcoerce
        cases hfits
        constructor
        · intro hfitted
          cases value with
          | string text =>
            cases hliteral
            rintro ⟨⟩ number hnumber
            simp only [Literal.coerce?, hnumber, Option.map_some, Option.some.injEq] at hcoerce
            cases hcoerce
            exact hfitted
          | _ => trivial
        · intro htame
          refine Literal.finite_of_coerce? hwritten hcoerce ?_
          rintro text rfl rfl
          cases value <;> cases hliteral
          exact htame rfl
      · cases hfits

-- ---------------------------------------------------------------------------
-- The literals of actions
-- ---------------------------------------------------------------------------

def NamedCommand.literal? : NamedCommand → Option Literal
  | .set _ _ value => some value
  | .ifThen check | .elseIf check => some check.value
  | _ => none

namespace Action

def literals (actions : List Action) : List Literal :=
  (emissions actions).filterMap (·.2.literal?)

def Finite (actions : List Action) : Prop := ∀ literal ∈ literals actions, literal.Finite

theorem finite_nil : Finite [] := nofun

theorem finite_append {first rest : List Action} :
    Finite (first ++ rest) ↔ Finite first ∧ Finite rest := by
  unfold Finite literals
  rw [emissions_append, List.filterMap_append, List.forall_mem_append]

theorem finite_emit {target : String} {command : NamedCommand} :
    Finite [.emit target command] ↔ ∀ literal ∈ command.literal?, literal.Finite := by
  simp [Finite, literals]

theorem finite_emit_append {body rest : List Action} :
    Finite (.emit target command :: body ++ rest) ↔
      Finite [.emit target command] ∧ Finite body ∧ Finite rest := by
  rw [← finite_append, ← finite_append]
  rfl

theorem finite_skip : Finite (.skip error :: rest) ↔ Finite rest := Iff.rfl

theorem finite_marker {check : Option Check} :
    Finite [.emit target (.marker first check)] ↔ ∀ found ∈ check, found.value.Finite := by
  rw [finite_emit]
  cases check with
  | none => simp [NamedCommand.marker, NamedCommand.literal?]
  | some found => cases first <;> simp [NamedCommand.marker, NamedCommand.literal?]

end Action

-- ---------------------------------------------------------------------------
-- Tame scripts
-- ---------------------------------------------------------------------------

namespace Tame

def conditions (kinds : Kinds) : List Clause → List (Option Check) → Prop
  | .mk (some comparison) _ :: rest, some check :: more =>
    comparison.value.Tame (kinds comparison.name) ∧
      conditions (kinds.declare check.name check.value.kind) rest more
  | _ :: rest, _ :: more => conditions kinds rest more
  | _, _ => True

mutual

/-- A statement that is given up uses nothing. -/
def statement (policy : MismatchPolicy) (target : String) (kinds : Kinds) : Statement → Prop
  | .choices options => choices policy target kinds options
  | .branch branches =>
    match Kinds.checks policy kinds branches with
    | .ok found => conditions kinds branches found ∧ clauses policy target true kinds branches found
    | .error _ => True
  | .assign operation name value =>
    match Plan.assignment policy kinds operation name value with
    | .ok _ => value.Tame (kinds name)
    | .error _ => True
  | _ => True

def statements (policy : MismatchPolicy) (target : String) (kinds : Kinds) :
    List Statement → Prop
  | [] => True
  | first :: rest =>
    let after := kinds.after (Plan.statement policy target kinds first).actions
    statement policy target kinds first ∧ statements policy target after rest

def choices (policy : MismatchPolicy) (target : String) (kinds : Kinds) : List Choice → Prop
  | [] => True
  | .mk label body :: rest =>
    let after := kinds.after (Plan.statements policy label kinds body).actions
    statements policy label kinds body ∧ choices policy target after rest

def clauses (policy : MismatchPolicy) (target : String) (first : Bool) (kinds : Kinds) :
    List Clause → List (Option Check) → Prop
  | .mk _ body :: rest, check :: more =>
    let before := kinds.afterCommand (.marker first check)
    let after := before.after (Plan.statements policy target before body).actions
    statements policy target before body ∧ clauses policy target false after rest more
  | _, _ => True

end

def phrase (policy : MismatchPolicy) (target : String) (kinds : Kinds) : Phrase → Prop
  | .statement source => statement policy target kinds source
  | .statements source => statements policy target kinds source
  | .choices source => choices policy target kinds source
  | .clauses first source found => clauses policy target first kinds source found

def nodes (policy : MismatchPolicy) (kinds : Kinds) (started : List String) : List Node → Prop
  | [] => True
  | source :: rest =>
    if source.name ∈ started then nodes policy kinds started rest
    else
      let after := kinds.after (Plan.statements policy source.name kinds source.statements).actions
      statements policy source.name kinds source.statements ∧
        nodes policy after (source.name :: started) rest

/-- No text that a script uses with a number, where it is lowered, names a number
that is not finite. -/
def script (options : Options) (source : Script) : Prop :=
  ∀ first, source.nodes.find? options.entry = some first →
    nodes options.mismatch .none [] (first :: source.others options.entry)

section

variable {policy : MismatchPolicy}

theorem statement_of_rejected {source : Statement} (h : source.Rejected policy kinds error) :
    statement policy target kinds source := by
  cases h with
  | branch hchecks => simp only [statement, hchecks]
  | assign hassign => simp only [statement, hassign]

theorem conditions_iff {kinds : Kinds} {source : List Clause} {found : List (Option Check)}
    (hfinite : Operands.Finite (Operands.clauses source))
    (h : Kinds.checks policy kinds source = .ok found) :
    (∀ check, some check ∈ found → check.value.Finite) ↔ conditions kinds source found := by
  induction source generalizing kinds found with
  | nil =>
    cases h
    simp [conditions]
  | cons clause rest ih =>
    obtain ⟨guard, body⟩ := clause
    rw [Operands.clauses, Operands.finite_append, Operands.finite_append] at hfinite
    obtain ⟨⟨hguard, _⟩, hrest⟩ := hfinite
    obtain ⟨check, more, rfl, hpasses, hmore⟩ := (Kinds.checks_cons_iff true).mp h
    have hlater := ih hrest hmore
    cases hpasses with
    | always =>
      simp only [conditions, List.mem_cons, reduceCtorEq, false_or]
      exact hlater
    | @compared _ _ _ comparison _ hliteral hfits =>
      have hvalue : comparison.value.Finite := hguard _ (List.mem_singleton_self _)
      rw [Kinds.afterCommand_marker] at hlater
      simp only [conditions, ← hlater, List.mem_cons, Option.some.injEq, forall_eq_or_imp,
        Operand.finite_iff_tame hvalue hliteral hfits]

theorem statement_iff_of_emits {source : Statement}
    (hfinite : Operands.Finite (Operands.statement source))
    (h : source.Emits policy kinds command) (target : String) :
    Action.Finite [.emit target command] ↔ statement policy target kinds source := by
  rw [Action.finite_emit]
  cases h with
  | @assign _ _ _ _ _ value hoperator hliteral hfits =>
    have hvalue : value.Finite := hfinite _ (List.mem_singleton_self _)
    have hassign := Plan.assignment_eq_ok_iff.mpr (.assign hoperator hliteral hfits)
    simp only [statement, hassign, ← Operand.finite_iff_tame hvalue hliteral hfits]
    simp [NamedCommand.literal?]
  | _ => simp [statement, NamedCommand.literal?]

def Checked : Phrase → Prop
  | .clauses _ _ found => ∀ check, some check ∈ found → check.value.Finite
  | _ => True

theorem phrase_iff (h : Lowered policy target kinds source actions)
    (hfinite : Operands.Finite (Operands.phrase source)) :
    Action.Finite actions ↔ Checked source ∧ phrase policy target kinds source := by
  have hend {target : String} : Action.Finite [.emit target .endIf] := Action.finite_emit.mpr nofun
  have hmenu {target label : String} : Action.Finite [.emit target (.menu label label)] :=
    Action.finite_emit.mpr nofun
  induction h with
  | emit hemits =>
    simp only [Checked, phrase, true_and]
    exact statement_iff_of_emits hfinite hemits _
  | ignore _ =>
    simp only [Checked, phrase, statement, true_and, iff_true]
    exact Action.finite_nil
  | unsupported =>
    simp only [Checked, phrase, statement, true_and, iff_true]
    exact Action.finite_nil
  | menu _ ih =>
    simp only [Checked, phrase, statement, true_and] at ih ⊢
    exact ih hfinite
  | branch hfound _ ih =>
    simp only [Checked, phrase, statement, hfound, true_and] at ih ⊢
    rw [Action.finite_append, and_iff_left hend, ← conditions_iff hfinite hfound]
    exact ih hfinite
  | nil =>
    simp only [Checked, phrase, statements, true_and, iff_true]
    exact Action.finite_nil
  | cons hlowered _ hfirst hrest =>
    obtain ⟨hleft, hright⟩ := Operands.finite_append.mp hfinite
    simp only [Checked, phrase, statements, hlowered.statement_eq, true_and] at hfirst hrest ⊢
    rw [Action.finite_append]
    exact and_congr (hfirst hleft) (hrest hright)
  | skip hrejected _ ih =>
    obtain ⟨_, hright⟩ := Operands.finite_append.mp hfinite
    simp only [Checked, phrase, statements, hrejected.statement_eq, true_and] at ih ⊢
    rw [Action.finite_skip, and_iff_right (statement_of_rejected hrejected)]
    exact ih hright
  | noChoice =>
    simp only [Checked, phrase, choices, true_and, iff_true]
    exact Action.finite_nil
  | choice hlowered _ hbody hrest =>
    obtain ⟨hleft, hright⟩ := Operands.finite_append.mp hfinite
    simp only [Checked, phrase, choices, hlowered.statements_eq, true_and] at hbody hrest ⊢
    rw [Action.finite_emit_append, and_iff_right hmenu]
    exact and_congr (hbody hleft) (hrest hright)
  | noClause =>
    simp only [Checked, phrase, clauses, List.not_mem_nil, false_implies, implies_true, and_true,
      iff_true]
    exact Action.finite_nil
  | @clause _ opening _ _ _ _ more _ _ _ _ _ _ hlowered _ hbody hrest =>
    rw [Operands.phrase, Operands.clauses, Operands.finite_append, Operands.finite_append]
      at hfinite
    obtain ⟨⟨_, hleft⟩, hright⟩ := hfinite
    have hopening : (∀ check, some check ∈ opening :: more → check.value.Finite) ↔
        (∀ check ∈ opening, check.value.Finite) ∧
          ∀ check, some check ∈ more → check.value.Finite := by
      simp only [List.mem_cons, or_imp, forall_and, eq_comm, Option.mem_def]
    simp only [Checked, phrase, clauses, hlowered.statements_eq, true_and] at hbody hrest ⊢
    rw [Action.finite_emit_append, Action.finite_marker, hopening, and_assoc,
      and_left_comm (a := ∀ check, some check ∈ more → _)]
    exact and_congr Iff.rfl (and_congr (hbody hleft) (hrest hright))

theorem nodes_iff {kinds : Kinds} {started : List String} {order : List Node}
    (hfinite : ∀ source ∈ order, Operands.Finite (Operands.node source))
    (h : (Plan.nodes policy kinds started order).failure = none) :
    Action.Finite (Plan.nodes policy kinds started order).actions ↔
      nodes policy kinds started order := by
  induction order generalizing kinds started with
  | nil =>
    simp only [Plan.nodes, nodes, iff_true]
    exact Action.finite_nil
  | cons source rest ih =>
    obtain ⟨hsource, hothers⟩ := List.forall_mem_cons.mp hfinite
    simp only [nodes]
    rcases Plan.nodes_cons_cases h with ⟨hstarted, hrest, hactions⟩ |
      ⟨hstarted, body, hbody, hrest, hactions⟩
    · rw [hactions, if_pos hstarted]
      exact ih hothers hrest
    · have hstatements := phrase_iff hbody hsource
      simp only [Checked, phrase, true_and] at hstatements
      rw [hactions, if_neg hstarted, ← hstatements, hbody.statements_eq, ← ih hothers hrest]
      exact Action.finite_append

theorem script_iff {source : Script} {options : Options}
    (hfinite : Operands.Finite source.operands) (h : (source.plan options).failure = none) :
    Action.Finite (source.plan options).actions ↔ script options source := by
  obtain ⟨first, hfirst⟩ := Script.find?_of_failure_eq_none h
  rw [Script.plan_eq hfirst] at h ⊢
  have hnodes := (Plan.failure_andThen_eq_none.mp h).1
  have hend : Action.Finite [.finish source.name] := nofun
  have horder : ∀ node ∈ first :: source.others options.entry,
      Operands.Finite (Operands.node node) := fun node hnode operand hoperand =>
    hfinite operand (Script.operands_subset hfirst hnode hoperand)
  rw [Plan.actions_andThen hnodes, Action.finite_append, and_iff_left hend,
    nodes_iff horder hnodes]
  constructor
  · intro htame other hother
    cases hfirst.symm.trans hother
    exact htame
  · intro htame
    exact htame first hfirst

end

-- ---------------------------------------------------------------------------
-- Operands that are tame wherever they stand
-- ---------------------------------------------------------------------------

/-- However its variable is declared, an operand is tame if it fits. -/
def Harmless (policy : MismatchPolicy) (operands : List (String × Operand)) : Prop :=
  ∀ operand ∈ operands, ∀ declared literal fitted, operand.2.literal = .ok literal →
    conform operand.1 declared policy literal = .ok fitted → operand.2.Tame declared

theorem harmless_append {policy : MismatchPolicy} {first rest : List (String × Operand)} :
    Harmless policy (first ++ rest) ↔ Harmless policy first ∧ Harmless policy rest :=
  List.forall_mem_append

theorem harmless_reject (operands : List (String × Operand)) : Harmless .reject operands := by
  rintro ⟨name, value⟩ _ declared literal fitted hliteral hfits
  cases value with
  | string text =>
    rintro rfl
    cases hliteral
    cases hfits
  | _ => trivial

theorem harmless_of_texts {operands : List (String × Operand)}
    (h : ∀ operand ∈ operands, ∀ text, operand.2 = .string text →
      ∀ value, Number.ofText? (Text.trim text) = some value → value.isFinite = true)
    (policy : MismatchPolicy) : Harmless policy operands := by
  rintro ⟨name, value⟩ hmem declared _ _ _ _
  cases value with
  | string text => exact fun _ => h _ hmem text rfl
  | _ => trivial

section

variable {policy : MismatchPolicy}

theorem conditions_of_harmless {kinds : Kinds} {source : List Clause} {found : List (Option Check)}
    (hharmless : Harmless policy (Operands.clauses source))
    (h : Kinds.checks policy kinds source = .ok found) : conditions kinds source found := by
  induction source generalizing kinds found with
  | nil => trivial
  | cons clause rest ih =>
    obtain ⟨guard, body⟩ := clause
    rw [Operands.clauses, harmless_append, harmless_append] at hharmless
    obtain ⟨⟨hguard, _⟩, hrest⟩ := hharmless
    obtain ⟨check, more, rfl, hpasses, hmore⟩ := (Kinds.checks_cons_iff true).mp h
    have hlater := ih hrest hmore
    cases hpasses with
    | always => exact hlater
    | compared _ hliteral hfits =>
      exact ⟨hguard _ (List.mem_singleton_self _) _ _ _ hliteral hfits, hlater⟩

theorem phrase_of_harmless (h : Planned policy target kinds source plan)
    (hharmless : Harmless policy (Operands.phrase source)) :
    phrase policy target kinds source := by
  induction h with
  | emit hemits =>
    cases hemits with
    | assign hoperator hliteral hfits =>
      have hassign := Plan.assignment_eq_ok_iff.mpr (.assign hoperator hliteral hfits)
      simp only [phrase, statement, hassign]
      exact hharmless _ (List.mem_singleton_self _) _ _ _ hliteral hfits
    | _ => simp only [phrase, statement]
  | ignore _ | malformed _ | unsupported => simp only [phrase, statement]
  | rejected hrejected => exact statement_of_rejected hrejected
  | menu _ ih =>
    simp only [phrase, statement] at ih ⊢
    exact ih hharmless
  | branch hfound _ ih =>
    simp only [phrase, statement, hfound] at ih ⊢
    exact ⟨conditions_of_harmless hharmless hfound, ih hharmless⟩
  | nil => simp only [phrase, statements]
  | cons hplanned _ hfirst hrest =>
    obtain ⟨hleft, hright⟩ := harmless_append.mp hharmless
    have hplan := hplanned.plan_eq
    simp only [Phrase.plan] at hplan
    simp only [phrase, statements, hplan, Plan.after_recovering] at hfirst hrest ⊢
    exact ⟨hfirst hleft, hrest hright⟩
  | noChoice => simp only [phrase, choices]
  | choice hplanned _ hbody hrest =>
    obtain ⟨hleft, hright⟩ := harmless_append.mp hharmless
    have hplan := hplanned.plan_eq
    simp only [Phrase.plan] at hplan
    simp only [phrase, choices, hplan] at hbody hrest ⊢
    exact ⟨hbody hleft, hrest hright⟩
  | noClause => simp only [phrase, clauses]
  | clause _ _ hplanned _ hbody hrest =>
    rw [Operands.phrase, Operands.clauses, harmless_append, harmless_append] at hharmless
    obtain ⟨⟨_, hleft⟩, hright⟩ := hharmless
    have hplan := hplanned.plan_eq
    simp only [Phrase.plan] at hplan
    simp only [phrase, clauses, hplan] at hbody hrest ⊢
    exact ⟨hbody hleft, hrest hright⟩

theorem nodes_of_harmless {kinds : Kinds} {started : List String} {order : List Node}
    (h : ∀ source ∈ order, Harmless policy (Operands.node source)) :
    nodes policy kinds started order := by
  induction order generalizing kinds started with
  | nil => simp only [nodes]
  | cons source rest ih =>
    obtain ⟨hsource, hrest⟩ := List.forall_mem_cons.mp h
    simp only [nodes]
    split
    · exact ih hrest
    · exact ⟨phrase_of_harmless (Plan.planned_statements source.statements) hsource, ih hrest⟩

theorem script_of_harmless {source : Script} {options : Options}
    (h : Harmless options.mismatch source.operands) : script options source := by
  intro first hfirst
  refine nodes_of_harmless fun node hnode operand hoperand => ?_
  exact h operand (Script.operands_subset hfirst hnode hoperand)

end

end Tame

end Dialogue
