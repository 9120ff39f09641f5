import Dialogue.Proofs.Outcome
import Dialogue.Proofs.Success

/-!
# Kinds of conditions

All comparisons of a branch are checked before any of its clauses is lowered, so
a check sees what the script has declared so far and what the clauses before it
compare, but not what their bodies declare. `Script.wellKinded_iff` says that
this is the only gap: the conditions of a compiled script compare variables with
literals of their kinds exactly if no body declares a variable that a later
clause of its branch compares with a literal of another kind.
-/

namespace Dialogue

-- ---------------------------------------------------------------------------
-- Checks that fit
-- ---------------------------------------------------------------------------

def Check.Fits (kinds : Kinds) (check : Check) : Prop :=
  kinds check.name = none ∨ kinds check.name = some check.value.kind

namespace Check

theorem Fits.of_grows {check : Check} (h : check.Fits after) (hgrows : Kinds.Grows before after) :
    check.Fits before := by
  cases hbefore : before check.name with
  | none => exact .inl hbefore
  | some kind =>
    rcases h with hnone | hsome
    · simp [hgrows _ _ hbefore] at hnone
    · exact .inr (hbefore.trans ((hgrows _ _ hbefore).symm.trans hsome))

theorem fits_iff_declare {kinds : Kinds} {check : Check} :
    check.Fits kinds ↔
      kinds.declare check.name check.value.kind check.name = some check.value.kind := by
  unfold Fits Kinds.declare
  cases kinds check.name <;> simp

theorem fits_of_passes {kinds : Kinds} {check : Check}
    (h : kinds.Passes policy condition (some check)) : check.Fits kinds := by
  cases h with
  | @compared _ _ _ comparison _ _ hvalue =>
    unfold Fits
    cases hdeclared : kinds comparison.name with
    | none => exact .inl rfl
    | some kind =>
      rw [hdeclared] at hvalue
      exact .inr (congrArg some (kind_of_conform hvalue).symm)

theorem fits_of_checks {source : List Clause} {found : List (Option Check)}
    (h : Kinds.checks policy kinds source = .ok found) (hmem : some check ∈ found) :
    check.Fits kinds := by
  induction source generalizing kinds found with
  | nil =>
    cases h
    cases hmem
  | cons clause rest ih =>
    obtain ⟨condition, body⟩ := clause
    obtain ⟨first, more, rfl, hpasses, hmore⟩ := (Kinds.checks_cons_iff true).mp h
    rcases List.mem_cons.mp hmem with rfl | hrest
    · exact fits_of_passes hpasses
    · exact (ih hmore hrest).of_grows (kinds.grows_afterCommand _)

/-- Checks of one branch that compare the same variable have literals of one kind. -/
def Consistent (found : List (Option Check)) : Prop :=
  found.Pairwise fun earlier later => ∀ first ∈ earlier, ∀ second ∈ later,
    first.name = second.name → first.value.kind = second.value.kind

theorem consistent_of_checks {source : List Clause} {found : List (Option Check)}
    (h : Kinds.checks policy kinds source = .ok found) : Consistent found := by
  induction source generalizing kinds found with
  | nil =>
    cases h
    exact .nil
  | cons clause rest ih =>
    obtain ⟨condition, body⟩ := clause
    obtain ⟨check, more, rfl, hpasses, hmore⟩ := (Kinds.checks_cons_iff true).mp h
    refine .cons ?_ (ih hmore)
    rintro _ hlater first rfl second rfl hname
    -- The later check has been made with the variable of this one declared.
    have hdeclared := fits_iff_declare.mp (fits_of_passes hpasses)
    rw [Kinds.afterCommand_marker] at hmore
    rcases fits_of_checks hmore hlater with hnone | hsome
    · simp [← hname, hdeclared] at hnone
    · rw [← hname, hdeclared] at hsome
      exact Option.some.inj hsome

theorem Fits.marker {kinds : Kinds} {found : List (Option Check)} {check : Option Check}
    {later : Check} (hconsistent : Consistent (check :: found))
    (hfits : ∀ check', some check' ∈ check :: found → check'.Fits kinds)
    (hlater : some later ∈ found) : later.Fits (kinds.afterCommand (.marker first check)) := by
  have hkinds := hfits later (List.mem_cons_of_mem _ hlater)
  cases check with
  | none => exact hkinds
  | some check =>
    have hcheck := fits_iff_declare.mp (hfits check List.mem_cons_self)
    rw [Kinds.afterCommand_marker]
    by_cases hname : check.name = later.name
    · have hkind := (List.pairwise_cons.mp hconsistent).1 _ hlater check rfl later rfl hname
      exact .inr (by rw [← hname, hcheck, hkind])
    · simpa [Fits, Kinds.declare, hname] using hkinds

end Check

-- ---------------------------------------------------------------------------
-- Actions whose checks fit in the end
-- ---------------------------------------------------------------------------

def NamedCommand.check? : NamedCommand → Option Check
  | .ifThen check | .elseIf check => some check
  | _ => none

/-- Every check that is emitted compares a variable with a literal of the kind
that the variable has in the end. -/
def Action.WellKinded (kinds : Kinds) (actions : List Action) : Prop :=
  ∀ emission ∈ Action.emissions actions, ∀ check ∈ emission.2.check?,
    kinds.after actions check.name = some check.value.kind

namespace Action

variable {kinds : Kinds}

theorem wellKinded_nil : WellKinded kinds [] := by simp [WellKinded]

theorem declared_of_check? (kinds : Kinds) {command : NamedCommand}
    (h : command.check? = some check) :
    ∃ kind, kinds.afterCommand command check.name = some kind := by
  have hdeclare : ∃ kind, kinds.declare check.name check.value.kind check.name = some kind := by
    cases hkind : kinds check.name <;> simp [Kinds.declare, hkind]
  cases command with
  | ifThen found =>
    cases h
    exact hdeclare
  | elseIf found =>
    cases h
    exact hdeclare
  | _ => cases h

theorem declared_of_mem (kinds : Kinds) {actions : List Action} (h : emission ∈ emissions actions)
    (hcheck : emission.2.check? = some check) :
    ∃ kind, kinds.after actions check.name = some kind := by
  induction actions generalizing kinds with
  | nil => simp at h
  | cons action rest ih =>
    cases action with
    | emit target command =>
      rw [emissions_emit] at h
      rcases List.mem_cons.mp h with rfl | hrest
      · obtain ⟨kind, hkind⟩ := declared_of_check? kinds hcheck
        exact ⟨kind, Kinds.grows_after _ rest _ _ hkind⟩
      · exact ih _ hrest
    | _ => exact ih kinds h

/-- What later actions declare does not matter to the checks before them. -/
theorem wellKinded_append {first rest : List Action} :
    WellKinded kinds (first ++ rest) ↔
      WellKinded kinds first ∧ WellKinded (kinds.after first) rest := by
  unfold WellKinded
  rw [emissions_append, Kinds.after_append]
  constructor
  · intro h
    refine ⟨?_, fun emission hmem => h emission (List.mem_append_right _ hmem)⟩
    intro emission hmem check hcheck
    obtain ⟨kind, hkind⟩ := declared_of_mem kinds hmem hcheck
    have hlast := h emission (List.mem_append_left _ hmem) check hcheck
    exact hkind.trans ((Kinds.grows_after _ rest _ _ hkind).symm.trans hlast)
  · rintro ⟨hfirst, hrest⟩ emission hmem check hcheck
    rcases List.mem_append.mp hmem with hmem | hmem
    · exact Kinds.grows_after _ rest _ _ (hfirst emission hmem check hcheck)
    · exact hrest emission hmem check hcheck

theorem wellKinded_emit_append {body rest : List Action} :
    WellKinded kinds (.emit target command :: body ++ rest) ↔
      WellKinded kinds [.emit target command] ∧ WellKinded (kinds.afterCommand command) body ∧
        WellKinded ((kinds.afterCommand command).after body) rest := by
  have hsplit : Action.emit target command :: body ++ rest =
      [.emit target command] ++ (body ++ rest) := rfl
  rw [hsplit, wellKinded_append, wellKinded_append]
  rfl

theorem wellKinded_emit_of_check?_eq_none {command : NamedCommand} (h : command.check? = none) :
    WellKinded kinds [.emit target command] := by
  intro emission hmem check hcheck
  cases List.mem_singleton.mp hmem
  simp [h] at hcheck

theorem wellKinded_marker {check : Check} :
    WellKinded kinds [.emit target (.marker first (some check))] ↔ check.Fits kinds := by
  rw [Check.fits_iff_declare]
  cases first <;> simp [WellKinded, NamedCommand.marker, NamedCommand.check?, Kinds.after,
    Action.kinds, Kinds.afterCommand]

theorem wellKinded_skip : WellKinded kinds (.skip error :: rest) ↔ WellKinded kinds rest := Iff.rfl

end Action

-- ---------------------------------------------------------------------------
-- Bodies that leave later clauses alone
-- ---------------------------------------------------------------------------

namespace Undisturbed

mutual

def statement (policy : MismatchPolicy) (target : String) (kinds : Kinds) : Statement → Prop
  | .choices options => choices policy target kinds options
  | .branch branches =>
    match Kinds.checks policy kinds branches with
    | .ok found => clauses policy target true kinds branches found
    | .error _ => True
  | _ => True

def statements (policy : MismatchPolicy) (target : String) (kinds : Kinds) :
    List Statement → Prop
  | [] => True
  | first :: rest =>
    let after := kinds.after (Plan.statement policy target kinds first).actions
    statement policy target kinds first ∧ statements policy target after rest

def choices (policy : MismatchPolicy) (target : String) (kinds : Kinds) : List Choice → Prop
  | [] => True
  | .mk label body :: rest =>
    let after := kinds.after (Plan.statements policy label kinds body).actions
    statements policy label kinds body ∧ choices policy target after rest

/-- If the body of a clause is the first to declare a variable that a later clause
compares, it declares it with the kind of the literal there. -/
def clauses (policy : MismatchPolicy) (target : String) (first : Bool) (kinds : Kinds) :
    List Clause → List (Option Check) → Prop
  | .mk _ body :: rest, check :: more =>
    let before := kinds.afterCommand (.marker first check)
    let after := before.after (Plan.statements policy target before body).actions
    statements policy target before body ∧
      (∀ later, some later ∈ more → before later.name = none → later.Fits after) ∧
        clauses policy target false after rest more
  | _, _ => True

end

def phrase (policy : MismatchPolicy) (target : String) (kinds : Kinds) : Phrase → Prop
  | .statement source => statement policy target kinds source
  | .statements source => statements policy target kinds source
  | .choices source => choices policy target kinds source
  | .clauses first source found => clauses policy target first kinds source found

def nodes (policy : MismatchPolicy) (kinds : Kinds) (started : List String) : List Node → Prop
  | [] => True
  | source :: rest =>
    if source.name ∈ started then nodes policy kinds started rest
    else
      let after := kinds.after (Plan.statements policy source.name kinds source.statements).actions
      statements policy source.name kinds source.statements ∧
        nodes policy after (source.name :: started) rest

/-- No body of a clause, anywhere in a script, declares a variable that a later
clause of its branch compares with a literal of another kind. -/
def script (options : Options) (source : Script) : Prop :=
  ∀ first, source.nodes.find? options.entry = some first →
    nodes options.mismatch .none [] (first :: source.others options.entry)

section

variable {policy : MismatchPolicy}

theorem statement_of_rejected {source : Statement} (h : source.Rejected policy kinds error) :
    statement policy target kinds source := by
  cases h with
  | branch hchecks => simp only [statement, hchecks]
  | assign _ => simp only [statement]

theorem fits_of_wellKinded {source : List Clause} {found : List (Option Check)}
    (h : Lowered policy target kinds (.clauses first source found) actions)
    (hkinded : Action.WellKinded kinds actions) (hcheck : some check ∈ found) :
    check.Fits kinds := by
  induction source generalizing first kinds found actions with
  | nil =>
    cases h
    cases hcheck
  | cons clause rest ih =>
    cases h with
    | clause _ _ _ hrest =>
      rw [Action.wellKinded_emit_append] at hkinded
      obtain ⟨hmarker, _, hkindedRest⟩ := hkinded
      rcases List.mem_cons.mp hcheck with rfl | hmem
      · exact Action.wellKinded_marker.mp hmarker
      · have hafter := ih hrest hkindedRest hmem
        exact (hafter.of_grows (Kinds.grows_after _ _)).of_grows (Kinds.grows_afterCommand _ _)

def PendingFit (kinds : Kinds) : Phrase → Prop
  | .clauses _ _ found =>
    (∀ check, some check ∈ found → check.Fits kinds) ∧ Check.Consistent found
  | _ => True

theorem phrase_iff (h : Lowered policy target kinds source actions)
    (hfits : PendingFit kinds source) :
    Action.WellKinded kinds actions ↔ phrase policy target kinds source := by
  induction h with
  | emit hemits =>
    cases hemits <;> simp only [phrase, statement, iff_true] <;>
      exact Action.wellKinded_emit_of_check?_eq_none rfl
  | ignore _ =>
    simp only [phrase, statement, iff_true]
    exact Action.wellKinded_nil
  | unsupported =>
    simp only [phrase, statement, iff_true]
    exact Action.wellKinded_nil
  | menu _ ih =>
    simp only [phrase, statement] at ih ⊢
    exact ih trivial
  | branch hfound _ ih =>
    simp only [phrase, statement, hfound] at ih ⊢
    rw [Action.wellKinded_append,
      ih ⟨fun _ => Check.fits_of_checks hfound, Check.consistent_of_checks hfound⟩]
    exact and_iff_left (Action.wellKinded_emit_of_check?_eq_none rfl)
  | nil =>
    simp only [phrase, statements, iff_true]
    exact Action.wellKinded_nil
  | cons hlowered _ hfirst hrest =>
    simp only [phrase, statements, hlowered.statement_eq] at hfirst hrest ⊢
    rw [Action.wellKinded_append, hfirst trivial, hrest trivial]
  | skip hrejected _ ih =>
    simp only [phrase, statements, hrejected.statement_eq] at ih ⊢
    rw [Action.wellKinded_skip, ih trivial]
    exact (and_iff_right (statement_of_rejected hrejected)).symm
  | noChoice =>
    simp only [phrase, choices, iff_true]
    exact Action.wellKinded_nil
  | choice hlowered _ hbody hrest =>
    simp only [phrase, choices, hlowered.statements_eq] at hbody hrest ⊢
    rw [Action.wellKinded_emit_append]
    rw [and_iff_right (Action.wellKinded_emit_of_check?_eq_none rfl)]
    exact and_congr (hbody trivial) (hrest trivial)
  | noClause =>
    simp only [phrase, clauses, iff_true]
    exact Action.wellKinded_nil
  | @clause _ opening target _ _ _ found _ kinds first _ _ _ hlowered hclauses hbody hrest =>
    obtain ⟨hfits, hconsistent⟩ := hfits
    simp only [phrase, clauses, hlowered.statements_eq] at hbody hrest ⊢
    have hmarker : Action.WellKinded kinds [.emit target (.marker first opening)] := by
      cases opening with
      | none => exact Action.wellKinded_emit_of_check?_eq_none rfl
      | some check => exact Action.wellKinded_marker.mpr (hfits check List.mem_cons_self)
    have hcloses := (List.pairwise_cons.mp hconsistent).2
    rw [Action.wellKinded_emit_append, and_iff_right hmarker]
    refine and_congr (hbody trivial) ⟨?_, ?_⟩
    · intro hkinded
      have hafter := fun later (hlater : some later ∈ found) =>
        fits_of_wellKinded hclauses hkinded hlater
      exact ⟨fun later hlater _ => hafter later hlater, (hrest ⟨hafter, hcloses⟩).mp hkinded⟩
    · rintro ⟨hnew, hundisturbed⟩
      refine (hrest ⟨?_, hcloses⟩).mpr hundisturbed
      -- A variable that was declared before the body has kept its kind.
      intro later hlater
      rcases Check.Fits.marker hconsistent hfits hlater with hnone | hsome
      · exact hnew later hlater hnone
      · exact .inr (Kinds.grows_after _ _ _ _ hsome)

theorem nodes_iff {kinds : Kinds} {started : List String} {order : List Node}
    (h : (Plan.nodes policy kinds started order).failure = none) :
    Action.WellKinded kinds (Plan.nodes policy kinds started order).actions ↔
      nodes policy kinds started order := by
  induction order generalizing kinds started with
  | nil =>
    simp only [Plan.nodes, nodes, iff_true]
    exact Action.wellKinded_nil
  | cons source rest ih =>
    simp only [nodes]
    rcases Plan.nodes_cons_cases h with ⟨hstarted, hrest, hactions⟩ |
      ⟨hstarted, body, hbody, hrest, hactions⟩
    · rw [hactions, if_pos hstarted]
      exact ih hrest
    · have hstatements : Action.WellKinded kinds body ↔ statements policy source.name kinds
          source.statements := phrase_iff hbody trivial
      rw [hactions, if_neg hstarted, ← hstatements, hbody.statements_eq, ← ih hrest]
      exact Action.wellKinded_append

theorem script_iff {source : Script} {options : Options}
    (h : (source.plan options).failure = none) :
    Action.WellKinded .none (source.plan options).actions ↔ script options source := by
  obtain ⟨first, hfirst⟩ := Script.find?_of_failure_eq_none h
  simp only [script, hfirst, Option.some.injEq, forall_eq']
  rw [Script.plan_eq hfirst] at h ⊢
  have hnodes := (Plan.failure_andThen_eq_none.mp h).1
  rw [Plan.actions_andThen hnodes, Action.wellKinded_append, nodes_iff hnodes]
  exact and_iff_left (by simp [Action.WellKinded])

end

end Undisturbed

-- ---------------------------------------------------------------------------
-- Conditions of a compiled script
-- ---------------------------------------------------------------------------

def Command.condition? : Command → Option Condition
  | .ifThen condition | .elseIf condition => some condition
  | _ => none

/-- Every condition compares a variable of the listing with a literal of its kind. -/
def Listing.WellKinded (listing : Listing) : Prop :=
  ∀ block ∈ listing.blocks, ∀ condition ∈ block.commands.filterMap Command.condition?,
    (listing.vars[condition.subject.index.toNat]?).map (·.kind) = some condition.value.kind

instance (listing : Listing) : Decidable listing.WellKinded :=
  inferInstanceAs (Decidable (∀ block ∈ listing.blocks, ∀ condition ∈ _, _ = _))

theorem NamedCommand.condition?_resolve {σ : Type} [Host σ] (session : Session σ)
    (command : NamedCommand) :
    (command.resolve session).condition? = command.check?.map fun check =>
      ⟨check.operator, (session.variableOf check.name check.value.kind).id, check.value⟩ := by
  cases command <;> rfl

theorem NamedCommand.Known.variable {σ : Type} [Host σ] {session : Session σ}
    {command : NamedCommand} (h : command.Known session) (hcheck : command.check? = some check) :
    ∃ found, session.vars.find? check.name = some found := by
  cases command with
  | ifThen found =>
    cases hcheck
    exact h
  | elseIf found =>
    cases hcheck
    exact h
  | _ => cases hcheck

namespace Script

variable {script : Script} {options : Options}

theorem kind_variableOf
    (hvars : (script.compilation options).ledger.host.listing.vars.length ≤ UInt32.size)
    (hmem : emission ∈ Action.emissions (script.plan options).actions)
    (hcheck : emission.2.check? = some check) :
    ((script.compilation options).ledger.host.listing.vars[((script.compilation options).variableOf
        check.name check.value.kind).id.index.toNat]?).map (·.kind) =
      Kinds.none.after (script.plan options).actions check.name := by
  obtain ⟨found, hfound⟩ := (known_compilation hmem).2.variable hcheck
  obtain ⟨listed, hlisted, _, hkind⟩ :=
    (script.indexed_compilation options).variable_of_find? hvars hfound
  rw [← kinds_compilation, Session.variableOf_of_find? hfound, hlisted]
  simp [Session.kinds, VariableRegistry.kind?, hfound, hkind]

theorem wellKinded_compilation
    (hcount : (script.compilation options).ledger.host.listing.commands.length ≤ UInt32.size)
    (hvars : (script.compilation options).ledger.host.listing.vars.length ≤ UInt32.size) :
    (script.compilation options).ledger.host.listing.WellKinded ↔
      Action.WellKinded .none (script.plan options).actions := by
  constructor
  · intro h emission hmem check hcheck
    obtain ⟨block, hblock, hcommand⟩ := exists_block_of_mem hcount hmem
    rw [← kind_variableOf hvars hmem hcheck]
    have hcondition : (emission.2.resolve (script.compilation options)).condition? = some
        ⟨check.operator, ((script.compilation options).variableOf check.name check.value.kind).id,
          check.value⟩ := by
      rw [NamedCommand.condition?_resolve, hcheck]
      rfl
    exact h block hblock _ (List.mem_filterMap.mpr ⟨_, hcommand, hcondition⟩)
  · intro h block hblock condition hcondition
    obtain ⟨position, hposition⟩ := List.mem_iff_getElem?.mp hblock
    rw [script.commands_compilation options hcount hposition, List.mem_filterMap] at hcondition
    obtain ⟨command, hcommand, hsome⟩ := hcondition
    obtain ⟨emission, hemission, rfl⟩ := List.mem_map.mp hcommand
    have hmem := (List.mem_filter.mp hemission).1
    rw [NamedCommand.condition?_resolve, Option.map_eq_some_iff] at hsome
    obtain ⟨check, hcheck, rfl⟩ := hsome
    rw [kind_variableOf hvars hmem hcheck]
    exact h emission hmem check hcheck

/-- The conditions of a compiled script compare variables with literals of their
kinds exactly if no body of a clause declares a variable that a later clause of
its branch compares with a literal of another kind. -/
theorem wellKinded_iff {script : Script} {options : Options} {compiled : Compiled}
    (hcompile : script.compile options = .ok compiled)
    (hcount : compiled.flowchart.commands.length ≤ UInt32.size)
    (hvars : compiled.flowchart.vars.length ≤ UInt32.size) :
    compiled.flowchart.WellKinded ↔ Undisturbed.script options script := by
  obtain ⟨hplan, rfl⟩ := compile_eq_ok_iff.mp hcompile
  rw [wellKinded_compilation hcount hvars, Undisturbed.script_iff hplan]

def lateKind (value : Operand) : Script := .ofNodes "" [
  ⟨"Start", [
    .branch [
      .mk (some ⟨"EqualTo", "x", .bool true⟩) [.assign "EqualToOrAssign" "y" value],
      .mk (some ⟨"EqualTo", "y", .bool false⟩) []]]⟩]

def lateKindListing (kind : Kind) (value : Literal) : Listing where
  name := ""
  blocks := [⟨"Start", [.ifThen ⟨.equals, ⟨0⟩, .bool true⟩, .set .assign ⟨1⟩ value,
    .elseIf ⟨.equals, ⟨1⟩, .bool false⟩, .endIf]⟩]
  vars := [⟨"x", .bool, .everywhere, .bool false⟩, ⟨"y", kind, .everywhere, .zero kind⟩]

theorem wellKinded_lateKind_bool :
    (lateKind (.bool true)).compile {} = .ok ⟨⟨0⟩, lateKindListing .bool (.bool true), []⟩ ∧
      (lateKindListing .bool (.bool true)).WellKinded ∧
        Undisturbed.script {} (lateKind (.bool true)) := by
  have hcompile : (lateKind (.bool true)).compile {} =
      .ok ⟨⟨0⟩, lateKindListing .bool (.bool true), []⟩ := by decide +kernel
  have hkinded : (lateKindListing .bool (.bool true)).WellKinded := by decide
  exact ⟨hcompile, hkinded, (wellKinded_iff hcompile (by decide) (by decide)).mp hkinded⟩

theorem not_wellKinded_lateKind_string :
    (lateKind (.string "a")).compile {} = .ok ⟨⟨0⟩, lateKindListing .string (.string "a"), []⟩ ∧
      ¬ (lateKindListing .string (.string "a")).WellKinded := by
  constructor
  · decide +kernel
  · decide

end Script

end Dialogue
