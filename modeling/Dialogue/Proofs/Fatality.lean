import Dialogue.Proofs.Naming

/-!
# Errors that end a compilation

Only two things end a compilation: there is no node to start from, or a directive
is malformed. Whatever else can be wrong costs one statement, and of all
statements only a branch takes directives with it when it is given up. So a
script that compiles has malformed directives inside branches only, and none at
all if nothing is reported (`Script.outcome_of_directives`).
-/

namespace Dialogue

-- ---------------------------------------------------------------------------
-- The directives of a script
-- ---------------------------------------------------------------------------

/-- A directive where it stands: its text, and whether a branch is around it. -/
structure DirectiveUse where
  raw : String
  conditional : Bool
  deriving DecidableEq, Repr

namespace Directives

mutual

def statement (conditional : Bool) : Statement → List DirectiveUse
  | .directive raw => [⟨raw, conditional⟩]
  | .choices options => choices conditional options
  | .branch branches => clauses branches
  | _ => []

def statements (conditional : Bool) : List Statement → List DirectiveUse
  | [] => []
  | first :: rest => statement conditional first ++ statements conditional rest

def choices (conditional : Bool) : List Choice → List DirectiveUse
  | [] => []
  | .mk _ body :: rest => statements conditional body ++ choices conditional rest

def clauses : List Clause → List DirectiveUse
  | [] => []
  | .mk _ body :: rest => statements true body ++ clauses rest

end

def phrase (conditional : Bool) : Phrase → List DirectiveUse
  | .statement source => statement conditional source
  | .statements source => statements conditional source
  | .choices source => choices conditional source
  | .clauses _ source _ => clauses source

def node (source : Node) : List DirectiveUse := statements false source.statements

end Directives

def Script.directives (script : Script) : List DirectiveUse :=
  script.nodes.values.flatMap Directives.node

namespace Directives

mutual

theorem conditional_of_statement : ∀ source : Statement, ∀ use ∈ statement true source,
    use.conditional = true
  | .directive raw, use, h => by
    simp only [statement, List.mem_singleton] at h
    rw [h]
  | .choices options, use, h => by
    simp only [statement] at h
    exact conditional_of_choices options use h
  | .branch branches, use, h => by
    simp only [statement] at h
    exact conditional_of_clauses branches use h
  | .line _, _, h | .jump _, _, h | .assign _ _ _, _, h | .unsupported, _, h => by
    simp [statement] at h

theorem conditional_of_statements : ∀ source : List Statement, ∀ use ∈ statements true source,
    use.conditional = true
  | [], use, h => by simp [statements] at h
  | first :: rest, use, h => by
    simp only [statements] at h
    rcases List.mem_append.mp h with hfirst | hrest
    · exact conditional_of_statement first use hfirst
    · exact conditional_of_statements rest use hrest

theorem conditional_of_choices : ∀ source : List Choice, ∀ use ∈ choices true source,
    use.conditional = true
  | [], use, h => by simp [choices] at h
  | .mk _ body :: rest, use, h => by
    simp only [choices] at h
    rcases List.mem_append.mp h with hbody | hrest
    · exact conditional_of_statements body use hbody
    · exact conditional_of_choices rest use hrest

theorem conditional_of_clauses : ∀ source : List Clause, ∀ use ∈ clauses source,
    use.conditional = true
  | [], use, h => by simp [clauses] at h
  | .mk _ body :: rest, use, h => by
    simp only [clauses] at h
    rcases List.mem_append.mp h with hbody | hrest
    · exact conditional_of_statements body use hbody
    · exact conditional_of_clauses rest use hrest

end

end Directives

-- ---------------------------------------------------------------------------
-- A plan fails for a directive
-- ---------------------------------------------------------------------------

theorem Planned.exists_rejected (h : Planned policy target kinds phrase plan)
    (hfailure : plan.failure = some error) (hfatal : error.isFatal = true) (conditional : Bool) :
    ∃ use ∈ Directives.phrase conditional phrase, Directive.parse use.raw = .error error := by
  induction h generalizing conditional with
  | emit _ | ignore _ | unsupported | nil | noChoice | noClause => cases hfailure
  | malformed hparse =>
    cases hfailure
    exact ⟨⟨_, conditional⟩, by simp [Directives.phrase, Directives.statement], hparse⟩
  | rejected hrejected =>
    cases hfailure
    simp [hrejected.isFatal] at hfatal
  | menu _ ih =>
    simp only [Directives.phrase, Directives.statement] at ih ⊢
    exact ih hfailure conditional
  | branch _ _ ih =>
    simp only [Directives.phrase, Directives.statement] at ih ⊢
    exact ih ((Plan.failure_andThen_eq_some hfailure).resolve_right nofun) conditional
  | cons _ _ hfirst hrest =>
    simp only [Directives.phrase, Directives.statements, List.mem_append]
    rcases Plan.failure_andThen_eq_some hfailure with hfailed | hlater
    · obtain ⟨use, hmem, hparse⟩ := hfirst (Plan.failure_of_recovering hfailed) conditional
      exact ⟨use, .inl hmem, hparse⟩
    · obtain ⟨use, hmem, hparse⟩ := hrest hlater conditional
      exact ⟨use, .inr hmem, hparse⟩
  | choice _ _ hbody hrest =>
    simp only [Directives.phrase, Directives.choices, List.mem_append]
    rcases Plan.failure_andThen_eq_some hfailure with hentry | hlater
    · obtain ⟨use, hmem, hparse⟩ :=
        hbody ((Plan.failure_andThen_eq_some hentry).resolve_left nofun) conditional
      exact ⟨use, .inl hmem, hparse⟩
    · obtain ⟨use, hmem, hparse⟩ := hrest hlater conditional
      exact ⟨use, .inr hmem, hparse⟩
  | clause _ _ _ _ hbody hrest =>
    simp only [Directives.phrase, Directives.clauses, List.mem_append]
    rcases Plan.failure_andThen_eq_some hfailure with hclause | hlater
    · obtain ⟨use, hmem, hparse⟩ :=
        hbody ((Plan.failure_andThen_eq_some hclause).resolve_left nofun) true
      exact ⟨use, .inl hmem, hparse⟩
    · obtain ⟨use, hmem, hparse⟩ := hrest hlater conditional
      exact ⟨use, .inr hmem, hparse⟩

theorem Plan.exists_rejected_nodes {kinds : Kinds} {started : List String} {order : List Node}
    (h : (nodes policy kinds started order).failure = some error) :
    ∃ source ∈ order, ∃ use ∈ Directives.node source, Directive.parse use.raw = .error error := by
  induction order generalizing kinds started with
  | nil => simp [nodes] at h
  | cons source rest ih =>
    simp only [nodes] at h
    rcases failure_andThen_eq_some h with hnode | hrest
    · unfold node at hnode
      split at hnode
      · simp at hnode
      · rcases failure_andThen_eq_some hnode with hstart | hbody
        · simp at hstart
        · exact ⟨source, List.mem_cons_self, (planned_statements source.statements).exists_rejected
            hbody (isFatal_of_statements hbody) false⟩
    · obtain ⟨found, hmem, huse⟩ := ih hrest
      exact ⟨found, List.mem_cons_of_mem _ hmem, huse⟩

-- ---------------------------------------------------------------------------
-- A plan that succeeds has met no malformed directive
-- ---------------------------------------------------------------------------

def Action.Skips (actions : List Action) : Prop := ∃ error, .skip error ∈ actions

theorem Action.Skips.of_subset {actions others : List Action} (h : Skips actions)
    (hsubset : actions ⊆ others) : Skips others := by
  obtain ⟨error, hmem⟩ := h
  exact ⟨error, hsubset hmem⟩

open Dialogue.Action (Skips)

/-- Of the statements that are given up, only a branch holds directives. -/
theorem Statement.Rejected.conditional {source : Statement} {policy : MismatchPolicy}
    {kinds : Kinds} (h : source.Rejected policy kinds error) {conditional : Bool} :
    ∀ use ∈ Directives.statement conditional source, use.conditional = true := by
  cases h with
  | branch _ =>
    simp only [Directives.statement]
    exact Directives.conditional_of_clauses _
  | assign _ => simp [Directives.statement]

theorem Lowered.skips_of_malformed (h : Lowered policy target kinds phrase actions)
    (conditional : Bool) (hmem : use ∈ Directives.phrase conditional phrase)
    (hparse : Directive.parse use.raw = .error error) :
    use.conditional = true ∧ Skips actions := by
  induction h generalizing conditional with
  | emit hemits =>
    cases hemits with
    | wait hwait =>
      simp only [Directives.phrase, Directives.statement, List.mem_singleton] at hmem
      subst hmem
      cases hwait.symm.trans hparse
    | _ => simp [Directives.phrase, Directives.statement] at hmem
  | ignore hignore =>
    simp only [Directives.phrase, Directives.statement, List.mem_singleton] at hmem
    subst hmem
    cases hignore.symm.trans hparse
  | unsupported => simp [Directives.phrase, Directives.statement] at hmem
  | menu _ ih =>
    simp only [Directives.phrase, Directives.statement] at hmem
    exact ih conditional hmem
  | branch _ _ ih =>
    simp only [Directives.phrase, Directives.statement] at hmem
    obtain ⟨hconditional, hskips⟩ := ih conditional hmem
    exact ⟨hconditional, hskips.of_subset (List.subset_append_left _ _)⟩
  | nil => simp [Directives.phrase, Directives.statements] at hmem
  | cons _ _ hfirst hrest =>
    simp only [Directives.phrase, Directives.statements, List.mem_append] at hmem
    rcases hmem with hmem | hmem
    · obtain ⟨hconditional, hskips⟩ := hfirst conditional hmem
      exact ⟨hconditional, hskips.of_subset (List.subset_append_left _ _)⟩
    · obtain ⟨hconditional, hskips⟩ := hrest conditional hmem
      exact ⟨hconditional, hskips.of_subset (List.subset_append_right _ _)⟩
  | skip hrejected _ ih =>
    simp only [Directives.phrase, Directives.statements, List.mem_append] at hmem
    refine ⟨?_, _, List.mem_cons_self⟩
    rcases hmem with hmem | hmem
    · exact hrejected.conditional use hmem
    · exact (ih conditional hmem).1
  | noChoice => simp [Directives.phrase, Directives.choices] at hmem
  | choice _ _ hbody hrest =>
    simp only [Directives.phrase, Directives.choices, List.mem_append] at hmem
    rcases hmem with hmem | hmem
    · obtain ⟨hconditional, skipped, hskip⟩ := hbody conditional hmem
      exact ⟨hconditional, skipped, List.mem_append_left _ (List.mem_cons_of_mem _ hskip)⟩
    · obtain ⟨hconditional, hskips⟩ := hrest conditional hmem
      exact ⟨hconditional, hskips.of_subset (List.subset_append_right _ _)⟩
  | noClause => simp [Directives.phrase, Directives.clauses] at hmem
  | clause _ _ _ _ hbody hrest =>
    simp only [Directives.phrase, Directives.clauses, List.mem_append] at hmem
    rcases hmem with hmem | hmem
    · obtain ⟨hconditional, skipped, hskip⟩ := hbody true hmem
      exact ⟨hconditional, skipped, List.mem_append_left _ (List.mem_cons_of_mem _ hskip)⟩
    · obtain ⟨hconditional, hskips⟩ := hrest conditional hmem
      exact ⟨hconditional, hskips.of_subset (List.subset_append_right _ _)⟩

theorem Plan.skips_of_nodes {kinds : Kinds} {started : List String} {order : List Node}
    (hnodup : (order.map (·.name)).Nodup) (hnew : ∀ node ∈ order, node.name ∉ started)
    (h : (nodes policy kinds started order).failure = none) (hsource : source ∈ order)
    (hmem : use ∈ Directives.node source) (hparse : Directive.parse use.raw = .error error) :
    use.conditional = true ∧ Skips (nodes policy kinds started order).actions := by
  induction order generalizing kinds started with
  | nil => cases hsource
  | cons first rest ih =>
    have hnewRest := notMem_started hnodup hnew
    rw [List.map_cons, List.nodup_cons] at hnodup
    rcases nodes_cons_cases h with ⟨hstarted, _, _⟩ | ⟨_, body, hbody, hrest, hactions⟩
    · exact absurd hstarted (hnew first List.mem_cons_self)
    · rw [hactions]
      rcases List.mem_cons.mp hsource with rfl | hsource
      · obtain ⟨hconditional, skipped, hskip⟩ := hbody.skips_of_malformed false hmem hparse
        refine ⟨hconditional, skipped, List.mem_append_left _ ?_⟩
        exact List.mem_cons_of_mem _ (List.mem_cons_of_mem _ hskip)
      · obtain ⟨hconditional, hskips⟩ := ih hnodup.2 hnewRest hrest hsource
        exact ⟨hconditional, hskips.of_subset (List.subset_append_right _ _)⟩

-- ---------------------------------------------------------------------------
-- Outcomes
-- ---------------------------------------------------------------------------

namespace Script

variable {σ : Type} [Host σ] {script : Script} {options : Options}

theorem mem_directives {use : DirectiveUse} :
    use ∈ script.directives ↔
      ∃ pair ∈ script.nodes.entries, use ∈ Directives.node pair.2 := by
  rw [directives, Table.values, List.flatMap_map, List.mem_flatMap]

theorem run_fresh (host : σ) (hfirst : script.nodes.find? options.entry = some first) :
    Lowering.script script (.fresh host options) =
      match (script.plan options).failure with
      | none => .ok ((Session.fresh host options).blockOf first.name)
          ((Session.fresh host options).perform (script.plan options).actions)
      | some error => .error error
          ((Session.fresh host options).perform (script.plan options).actions) :=
  Lowering.script_eq_outcome (.fresh host options) script hfirst

theorem exists_rejected (h : (script.plan options).failure = some error)
    (hfirst : script.nodes.find? options.entry = some first) :
    ∃ use ∈ script.directives, Directive.parse use.raw = .error error := by
  rw [plan_eq hfirst] at h
  have hnodes := (Plan.failure_andThen_eq_some h).resolve_right (by simp)
  obtain ⟨source, hsource, use, huse, hparse⟩ := Plan.exists_rejected_nodes hnodes
  obtain ⟨key, hentry⟩ := mem_entries_of_mem_order hfirst hsource
  exact ⟨use, mem_directives.mpr ⟨_, hentry, huse⟩, hparse⟩

theorem skips_of_rejected (hkeyed : script.Keyed) (h : (script.plan options).failure = none)
    (huse : use ∈ script.directives) (hparse : Directive.parse use.raw = .error error) :
    use.conditional = true ∧ Action.Skips (script.plan options).actions := by
  obtain ⟨first, hfirst⟩ := find?_of_failure_eq_none h
  obtain ⟨⟨key, source⟩, hentry, hmem⟩ := mem_directives.mp huse
  rw [plan_eq hfirst] at h ⊢
  have hnodes := (Plan.failure_andThen_eq_none.mp h).1
  rw [Plan.actions_andThen hnodes]
  obtain ⟨hconditional, hskip⟩ := Plan.skips_of_nodes (hkeyed.nodup_order hfirst) (by simp)
    hnodes (hkeyed.mem_order hfirst hentry) hmem hparse
  exact ⟨hconditional, hskip.of_subset (List.subset_append_left _ _)⟩

/-- A compilation into any host fails for a missing entry node exactly if there is
none, and then it has done nothing. Any other failure is that of a directive of the
script. If it succeeds, the malformed directives stand inside branches, and if it
reports nothing there are none. -/
theorem outcome_of_directives {script : Script} (hkeyed : script.Keyed) (host : σ)
    (options : Options) :
    ((∃ session, Lowering.script script (.fresh host options) =
        .error (.missingEntry options.entry) session) ↔ options.entry ∉ script.nodes.keys) ∧
    (∀ session, Lowering.script script (.fresh host options) =
      .error (.missingEntry options.entry) session → session = .fresh host options) ∧
    (∀ error session, options.entry ∈ script.nodes.keys →
      Lowering.script script (.fresh host options) = .error error session →
      ∃ use ∈ script.directives, Directive.parse use.raw = .error error) ∧
    ∀ entry session, Lowering.script script (.fresh host options) = .ok entry session →
      (∀ use ∈ script.directives, ∀ error, Directive.parse use.raw = .error error →
        use.conditional = true) ∧
      (session.diagnostics.toList = [] → ∀ use ∈ script.directives,
        ∃ found, Directive.parse use.raw = .ok found) := by
  rw [← Table.find?_eq_none_iff]
  cases hfirst : script.nodes.find? options.entry with
  | none =>
    have hmissing := (Table.find?_eq_none_iff _ _).mp hfirst
    have hrun : Lowering.script script (.fresh host options) =
        .error (.missingEntry options.entry) (.fresh host options) :=
      Lowering.script_eq_error _ script hfirst
    rw [hrun]
    refine ⟨⟨fun _ => rfl, fun _ => ⟨_, rfl⟩⟩, ?_, ?_, ?_⟩
    · rintro _ ⟨⟩
      rfl
    · intro error session hpresent
      exact absurd hpresent hmissing
    · rintro entry session ⟨⟩
  | some first =>
    rw [run_fresh host hfirst]
    cases hfailure : (script.plan options).failure with
    | some error =>
      obtain ⟨use, huse, hparse⟩ := exists_rejected hfailure hfirst
      -- The error is that of a directive, so it is not that of a missing entry.
      obtain ⟨fault, rfl⟩ := Directive.parse_eq_error hparse
      refine ⟨⟨?_, nofun⟩, nofun, ?_, nofun⟩
      · rintro ⟨session, ⟨⟩⟩
      · rintro _ _ _ ⟨⟩
        exact ⟨use, huse, hparse⟩
    | none =>
      refine ⟨⟨?_, nofun⟩, nofun, nofun, ?_⟩
      · rintro ⟨session, ⟨⟩⟩
      · rintro _ _ ⟨⟩
        refine ⟨fun use huse error hparse => (skips_of_rejected hkeyed hfailure huse hparse).1, ?_⟩
        intro hnone use huse
        cases hparse : Directive.parse use.raw with
        | ok found => exact ⟨found, rfl⟩
        | error error =>
          obtain ⟨_, skipped, hskip⟩ := skips_of_rejected hkeyed hfailure huse hparse
          rw [Session.diagnostics_perform] at hnone
          exact absurd hskip (Action.clean_of_diagnostics hnone skipped)

/-- The directive that is not understood comes to nothing, and the malformed one goes
with the branch around it. -/
def hasty : Script := .ofNodes "" [
  ⟨"Start", [
    .choices [.mk "Inn" [
      .directive "fade out",
      .branch [.mk (some ⟨"Resembles", "guest", .bool true⟩) [.directive "wait for it"]]]],
    .directive "wait 3s"]⟩]

theorem outcome_of_directives_hasty :
    hasty.directives = [⟨"fade out", false⟩, ⟨"wait for it", true⟩, ⟨"wait 3s", false⟩] ∧
      Directive.parse "wait for it" =
        .error (.malformedDirective "wait for it" (.badDuration "for")) ∧
      ∃ session, Lowering.script hasty (.fresh ({} : Flowchart) {}) = .ok ⟨0⟩ session ∧
        ∀ use ∈ hasty.directives, ∀ error, Directive.parse use.raw = .error error →
          use.conditional = true := by
  refine ⟨by decide +kernel, by decide +kernel, ?_⟩
  have hkeyed : hasty.Keyed := keyed_ofNodes "" _
  have hplan : (hasty.plan {}).failure = none := by decide +kernel
  obtain ⟨first, hfirst⟩ := find?_of_failure_eq_none hplan
  have hrun := run_fresh ({} : Flowchart) hfirst
  rw [hplan] at hrun
  obtain ⟨_, _, _, hok⟩ := outcome_of_directives hkeyed ({} : Flowchart) {}
  exact ⟨_, hrun, (hok _ _ hrun).1⟩

end Script

end Dialogue
