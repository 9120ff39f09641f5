import Dialogue.Proofs.Keyed
import Dialogue.Proofs.Outcome
import Dialogue.Proofs.Success

/-!
# Skipped statements leave no trace

A compilation that succeeds with diagnostics has skipped statements. Deleting
exactly these from the script, one for each diagnostic and in the node that the
diagnostic names, gives a script that compiles to the same flowchart and reports
nothing (`Script.compile_pruned`).
-/

namespace Dialogue

-- ---------------------------------------------------------------------------
-- Deleting statements
-- ---------------------------------------------------------------------------

mutual

/-- `Pruned source kept removed`: without the statements `removed`, which stand in
this order in `source` at any depth, `source` is `kept`. -/
inductive Pruned : List Statement → List Statement → List Statement → Prop
  | nil : Pruned [] [] []
  | drop : Pruned rest kept removed → Pruned (first :: rest) kept (first :: removed)
  | keep : PrunedInside first first' nested → Pruned rest kept removed →
      Pruned (first :: rest) (first' :: kept) (nested ++ removed)

inductive PrunedInside : Statement → Statement → List Statement → Prop
  | same : PrunedInside source source []
  | choices : PrunedChoices source kept removed →
      PrunedInside (.choices source) (.choices kept) removed
  | branch : PrunedClauses source kept removed →
      PrunedInside (.branch source) (.branch kept) removed

inductive PrunedChoices : List Choice → List Choice → List Statement → Prop
  | nil : PrunedChoices [] [] []
  | cons : Pruned body body' nested → PrunedChoices rest kept removed →
      PrunedChoices (.mk label body :: rest) (.mk label body' :: kept) (nested ++ removed)

inductive PrunedClauses : List Clause → List Clause → List Statement → Prop
  | nil : PrunedClauses [] [] []
  | cons : Pruned body body' nested → PrunedClauses rest kept removed →
      PrunedClauses (.mk condition body :: rest) (.mk condition body' :: kept) (nested ++ removed)

end

inductive PrunedPhrase : Phrase → Phrase → List Statement → Prop
  | statement : PrunedInside source kept removed →
      PrunedPhrase (.statement source) (.statement kept) removed
  | statements : Pruned source kept removed →
      PrunedPhrase (.statements source) (.statements kept) removed
  | choices : PrunedChoices source kept removed →
      PrunedPhrase (.choices source) (.choices kept) removed
  | clauses : PrunedClauses source kept removed →
      PrunedPhrase (.clauses first source found) (.clauses first kept found) removed

theorem PrunedClauses.conditions_eq :
    PrunedClauses source kept removed → kept.map Clause.condition = source.map Clause.condition
  | .nil => rfl
  | .cons _ hrest => by rw [List.map_cons, List.map_cons, hrest.conditions_eq]; rfl

def Script.edited (script : Script) (statements : String → List Statement) : Script where
  name := script.name
  nodes := ⟨script.nodes.entries.map fun (key, node) =>
    (key, { node with statements := statements key })⟩

def Script.order (script : Script) (entry : String) : List Node :=
  (script.nodes.find? entry).toList ++ script.others entry

theorem Script.order_eq {script : Script} (h : script.nodes.find? entry = some first) :
    script.order entry = first :: script.others entry := by
  simp [order, h]

-- ---------------------------------------------------------------------------
-- Actions without their skips
-- ---------------------------------------------------------------------------

namespace Action

def isSkip : Action → Bool
  | .skip _ => true
  | _ => false

def withoutSkips (actions : List Action) : List Action := actions.filter (!·.isSkip)

theorem withoutSkips_append (first rest : List Action) :
    withoutSkips (first ++ rest) = withoutSkips first ++ withoutSkips rest :=
  List.filter_append first rest

theorem withoutSkips_emit_append (target : String) (command : NamedCommand)
    (body rest : List Action) :
    withoutSkips (.emit target command :: body ++ rest) =
      .emit target command :: withoutSkips body ++ withoutSkips rest := by
  rw [withoutSkips_append]
  rfl

theorem after_withoutSkips (kinds : Kinds) (actions : List Action) :
    kinds.after (withoutSkips actions) = kinds.after actions := by
  induction actions generalizing kinds with
  | nil => rfl
  | cons action rest ih =>
    cases action with
    | skip error => exact ih kinds
    | _ => exact ih _

end Action

-- ---------------------------------------------------------------------------
-- Lowering pruned phrases
-- ---------------------------------------------------------------------------

/-- Without the statements that it gives up, of which there are as many as skips, a
phrase does what it did but for the skips. -/
theorem Lowered.exists_pruned (h : Lowered policy target kinds phrase actions) :
    ∃ kept removed, PrunedPhrase phrase kept removed ∧
      removed.length = actions.countP Action.isSkip ∧
      Lowered policy target kinds kept (Action.withoutSkips actions) := by
  induction h with
  | emit hemits => exact ⟨_, [], .statement .same, rfl, .emit hemits⟩
  | ignore hparse => exact ⟨_, [], .statement .same, rfl, .ignore hparse⟩
  | unsupported => exact ⟨_, [], .statement .same, rfl, .unsupported⟩
  | menu _ ih =>
    obtain ⟨_, removed, (_ | _ | hpruned), hcount, hkept⟩ := ih
    exact ⟨_, removed, .statement (.choices hpruned), hcount, .menu hkept⟩
  | branch hfound _ ih =>
    obtain ⟨_, removed, (_ | _ | _ | hpruned), hcount, hkept⟩ := ih
    refine ⟨_, removed, .statement (.branch hpruned), ?_, ?_⟩
    · rw [List.countP_append, ← hcount]
      rfl
    · rw [Action.withoutSkips_append]
      exact .branch ((Kinds.checks_congr hpruned.conditions_eq _).trans hfound) hkept
  | nil => exact ⟨_, [], .statements .nil, rfl, .nil⟩
  | cons _ _ hfirst hrest =>
    obtain ⟨_, nested, ⟨hinside⟩, hcount, hkept⟩ := hfirst
    obtain ⟨_, removed, (_ | hpruned), hmore, hlater⟩ := hrest
    refine ⟨_, nested ++ removed, .statements (.keep hinside hpruned), ?_, ?_⟩
    · rw [List.length_append, List.countP_append, hcount, hmore]
    · rw [Action.withoutSkips_append]
      rw [← Action.after_withoutSkips] at hlater
      exact .cons hkept hlater
  | @skip _ _ _ _ first _ _ _ ih =>
    obtain ⟨_, removed, (_ | hpruned), hcount, hkept⟩ := ih
    refine ⟨_, first :: removed, .statements (.drop hpruned), ?_, hkept⟩
    rw [List.length_cons, hcount, List.countP_cons_of_pos rfl]
  | noChoice => exact ⟨_, [], .choices .nil, rfl, .noChoice⟩
  | choice _ _ hbody hrest =>
    obtain ⟨_, nested, (_ | hnested), hcount, hkept⟩ := hbody
    obtain ⟨_, removed, (_ | _ | hpruned), hmore, hlater⟩ := hrest
    refine ⟨_, nested ++ removed, .choices (.cons hnested hpruned), ?_, ?_⟩
    · rw [List.length_append, List.countP_append, hcount, hmore]
      rfl
    · rw [Action.withoutSkips_emit_append]
      rw [← Action.after_withoutSkips] at hlater
      exact .choice hkept hlater
  | noClause => exact ⟨_, [], .clauses .nil, rfl, .noClause⟩
  | clause hpasses hcovers _ _ hbody hrest =>
    obtain ⟨_, nested, (_ | hnested), hcount, hkept⟩ := hbody
    obtain ⟨_, removed, (_ | _ | _ | hpruned), hmore, hlater⟩ := hrest
    refine ⟨_, nested ++ removed, .clauses (.cons hnested hpruned), ?_, ?_⟩
    · rw [List.length_append, List.countP_append, hcount, hmore]
      exact congrArg (· + _) (List.countP_cons_of_neg (by simp [Action.isSkip])).symm
    · rw [Action.withoutSkips_emit_append]
      rw [← Action.after_withoutSkips] at hlater
      exact .clause hpasses hcovers hkept hlater

theorem Lowered.exists_pruned_statements
    (h : Lowered policy target kinds (.statements source) actions) :
    ∃ kept removed, Pruned source kept removed ∧
      removed.length = actions.countP Action.isSkip ∧
      Lowered policy target kinds (.statements kept) (Action.withoutSkips actions) := by
  obtain ⟨_, removed, (_ | hpruned), hcount, hkept⟩ := h.exists_pruned
  exact ⟨_, removed, hpruned, hcount, hkept⟩

-- ---------------------------------------------------------------------------
-- Diagnostics of a node
-- ---------------------------------------------------------------------------

namespace Action

variable {actions : List Action} (hinner : ∀ action ∈ actions, action.Inner)
include hinner

theorem diagnostics_append (current : String) (rest : List Action) :
    diagnostics current (actions ++ rest) =
      diagnostics current actions ++ diagnostics current rest := by
  induction actions with
  | nil => rfl
  | cons action more ih =>
    have hmore := ih fun other hother => hinner other (List.mem_cons_of_mem _ hother)
    have hfirst := hinner action List.mem_cons_self
    cases action with
    | skip error => exact congrArg (_ :: ·) hmore
    | emit target command => exact hmore
    | ignore raw => exact hmore
    | _ => exact hfirst.elim

theorem node_diagnostics (current : String) :
    (diagnostics current actions).map (·.node) =
      List.replicate (actions.countP isSkip) current := by
  induction actions with
  | nil => rfl
  | cons action more ih =>
    have hmore := ih fun other hother => hinner other (List.mem_cons_of_mem _ hother)
    have hfirst := hinner action List.mem_cons_self
    cases action with
    | skip error =>
      rw [List.countP_cons_of_pos rfl, List.replicate_succ, ← hmore]
      rfl
    | emit target command =>
      rw [List.countP_cons_of_neg (by simp [isSkip]), ← hmore]
      rfl
    | ignore raw =>
      rw [List.countP_cons_of_neg (by simp [isSkip]), ← hmore]
      rfl
    | _ => exact hfirst.elim

end Action

-- ---------------------------------------------------------------------------
-- What matters to the host
-- ---------------------------------------------------------------------------

def Action.effects (actions : List Action) : List Action :=
  actions.filter fun
    | .mention _ | .emit _ _ => true
    | _ => false

section

variable {σ : Type} [Host σ]

namespace Session

/-- Sessions with the same registries whose hosts are in the same state. -/
structure Alike (first second : Session σ) : Prop where
  blocks : first.blocks = second.blocks
  vars : first.vars = second.vars
  host : first.ledger.host = second.ledger.host

namespace Alike

variable {first second : Session σ}

theorem blockOf (h : first.Alike second) (name : String) :
    first.blockOf name = second.blockOf name := by
  unfold Session.blockOf BlockRegistry.resolve
  rw [h.blocks]
  cases second.blocks.find? name with
  | none => simp [Ledger.createBlock, h.host]
  | some block => rfl

theorem withBlock (h : first.Alike second) (name : String) :
    (first.withBlock name).Alike (second.withBlock name) := by
  unfold Session.withBlock BlockRegistry.resolve
  rw [h.blocks]
  cases second.blocks.find? name with
  | none => constructor <;> simp [Ledger.createBlock, Ledger.note, h.host, h.vars]
  | some block => exact ⟨rfl, h.vars, h.host⟩

theorem variableOf (h : first.Alike second) (name : String) (kind : Kind) :
    first.variableOf name kind = second.variableOf name kind := by
  unfold Session.variableOf VariableRegistry.resolve
  rw [h.vars]
  cases second.vars.find? name with
  | none => simp [Ledger.createVariable, h.host]
  | some found => rfl

theorem withVariable (h : first.Alike second) (name : String) (kind : Kind) :
    (first.withVariable name kind).Alike (second.withVariable name kind) := by
  unfold Session.withVariable VariableRegistry.resolve
  rw [h.vars]
  cases second.vars.find? name with
  | none =>
    constructor <;> simp [Ledger.createVariable, Ledger.setValue, Ledger.note, h.host, h.blocks]
  | some found => exact ⟨h.blocks, rfl, h.host⟩

theorem resolve (h : first.Alike second) (command : NamedCommand) :
    command.resolve first = command.resolve second := by
  cases command <;> simp [NamedCommand.resolve, h.blockOf, h.variableOf]

theorem declare (h : first.Alike second) (command : NamedCommand) :
    (command.declare first).Alike (command.declare second) := by
  cases command with
  | menu text target => exact h.withBlock target
  | call target => exact h.withBlock target
  | set operator name value => exact h.withVariable name value.kind
  | ifThen check => exact h.withVariable check.name check.value.kind
  | elseIf check => exact h.withVariable check.name check.value.kind
  | _ => exact h

theorem emit (h : first.Alike second) (target : String) (command : NamedCommand) :
    (Action.perform first (.emit target command)).Alike
      (Action.perform second (.emit target command)) := by
  have hopen := h.withBlock target
  have hknown := hopen.declare command
  refine ⟨hknown.blocks, hknown.vars, ?_⟩
  simp only [Action.perform, Session.withCommand, Ledger.emit, Ledger.createCommand,
    Ledger.appendCommand, h.blockOf target, hopen.resolve command, hknown.host]

theorem perform_effects (h : first.Alike second) (actions : List Action) :
    (first.perform actions).Alike (second.perform (Action.effects actions)) := by
  induction actions generalizing first second with
  | nil => exact h
  | cons action rest ih =>
    rw [perform_cons]
    cases action with
    | mention name => exact ih (h.withBlock name)
    | emit target command => exact ih (h.emit target command)
    | _ => exact ih ⟨h.blocks, h.vars, h.host⟩

end Alike

theorem host_perform_congr {actions others : List Action}
    (h : Action.effects actions = Action.effects others) (session : Session σ) :
    (session.perform actions).ledger.host = (session.perform others).ledger.host := by
  have hsame : session.Alike session := ⟨rfl, rfl, rfl⟩
  rw [(hsame.perform_effects actions).host, h, (hsame.perform_effects others).host]

end Session

end

-- ---------------------------------------------------------------------------
-- Pruned scripts
-- ---------------------------------------------------------------------------

namespace Action

theorem effects_append (first rest : List Action) :
    effects (first ++ rest) = effects first ++ effects rest :=
  List.filter_append first rest

theorem effects_withoutSkips (actions : List Action) :
    effects (withoutSkips actions) = effects actions := by
  induction actions with
  | nil => rfl
  | cons action rest ih =>
    cases action with
    | mention name => exact congrArg (_ :: ·) ih
    | emit target command => exact congrArg (_ :: ·) ih
    | _ => exact ih

theorem diagnostics_withoutSkips {actions : List Action} (h : ∀ action ∈ actions, action.Inner)
    (current : String) (rest : List Action) :
    diagnostics current (withoutSkips actions ++ rest) = diagnostics current rest := by
  induction actions with
  | nil => rfl
  | cons action more ih =>
    have hmore := ih fun other hother => h other (List.mem_cons_of_mem _ hother)
    have hfirst := h action List.mem_cons_self
    cases action with
    | emit target command => exact hmore
    | ignore raw => exact hmore
    | skip error => exact hmore
    | _ => exact hfirst.elim

theorem diagnostics_finish (current name : String) (actions : List Action) :
    diagnostics current (actions ++ [.finish name]) = diagnostics current actions := by
  induction actions generalizing current with
  | nil => rfl
  | cons action rest ih =>
    cases action with
    | start name statements => exact ih name
    | skip error => exact congrArg (_ :: ·) (ih current)
    | _ => exact ih current

end Action

def Node.edited (node : Node) (statements : String → List Statement) : Node :=
  { node with statements := statements node.name }

theorem Node.map_edited_update {rest : List Node} (h : ∀ node ∈ rest, node.name ≠ key)
    (kept : String → List Statement) (body : List Statement) :
    rest.map (·.edited (Function.update kept key body)) = rest.map (·.edited kept) := by
  apply List.map_congr_left
  intro node hnode
  simp [edited, Function.update_of_ne (h node hnode)]

namespace Plan

variable {policy : MismatchPolicy}

theorem exists_pruned_nodes {kinds : Kinds} {started : List String} {order : List Node}
    (hnodup : (order.map (·.name)).Nodup) (hnew : ∀ node ∈ order, node.name ∉ started)
    (h : (nodes policy kinds started order).failure = none) (current : String) :
    ∃ kept removed : String → List Statement,
      (∀ node ∈ order, Pruned node.statements (kept node.name) (removed node.name)) ∧
      (Action.diagnostics current (nodes policy kinds started order).actions).map (·.node) =
        order.flatMap (fun node => List.replicate (removed node.name).length node.name) ∧
      (nodes policy kinds started (order.map (·.edited kept))).failure = none ∧
      Action.diagnostics current (nodes policy kinds started (order.map (·.edited kept))).actions =
        [] ∧
      Action.effects (nodes policy kinds started (order.map (·.edited kept))).actions =
        Action.effects (nodes policy kinds started order).actions := by
  induction order generalizing kinds started current with
  | nil => exact ⟨fun _ => [], fun _ => [], by simp, rfl, rfl, rfl, rfl⟩
  | cons source rest ih =>
    have hnewRest := notMem_started hnodup hnew
    rw [List.map_cons, List.nodup_cons] at hnodup
    rcases nodes_cons_cases h with ⟨hstarted, _, _⟩ | ⟨hfresh, actions, hbody, hrest, hactions⟩
    · exact absurd hstarted (hnew source List.mem_cons_self)
    · have hne : ∀ node ∈ rest, node.name ≠ source.name := fun node hnode heq =>
        hnewRest node hnode (List.mem_cons.mpr (.inl heq))
      have hinner := hbody.planned.inner
      obtain ⟨body, nested, hnested, hcount, hkept⟩ := hbody.exists_pruned_statements
      obtain ⟨kept, removed, hpruned, hdiagnostics, hsuccess, hclean, heffects⟩ :=
        ih hnodup.2 hnewRest hrest source.name
      -- Names are distinct, so the other nodes keep what they keep without this one.
      have hedited : (source :: rest).map (·.edited (Function.update kept source.name body)) =
          { source with statements := body } :: rest.map (·.edited kept) := by
        rw [List.map_cons, Node.map_edited_update hne]
        simp [Node.edited]
      have hfirst : ({ source with statements := body } : Node).name ∉ started := hfresh
      have hnodes := nodes_cons_of_notMem hfirst hkept (rest.map (·.edited kept))
      rw [Action.after_withoutSkips] at hnodes
      refine ⟨Function.update kept source.name body, Function.update removed source.name nested,
        ?_, ?_, ?_, ?_, ?_⟩
      · intro node hnode
        rcases List.mem_cons.mp hnode with rfl | hmem
        · simpa using hnested
        · simpa [Function.update_of_ne (hne node hmem)] using hpruned node hmem
      · have hothers : rest.flatMap (fun node => List.replicate
            (Function.update removed source.name nested node.name).length node.name) =
              rest.flatMap fun node => List.replicate (removed node.name).length node.name := by
          apply List.flatMap_congr
          intro node hnode
          rw [Function.update_of_ne (hne node hnode)]
        rw [hactions, List.flatMap_cons, hothers, Function.update_self, hcount,
          ← Action.node_diagnostics hinner, ← hdiagnostics, ← List.map_append,
          ← Action.diagnostics_append hinner]
        rfl
      · rw [hedited, hnodes]
        exact hsuccess
      · rw [hedited, hnodes]
        exact (Action.diagnostics_withoutSkips hinner source.name _).trans hclean
      · rw [hedited, hnodes, hactions]
        simp only [actions_andThen, Action.effects_append, heffects]
        exact congrArg (Action.mention source.name :: · ++ _) (Action.effects_withoutSkips _)

end Plan

namespace Script

variable {script : Script} {options : Options}

theorem find?_edited (kept : String → List Statement) (hkeyed : script.Keyed)
    (h : script.nodes.find? entry = some first) :
    (script.edited kept).nodes.find? entry = some (first.edited kept) := by
  have hmem : (entry, first.edited kept) ∈ (script.edited kept).nodes.entries := by
    refine List.mem_map.mpr ⟨(entry, first), Table.mem_of_find? h, ?_⟩
    simp [Node.edited, hkeyed.name_first h]
  refine Table.find?_of_mem ?_ hmem
  have hkeys : (script.edited kept).nodes.keys = script.nodes.keys := by
    simp [edited, Table.keys, Function.comp_def]
  rw [hkeys]
  exact hkeyed.keys

theorem others_edited (kept : String → List Statement) (hkeyed : script.Keyed) (entry : String) :
    (script.edited kept).others entry = (script.others entry).map (·.edited kept) := by
  unfold others edited
  rw [List.filter_map, List.map_map, List.map_map]
  apply List.map_congr_left
  intro pair hpair
  simp [Node.edited, hkeyed.names pair (List.mem_filter.mp hpair).1]

theorem plan_edited (kept : String → List Statement) (hkeyed : script.Keyed)
    (hfirst : script.nodes.find? options.entry = some first) :
    (script.edited kept).plan options =
      (Plan.nodes options.mismatch .none []
        ((first :: script.others options.entry).map (·.edited kept))).andThen
          { actions := [.finish script.name] } := by
  rw [plan_eq (find?_edited kept hkeyed hfirst), others_edited kept hkeyed]
  rfl

/-- For every script that compiles, with diagnostics or without, there is one that
differs from it by one deleted statement for each diagnostic, which stands in the
node that the diagnostic names, and that compiles to the same and reports nothing. -/
theorem compile_pruned {script : Script} {options : Options} {compiled : Compiled}
    (hkeyed : script.Keyed) (hcompile : script.compile options = .ok compiled) :
    ∃ kept removed : String → List Statement,
      (∀ key node, (key, node) ∈ script.nodes.entries →
        Pruned node.statements (kept key) (removed key)) ∧
      compiled.diagnostics.map (·.node) = (script.order options.entry).flatMap (fun node =>
        List.replicate (removed node.name).length node.name) ∧
      (script.edited kept).compile options = .ok { compiled with diagnostics := [] } := by
  obtain ⟨hplan, rfl⟩ := compile_eq_ok_iff.mp hcompile
  obtain ⟨first, hfirst⟩ := find?_of_failure_eq_none hplan
  rw [plan_eq hfirst] at hplan
  have hnodes := (Plan.failure_andThen_eq_none.mp hplan).1
  obtain ⟨kept, removed, hpruned, hdiagnostics, hsuccess, hclean, heffects⟩ :=
    Plan.exists_pruned_nodes (hkeyed.nodup_order hfirst) (by simp) hnodes ""
  refine ⟨kept, removed, ?_, ?_, ?_⟩
  · intro key node hmem
    have hnode := hpruned node (hkeyed.mem_order hfirst hmem)
    rwa [hkeyed.names _ hmem] at hnode
  · have horder : script.order options.entry = first :: script.others options.entry := by
      simp [order, hfirst]
    rw [horder, ← hdiagnostics, diagnostics_compilation, plan_eq hfirst,
      Plan.actions_andThen hnodes, Action.diagnostics_finish]
  · have hkept := plan_edited kept hkeyed hfirst
    have heffects' : Action.effects (script.plan options).actions =
        Action.effects ((script.edited kept).plan options).actions := by
      rw [plan_eq hfirst, hkept, Plan.actions_andThen hnodes, Plan.actions_andThen hsuccess,
        Action.effects_append, Action.effects_append, heffects]
    have hhost := Session.host_perform_congr heffects'
      (.fresh ({ name := script.name } : Flowchart) options)
    have hnone : ((script.edited kept).compilation options).diagnostics.toList = [] := by
      rw [diagnostics_compilation, hkept, Plan.actions_andThen hsuccess,
        Action.diagnostics_finish, hclean]
    rw [compile_eq_ok_iff, hnone]
    refine ⟨?_, ?_⟩
    · rw [hkept]
      exact Plan.failure_andThen_eq_none.mpr ⟨hsuccess, rfl⟩
    · exact congrArg (fun host : Flowchart => (⟨⟨0⟩, host.listing, []⟩ : Compiled)) hhost

/-- One blunder inside a menu, one in the second clause of a branch, and one in a
node that the menu has begun to fill. -/
def blunders : Script := .ofNodes "" [
  ⟨"Inn", [.assign "Power" "gold" (.bool true), .line "Good evening."]⟩,
  ⟨"Start", [
    .choices [.mk "Inn" [.assign "EqualToOrAssign" "gold" (.reference "purse"), .jump "Road"]],
    .branch [
      .mk (some ⟨"EqualTo", "gold", .bool true⟩) [.line "Rich."],
      .mk (some ⟨"Resembles", "gold", .bool false⟩) []]]⟩]

def blundersCompiled : Compiled where
  entry := ⟨0⟩
  flowchart := {
    name := ""
    blocks := [
      ⟨"Start", [.menu "Inn" ⟨1⟩]⟩,
      ⟨"Inn", [.call ⟨2⟩, .say "Good evening."]⟩,
      ⟨"Road", []⟩]
    vars := [] }
  diagnostics := [
    ⟨"Start", "unknown value kind: variable"⟩,
    ⟨"Start", "unknown comparison function: Resembles"⟩,
    ⟨"Inn", "unknown operator: Power"⟩]

theorem compile_pruned_blunders :
    blunders.compile {} = .ok blundersCompiled ∧
      ∃ kept removed : String → List Statement,
        (∀ key node, (key, node) ∈ blunders.nodes.entries →
          Pruned node.statements (kept key) (removed key)) ∧
        ["Start", "Start", "Inn"] = (blunders.order "Start").flatMap (fun node =>
          List.replicate (removed node.name).length node.name) ∧
        (blunders.edited kept).compile {} = .ok { blundersCompiled with diagnostics := [] } := by
  have hkeyed : blunders.Keyed := keyed_ofNodes "" _
  have hcompile : blunders.compile {} = .ok blundersCompiled := by decide +kernel
  exact ⟨hcompile, compile_pruned hkeyed hcompile⟩

end Script

end Dialogue
