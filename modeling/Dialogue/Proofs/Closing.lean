import Dialogue.Proofs.Keyed
import Dialogue.Proofs.Nesting

/-!
# Conditionals are closed after they are opened

Every clause of a branch has a marker and every branch has one end, however many
clauses it has. So the end of a branch with a clause has the marker of its first
clause before it, in the same block, wherever the conditions stand; only the end
of a branch without clauses stands for nothing that was opened.

To tell these ends from the others, `Script.filled` has a line in place of every
branch without clauses. Compiling it makes the same commands, but for that line
where such an end was. `Script.closers_le_openers` says that nothing else can go
wrong: up to any point of a block, the ends that are too many are no more than
the ends of branches without clauses up to there.
-/

namespace Dialogue

-- ---------------------------------------------------------------------------
-- Words whose ends are covered
-- ---------------------------------------------------------------------------

namespace Role

def openers (word : List Role) : Nat := word.count .ifThen + word.count .otherwise

def closers (word : List Role) : Nat := word.count .endIf

theorem openers_append (first rest : List Role) :
    openers (first ++ rest) = openers first + openers rest := by
  simp only [openers, List.count_append]
  omega

theorem closers_append (first rest : List Role) :
    closers (first ++ rest) = closers first + closers rest :=
  List.count_append

theorem openers_cons (role : Role) (rest : List Role) :
    openers (role :: rest) = openers [role] + openers rest :=
  openers_append [role] rest

theorem closers_cons (role : Role) (rest : List Role) :
    closers (role :: rest) = closers [role] + closers rest :=
  closers_append [role] rest

/-- Up to any point, all ends but `slack` have an opening before them. -/
def Covered (slack : Nat) (word : List Role) : Prop :=
  ∀ count, closers (word.take count) ≤ openers (word.take count) + slack

namespace Covered

theorem nil : Covered slack [] := by
  intro count
  simp [closers]

theorem append (hfirst : Covered slack first) (hrest : Covered more rest) :
    Covered (slack + more) (first ++ rest) := by
  intro count
  have hbefore := hfirst count
  have hafter := hrest (count - first.length)
  rw [List.take_append, closers_append, openers_append]
  omega

theorem cons (hrole : role ≠ .endIf) (h : Covered (slack + openers [role]) word) :
    Covered slack (role :: word) := by
  intro count
  cases count with
  | zero => simp [closers]
  | succ count =>
    have hword := h count
    have hcloser : closers [role] = 0 := List.count_singleton.trans (by simp [hrole])
    rw [List.take_succ_cons, closers_cons, openers_cons]
    omega

theorem endIf : Covered 1 [.endIf] := by
  intro count
  cases count <;> simp [closers]

end Covered

end Role

-- ---------------------------------------------------------------------------
-- A line in place of each branch without clauses
-- ---------------------------------------------------------------------------

namespace Filled

mutual

def statement (mark : String) : Statement → Statement
  | .choices options => .choices (choices mark options)
  | .branch [] => .line mark
  | .branch (clause :: rest) => .branch (clauses mark (clause :: rest))
  | source => source

def statements (mark : String) : List Statement → List Statement
  | [] => []
  | first :: rest => statement mark first :: statements mark rest

def choices (mark : String) : List Choice → List Choice
  | [] => []
  | .mk label body :: rest => .mk label (statements mark body) :: choices mark rest

def clauses (mark : String) : List Clause → List Clause
  | [] => []
  | .mk condition body :: rest => .mk condition (statements mark body) :: clauses mark rest

end

def phrase (mark : String) : Phrase → Phrase
  | .statement source => .statement (statement mark source)
  | .statements source => .statements (statements mark source)
  | .choices source => .choices (choices mark source)
  | .clauses first source found => .clauses first (clauses mark source) found

def node (mark : String) (source : Node) : Node :=
  { source with statements := statements mark source.statements }

variable (mark : String)

theorem length_statements (source : List Statement) :
    (statements mark source).length = source.length := by
  induction source with
  | nil => simp only [statements]
  | cons first rest ih => simp only [statements, List.length_cons, ih]

theorem conditions_clauses (source : List Clause) :
    (clauses mark source).map Clause.condition = source.map Clause.condition := by
  induction source with
  | nil => simp only [clauses]
  | cons clause rest ih =>
    obtain ⟨condition, body⟩ := clause
    simp only [clauses, List.map_cons, ih, Clause.condition]

end Filled

/-- The script that says `mark` instead of each branch without clauses. -/
def Script.filled (mark : String) (script : Script) : Script :=
  { script with nodes := script.nodes.map (Filled.node mark) }

variable {mark : String} {policy : MismatchPolicy} {kinds : Kinds}

theorem Statement.Emits.filled {source : Statement} (h : source.Emits policy kinds command) :
    Filled.statement mark source = source := by
  cases h <;> simp only [Filled.statement]

theorem Statement.Rejected.filled {source : Statement} (h : source.Rejected policy kinds error) :
    (Filled.statement mark source).Rejected policy kinds error := by
  cases h with
  | @branch branches _ hchecks =>
    cases branches with
    | nil => cases hchecks
    | cons clause rest =>
      simp only [Filled.statement]
      rw [← Kinds.checks_congr (Filled.conditions_clauses mark _)] at hchecks
      exact .branch hchecks
  | assign hassign =>
    simp only [Filled.statement]
    exact .assign hassign

-- ---------------------------------------------------------------------------
-- What becomes of the end of a branch without clauses
-- ---------------------------------------------------------------------------

inductive Action.Marked (mark : String) : Action → Action → Prop
  | same : Marked mark action action
  | vacant : Marked mark (.emit target .endIf) (.emit target (.say mark))

inductive Command.Marked (mark : String) : Command → Command → Prop
  | same : Marked mark command command
  | vacant : Marked mark .endIf (.say mark)

open List (Forall₂)

theorem Action.marked_refl (actions : List Action) : Forall₂ (Marked mark) actions actions :=
  List.forall₂_same.mpr fun _ _ => .same

theorem Kinds.after_marked {actions marked : List Action}
    (h : Forall₂ (Action.Marked mark) actions marked) (kinds : Kinds) :
    kinds.after actions = kinds.after marked := by
  induction h generalizing kinds with
  | nil => rfl
  | cons hfirst _ ih =>
    rw [after_cons, after_cons, ih]
    cases hfirst <;> rfl

-- ---------------------------------------------------------------------------
-- Every lowering covers its other ends
-- ---------------------------------------------------------------------------

namespace NamedCommand

theorem role_marker_ne (first : Bool) (check : Option Check) :
    (marker first check).role ≠ .endIf := by
  cases check with
  | none => simp [marker, role]
  | some check => cases first <;> simp [marker, role]

theorem openers_marker (check : Option Check) : Role.openers [(marker true check).role] = 1 := by
  cases check <;> rfl

end NamedCommand

namespace Action

open Role (Covered)

variable {into : String → Bool}

theorem covered_emit {command : NamedCommand} (h : command.role ≠ .endIf) (target : String) :
    Covered slack (roles into [.emit target command]) := by
  rw [roles_emit]
  cases into target
  · exact .nil
  · exact .cons h .nil

theorem covered_enclosed (h : Covered slack word) (into : String → Bool) (target : String)
    (check : Option Check) :
    Covered slack (roles into [.emit target (.marker true check)] ++
      (word ++ roles into [.emit target .endIf])) := by
  rw [roles_emit, roles_emit]
  cases into target with
  | false => simpa using h
  | true =>
    refine .cons (NamedCommand.role_marker_ne true check) ?_
    rw [NamedCommand.openers_marker]
    exact h.append .endIf

end Action

def Phrase.closing (target : String) : Phrase → List Action
  | .clauses true (_ :: _) _ => [.emit target .endIf]
  | _ => []

open Role (Covered)

theorem Lowered.filled (mark : String) (h : Lowered policy target kinds phrase actions) :
    ∃ marked, Lowered policy target kinds (Filled.phrase mark phrase) marked ∧
      Forall₂ (Action.Marked mark) actions marked ∧
      ∀ into, Covered 0 (Action.roles into (marked ++ phrase.closing target)) := by
  induction h with
  | emit hemits =>
    refine ⟨_, ?_, Action.marked_refl _, fun into => ?_⟩
    · simp only [Filled.phrase, hemits.filled]
      exact .emit hemits
    · exact Action.covered_emit (by simp [hemits.role_eq]) _
  | ignore hparse =>
    refine ⟨_, ?_, Action.marked_refl _, fun into => .nil⟩
    simp only [Filled.phrase, Filled.statement]
    exact .ignore hparse
  | unsupported =>
    refine ⟨_, ?_, Action.marked_refl _, fun into => .nil⟩
    simp only [Filled.phrase, Filled.statement]
    exact .unsupported
  | menu _ ih =>
    obtain ⟨marked, hlowered, hmarked, hcovered⟩ := ih
    refine ⟨marked, ?_, hmarked, hcovered⟩
    simp only [Filled.phrase, Filled.statement]
    exact .menu hlowered
  | @branch kinds branches found target actions hfound hclauses ih =>
    cases branches with
    | nil =>
      cases hclauses
      refine ⟨[.emit target (.say mark)], ?_, .cons .vacant .nil, fun into => ?_⟩
      · simp only [Filled.phrase, Filled.statement]
        exact .emit .line
      · exact Action.covered_emit (by simp [NamedCommand.role]) target
    | cons clause rest =>
      obtain ⟨marked, hlowered, hmarked, hcovered⟩ := ih
      refine ⟨marked ++ [.emit target .endIf], ?_, ?_, fun into => ?_⟩
      · rw [← Kinds.checks_congr (Filled.conditions_clauses mark _)] at hfound
        simp only [Filled.phrase, Filled.statement]
        exact .branch hfound hlowered
      · exact List.rel_append hmarked (Action.marked_refl _)
      · simpa [Phrase.closing] using hcovered into
  | nil =>
    refine ⟨[], ?_, .nil, fun into => .nil⟩
    simp only [Filled.phrase, Filled.statements]
    exact .nil
  | cons _ _ hfirst hrest =>
    obtain ⟨marked, hlowered, hmarked, hcovered⟩ := hfirst
    obtain ⟨later, hlater, hmarkedLater, hcoveredLater⟩ := hrest
    refine ⟨marked ++ later, ?_, List.rel_append hmarked hmarkedLater, fun into => ?_⟩
    · rw [Kinds.after_marked hmarked] at hlater
      simp only [Filled.phrase, Filled.statements]
      exact .cons hlowered hlater
    · have hword := (hcovered into).append (hcoveredLater into)
      simpa [Phrase.closing] using hword
  | skip hrejected _ ih =>
    obtain ⟨marked, hlowered, hmarked, hcovered⟩ := ih
    refine ⟨_ :: marked, ?_, .cons .same hmarked, hcovered⟩
    simp only [Filled.phrase, Filled.statements]
    exact .skip hrejected.filled hlowered
  | noChoice =>
    refine ⟨[], ?_, .nil, fun into => .nil⟩
    simp only [Filled.phrase, Filled.choices]
    exact .noChoice
  | @choice label kinds body actions target rest more _ _ hbody hrest =>
    obtain ⟨marked, hlowered, hmarked, hcovered⟩ := hbody
    obtain ⟨later, hlater, hmarkedLater, hcoveredLater⟩ := hrest
    refine ⟨.emit target (.menu label label) :: marked ++ later, ?_,
      .cons .same (List.rel_append hmarked hmarkedLater), fun into => ?_⟩
    · rw [Kinds.after_marked hmarked] at hlater
      simp only [Filled.phrase, Filled.choices]
      exact .choice hlowered hlater
    · have hmenu : Covered 0 (Action.roles into [.emit target (.menu label label)]) :=
        Action.covered_emit (by simp [NamedCommand.role]) target
      have hword := hmenu.append ((hcovered into).append (hcoveredLater into))
      simpa [Phrase.closing, Action.roles_emit] using hword
  | @noClause target kinds first =>
    refine ⟨[], ?_, .nil, fun into => ?_⟩
    · simp only [Filled.phrase, Filled.clauses]
      exact .noClause
    · cases first <;> exact .nil
  | @clause condition check target body actions rest found more kinds first checked hpasses hcovers
      _ _ hbody hrest =>
    obtain ⟨marked, hlowered, hmarked, hcovered⟩ := hbody
    obtain ⟨later, hlater, hmarkedLater, hcoveredLater⟩ := hrest
    refine ⟨.emit target (.marker first check) :: marked ++ later, ?_,
      .cons .same (List.rel_append hmarked hmarkedLater), fun into => ?_⟩
    · rw [Kinds.after_marked hmarked] at hlater
      simp only [Filled.phrase, Filled.clauses]
      exact .clause hpasses hcovers hlowered hlater
    · have hbodies := (hcovered into).append (hcoveredLater into)
      cases first with
      -- The marker of the first clause covers the end of the branch.
      | true =>
        have hword := Action.covered_enclosed hbodies into target check
        simpa [Phrase.closing, Action.roles_emit] using hword
      | false =>
        have hmarker : Covered 0 (Action.roles into [.emit target (.marker false check)]) :=
          Action.covered_emit (NamedCommand.role_marker_ne false check) target
        have hword := hmarker.append hbodies
        simpa [Phrase.closing, Action.roles_emit] using hword

theorem Plan.nodes_filled (mark : String) {started : List String} {order : List Node}
    (h : (nodes policy kinds started order).failure = none) :
    ∃ marked, nodes policy kinds started (order.map (Filled.node mark)) = { actions := marked } ∧
      Forall₂ (Action.Marked mark) (nodes policy kinds started order).actions marked ∧
      ∀ into, Covered 0 (Action.roles into marked) := by
  induction order generalizing kinds started with
  | nil => exact ⟨[], rfl, .nil, fun into => .nil⟩
  | cons source rest ih =>
    rcases nodes_cons_cases h with ⟨hold, hrest, hactions⟩ | ⟨hnew, body, hbody, hrest, hactions⟩
    · obtain ⟨marked, hnodes, hmarked, hcovered⟩ := ih hrest
      refine ⟨.mention source.name :: marked, ?_, ?_, hcovered⟩
      · have hstarted : (Filled.node mark source).name ∈ started := hold
        rw [List.map_cons, nodes_cons_of_mem hstarted, hnodes]
        rfl
      · rw [hactions]
        exact .cons .same hmarked
    · obtain ⟨marked, hnodes, hmarked, hcovered⟩ := ih hrest
      obtain ⟨inside, hlowered, hmarkedInside, hcoveredInside⟩ := hbody.filled mark
      refine ⟨.mention source.name :: .start source.name source.statements.length ::
        inside ++ marked, ?_, ?_, fun into => ?_⟩
      · rw [Kinds.after_marked hmarkedInside] at hnodes
        have hstarted : (Filled.node mark source).name ∉ started := hnew
        rw [List.map_cons, nodes_cons_of_notMem hstarted hlowered]
        simp only [Filled.node, Filled.length_statements] at hnodes ⊢
        rw [hnodes]
        rfl
      · rw [hactions]
        exact .cons .same (.cons .same (List.rel_append hmarkedInside hmarked))
      · have hword := (hcoveredInside into).append (hcovered into)
        simp only [Phrase.closing, List.append_nil, ← Action.roles_append] at hword
        exact hword

/-- The script with a line in place of each branch without clauses does the same, but
for the ends of these branches, and covers all its ends. -/
theorem Script.plan_filled {script : Script} {options : Options}
    (h : (script.plan options).failure = none) (mark : String) :
    ∃ marked, (script.filled mark).plan options = { actions := marked } ∧
      Forall₂ (Action.Marked mark) (script.plan options).actions marked ∧
      ∀ into, Covered 0 (Action.roles into marked) := by
  obtain ⟨first, hfirst⟩ := find?_of_failure_eq_none h
  have hfilled : (script.filled mark).nodes.find? options.entry =
      some (Filled.node mark first) := by
    rw [filled, Table.find?_map, hfirst]
    rfl
  have hothers : (script.filled mark).others options.entry =
      (script.others options.entry).map (Filled.node mark) := by
    simp only [others, filled, Table.map, List.filter_map, List.map_map]
    rfl
  rw [plan_eq hfirst] at h ⊢
  have hnodes := (Plan.failure_andThen_eq_none.mp h).1
  obtain ⟨marked, hplan, hmarked, hcovered⟩ := Plan.nodes_filled mark hnodes
  refine ⟨marked ++ [.finish script.name], ?_, ?_, fun into => ?_⟩
  · rw [plan_eq hfilled, hothers, ← List.map_cons, hplan]
    rfl
  · rw [Plan.actions_andThen hnodes]
    exact List.rel_append hmarked (Action.marked_refl _)
  · have hfinish : Covered 0 (Action.roles into [.finish script.name]) := .nil
    rw [Action.roles_append]
    exact (hcovered into).append hfinish

-- ---------------------------------------------------------------------------
-- Compiling with the line
-- ---------------------------------------------------------------------------

structure Flowchart.Marked (mark : String) (chart other : Flowchart) : Prop where
  name : chart.name = other.name
  blocks : chart.blocks = other.blocks
  vars : chart.vars = other.vars
  commands : Forall₂ (Command.Marked mark) chart.commands.toList other.commands.toList

structure Session.Marked (mark : String) (session other : Session Flowchart) : Prop where
  host : session.ledger.host.Marked mark other.ledger.host
  blocks : session.blocks = other.blocks
  vars : session.vars = other.vars
  current : session.current = other.current
  diagnostics : session.diagnostics = other.diagnostics

section

variable {ledger other : Ledger Flowchart}

theorem BlockRegistry.resolve_marked (h : ledger.host.Marked mark other.host)
    (blocks : BlockRegistry) (name : String) :
    ∃ after : Ledger Flowchart, (blocks.resolve name ledger).2.2.host.Marked mark after.host ∧
      blocks.resolve name other =
        ((blocks.resolve name ledger).1, (blocks.resolve name ledger).2.1, after) := by
  unfold resolve
  cases blocks.find? name with
  | some id => exact ⟨other, h, rfl⟩
  | none =>
    simp only [Ledger.createBlock, Host.createBlock, h.blocks]
    refine ⟨_, ?_, rfl⟩
    exact ⟨h.name, rfl, h.vars, h.commands⟩

theorem VariableRegistry.resolve_marked (h : ledger.host.Marked mark other.host)
    (vars : VariableRegistry) (name : String) (kind : Kind) :
    ∃ after : Ledger Flowchart, (vars.resolve name kind ledger).2.2.host.Marked mark after.host ∧
      vars.resolve name kind other =
        ((vars.resolve name kind ledger).1, (vars.resolve name kind ledger).2.1, after) := by
  unfold resolve
  cases vars.find? name with
  | some found => exact ⟨other, h, rfl⟩
  | none =>
    simp only [Ledger.createVariable, Ledger.setValue, Ledger.note, Host.createVariable,
      Host.setValue, h.vars]
    refine ⟨_, ?_, rfl⟩
    exact ⟨h.name, h.blocks, rfl, h.commands⟩

end

namespace Session.Marked

variable {session other : Session Flowchart}

theorem blockOf (h : session.Marked mark other) (name : String) :
    session.blockOf name = other.blockOf name := by
  obtain ⟨after, _, heq⟩ := session.blocks.resolve_marked h.host name
  rw [Session.blockOf, Session.blockOf, ← h.blocks, heq]

theorem withBlock (h : session.Marked mark other) (name : String) :
    (session.withBlock name).Marked mark (other.withBlock name) := by
  obtain ⟨after, hafter, heq⟩ := session.blocks.resolve_marked h.host name
  rw [Session.withBlock, Session.withBlock, ← h.blocks, heq]
  exact ⟨hafter, rfl, h.vars, h.current, h.diagnostics⟩

theorem variableOf (h : session.Marked mark other) (name : String) (kind : Kind) :
    session.variableOf name kind = other.variableOf name kind := by
  obtain ⟨after, _, heq⟩ := session.vars.resolve_marked h.host name kind
  rw [Session.variableOf, Session.variableOf, ← h.vars, heq]

theorem withVariable (h : session.Marked mark other) (name : String) (kind : Kind) :
    (session.withVariable name kind).Marked mark (other.withVariable name kind) := by
  obtain ⟨after, hafter, heq⟩ := session.vars.resolve_marked h.host name kind
  rw [Session.withVariable, Session.withVariable, ← h.vars, heq]
  exact ⟨hafter, h.blocks, rfl, h.current, h.diagnostics⟩

theorem withCommand (h : session.Marked mark other) (block : BlockId)
    (hcommand : command.Marked mark stand) :
    (session.withCommand block command).Marked mark (other.withCommand block stand) := by
  have hcommands : Forall₂ (Command.Marked mark)
      (session.ledger.host.commands.push command).toList
      (other.ledger.host.commands.push stand).toList := by
    rw [Array.toList_push, Array.toList_push]
    exact List.rel_append h.host.commands (.cons hcommand .nil)
  have hsize : session.ledger.host.commands.size = other.ledger.host.commands.size :=
    h.host.commands.length_eq
  refine ⟨⟨h.host.name, ?_, h.host.vars, hcommands⟩, h.blocks, h.vars, h.current, h.diagnostics⟩
  simp only [Session.withCommand, Ledger.emit, Ledger.createCommand, Ledger.appendCommand,
    Host.createCommand, Host.appendCommand, h.host.blocks, hsize]

theorem resolve (h : session.Marked mark other) (command : NamedCommand) :
    command.resolve session = command.resolve other := by
  cases command <;> simp only [NamedCommand.resolve, h.blockOf, h.variableOf]

theorem declare (h : session.Marked mark other) (command : NamedCommand) :
    (command.declare session).Marked mark (command.declare other) := by
  cases command with
  | menu text target => exact h.withBlock target
  | call target => exact h.withBlock target
  | set operator name value => exact h.withVariable name value.kind
  | ifThen check => exact h.withVariable check.name check.value.kind
  | elseIf check => exact h.withVariable check.name check.value.kind
  | _ => exact h

theorem action {action stand : Action} (h : session.Marked mark other)
    (haction : action.Marked mark stand) :
    (action.perform session).Marked mark (stand.perform other) := by
  cases haction with
  | same =>
    cases action with
    | mention name => exact h.withBlock name
    | start name statements => exact ⟨h.host, h.blocks, h.vars, rfl, h.diagnostics⟩
    | emit target command =>
      have hopened := h.withBlock target
      simp only [Action.perform, hopened.resolve command, h.blockOf target]
      exact (hopened.declare command).withCommand _ .same
    | ignore raw => exact ⟨h.host, h.blocks, h.vars, h.current, h.diagnostics⟩
    | skip error =>
      refine ⟨h.host, h.blocks, h.vars, h.current, ?_⟩
      simp only [Action.perform, withDiagnostic, h.diagnostics, h.current]
    | finish script => exact ⟨h.host, h.blocks, h.vars, h.current, h.diagnostics⟩
  | @vacant target =>
    simp only [Action.perform, h.blockOf target]
    exact (h.withBlock target).withCommand _ .vacant

theorem perform (h : session.Marked mark other)
    (hactions : Forall₂ (Action.Marked mark) actions marked) :
    (session.perform actions).Marked mark (other.perform marked) := by
  induction hactions generalizing session other with
  | nil => exact h
  | cons haction _ ih => exact ih (h.action haction)

end Session.Marked

-- ---------------------------------------------------------------------------
-- Blocks
-- ---------------------------------------------------------------------------

structure BlockListing.Marked (mark : String) (block other : BlockListing) : Prop where
  name : block.name = other.name
  commands : Forall₂ (Command.Marked mark) block.commands other.commands

theorem Flowchart.Marked.inlined {chart other : Flowchart} (h : chart.Marked mark other)
    (block : Block) :
    Forall₂ (Command.Marked mark) (chart.inlined block) (other.inlined block) := by
  unfold Flowchart.inlined
  induction block.commands.toList with
  | nil => exact .nil
  | cons id rest ih =>
    have hlength := h.commands.length_eq
    simp only [Flowchart.commandAt?, List.filterMap_cons, ← Array.getElem?_toList] at ih ⊢
    by_cases hid : id.index.toNat < chart.commands.toList.length
    · rw [List.getElem?_eq_getElem hid, List.getElem?_eq_getElem (hlength ▸ hid)]
      exact .cons (h.commands.get hid (hlength ▸ hid)) ih
    · rw [List.getElem?_eq_none (Nat.le_of_not_lt hid),
        List.getElem?_eq_none (hlength ▸ Nat.le_of_not_lt hid)]
      exact ih

theorem Flowchart.Marked.listing_blocks {chart other : Flowchart} (h : chart.Marked mark other) :
    Forall₂ (BlockListing.Marked mark) chart.listing.blocks other.listing.blocks := by
  rw [Flowchart.listing, Flowchart.listing, ← h.blocks]
  simp only [List.forall₂_map_left_iff, List.forall₂_map_right_iff, List.forall₂_same]
  exact fun block _ => ⟨rfl, h.inlined block⟩

theorem Command.Marked.closers {commands others : List Command}
    (h : Forall₂ (Command.Marked mark) commands others) :
    Role.openers (commands.map Command.role) = Role.openers (others.map Command.role) ∧
      Role.closers (commands.map Command.role) = Role.closers (others.map Command.role) +
        (commands.zip others).countP fun pair => pair.1 ≠ pair.2 := by
  induction h with
  | nil => exact ⟨rfl, rfl⟩
  | @cons command other rest others hfirst _ ih =>
    have hmore : Role.openers [command.role] = Role.openers [other.role] ∧
        Role.closers [command.role] = Role.closers [other.role] +
          [(command, other)].countP fun pair => pair.1 ≠ pair.2 := by
      cases hfirst with
      | same => exact ⟨rfl, by simp⟩
      | vacant => exact ⟨rfl, rfl⟩
    have hzip : (command :: rest).zip (other :: others) =
        [(command, other)] ++ rest.zip others := rfl
    rw [hzip, List.countP_append, List.map_cons, List.map_cons, Role.openers_cons,
      Role.openers_cons other.role, Role.closers_cons, Role.closers_cons other.role]
    omega

theorem BlockListing.Marked.covered {block other : BlockListing} (h : block.Marked mark other)
    (hcovered : Covered 0 (other.commands.map Command.role)) (hstart : start <+: block.commands) :
    Role.closers (start.map Command.role) ≤ Role.openers (start.map Command.role) +
      (start.zip other.commands).countP fun pair => pair.1 ≠ pair.2 := by
  have htake := List.forall₂_take start.length h.commands
  rw [← List.prefix_iff_eq_take.mp hstart] at htake
  obtain ⟨hopeners, hclosers⟩ := Command.Marked.closers htake
  have hzip : start.zip other.commands = start.zip (other.commands.take start.length) :=
    calc
      start.zip other.commands = (start ++ []).zip
          (other.commands.take start.length ++ other.commands.drop start.length) := by
        rw [List.append_nil, List.take_append_drop]
      _ = start.zip (other.commands.take start.length) := by
        rw [List.zip_append htake.length_eq, List.zip_nil_left, List.append_nil]
  have hword := hcovered start.length
  rw [← List.map_take] at hword
  rw [hzip]
  omega

theorem Listing.length_commands_marked {listing other : Listing}
    (h : Forall₂ (BlockListing.Marked mark) listing.blocks other.blocks) :
    listing.commands.length = other.commands.length := by
  unfold Listing.commands
  generalize listing.blocks = blocks at h ⊢
  generalize other.blocks = others at h ⊢
  induction h with
  | nil => rfl
  | cons hblock _ ih => simp [hblock.commands.length_eq, ih]

namespace Script

theorem marked_compilation {script : Script} {options : Options}
    (hplan : (script.filled mark).plan options = { actions := marked })
    (hmarked : Forall₂ (Action.Marked mark) (script.plan options).actions marked) :
    (script.compilation options).Marked mark ((script.filled mark).compilation options) := by
  rw [compilation, compilation, hplan]
  exact Session.Marked.perform ⟨⟨rfl, rfl, rfl, .nil⟩, rfl, rfl, rfl, rfl⟩ hmarked

/-- A script compiles as it does with a line in place of each branch without clauses,
but for the ends of these branches. Up to any point of a block, the ends exceed the
openings by no more than the ends of branches without clauses up to there. -/
theorem closers_le_openers {script : Script} {options : Options} {compiled : Compiled}
    (hcompile : script.compile options = .ok compiled)
    (hcount : compiled.flowchart.commands.length ≤ UInt32.size) (mark : String) :
    ∃ filled : Listing,
      (script.filled mark).compile options = .ok ⟨compiled.entry, filled, compiled.diagnostics⟩ ∧
      filled.name = compiled.flowchart.name ∧ filled.vars = compiled.flowchart.vars ∧
      Forall₂ (fun block other => block.Marked mark other ∧
          ∀ start, start <+: block.commands →
            Role.closers (start.map Command.role) ≤ Role.openers (start.map Command.role) +
              (start.zip other.commands).countP fun pair => pair.1 ≠ pair.2)
        compiled.flowchart.blocks filled.blocks := by
  obtain ⟨hplan, rfl⟩ := compile_eq_ok_iff.mp hcompile
  obtain ⟨marked, hfilled, hmarked, hcovered⟩ := plan_filled hplan mark
  have hsession := marked_compilation hfilled hmarked
  have hblocks := hsession.host.listing_blocks
  rw [Listing.length_commands_marked hblocks] at hcount
  refine ⟨((script.filled mark).compilation options).ledger.host.listing, ?_,
    hsession.host.name.symm, ?_, ?_⟩
  · refine compile_eq_ok_iff.mpr ⟨by rw [hfilled], ?_⟩
    rw [hsession.diagnostics]
  · rw [Flowchart.listing, Flowchart.listing, hsession.host.vars]
  · rw [List.forall₂_iff_get] at hblocks ⊢
    refine ⟨hblocks.1, fun position hposition hother => ?_⟩
    have hblock := hblocks.2 position hposition hother
    have hat := List.getElem?_eq_getElem hother
    refine ⟨hblock, fun start hstart => hblock.covered ?_ hstart⟩
    rw [List.get_eq_getElem, roles_compilation _ options hcount hat, hfilled]
    exact hcovered _

/-- Conditions in any order, a branch without clauses among them, and one inside a
branch that is skipped. -/
def disorder : Script := .ofNodes "" [
  ⟨"Start", [
    .choices [.mk "Inn" [
      .branch [
        .mk none [.line "Anyone?"],
        .mk (some ⟨"EqualTo", "guest", .bool true⟩) [.branch []],
        .mk none []]]],
    .branch [.mk (some ⟨"Resembles", "guest", .bool true⟩) [.branch []]]]⟩]

def disorderListing : Listing where
  name := ""
  blocks := [
    ⟨"Start", [.menu "Inn" ⟨1⟩]⟩,
    ⟨"Inn", [.otherwise, .say "Anyone?", .elseIf ⟨.equals, ⟨0⟩, .bool true⟩, .endIf, .otherwise,
      .endIf]⟩]
  vars := [⟨"guest", .bool, .everywhere, .bool false⟩]

def disorderFilled : Listing where
  name := ""
  blocks := [
    ⟨"Start", [.menu "Inn" ⟨1⟩]⟩,
    ⟨"Inn", [.otherwise, .say "Anyone?", .elseIf ⟨.equals, ⟨0⟩, .bool true⟩, .say "Nobody.",
      .otherwise, .endIf]⟩]
  vars := [⟨"guest", .bool, .everywhere, .bool false⟩]

/-- The branch that is skipped has no end. -/
theorem closers_le_openers_disorder :
    disorder.compile {} = .ok ⟨⟨0⟩, disorderListing,
      [⟨"Start", "unknown comparison function: Resembles"⟩]⟩ ∧
    (disorder.filled "Nobody.").compile {} = .ok ⟨⟨0⟩, disorderFilled,
      [⟨"Start", "unknown comparison function: Resembles"⟩]⟩ ∧
    Forall₂ (fun block other => block.Marked "Nobody." other ∧
        ∀ start, start <+: block.commands →
          Role.closers (start.map Command.role) ≤ Role.openers (start.map Command.role) +
            (start.zip other.commands).countP fun pair => pair.1 ≠ pair.2)
      disorderListing.blocks disorderFilled.blocks := by
  have hcompile : disorder.compile {} = .ok ⟨⟨0⟩, disorderListing,
      [⟨"Start", "unknown comparison function: Resembles"⟩]⟩ := by decide +kernel
  have hfilled : (disorder.filled "Nobody.").compile {} = .ok ⟨⟨0⟩, disorderFilled,
      [⟨"Start", "unknown comparison function: Resembles"⟩]⟩ := by decide +kernel
  obtain ⟨filled, heq, _, _, hblocks⟩ := closers_le_openers hcompile (by decide) "Nobody."
  rw [hfilled] at heq
  cases heq
  exact ⟨hcompile, hfilled, hblocks⟩

def vacant : Script := .ofNodes "" [⟨"Start", [.branch []]⟩]

theorem openers_lt_closers_vacant :
    ∃ compiled, vacant.compile {} = .ok compiled ∧
      ∃ block ∈ compiled.flowchart.blocks, ∃ start, start <+: block.commands ∧
        Role.openers (start.map Command.role) < Role.closers (start.map Command.role) := by
  have hcompile : vacant.compile {} = .ok ⟨⟨0⟩, ⟨"", [⟨"Start", [.endIf]⟩], []⟩, []⟩ := by
    decide +kernel
  exact ⟨_, hcompile, _, List.mem_cons_self, [.endIf], List.prefix_refl _, by decide⟩

end Script

end Dialogue
