import Dialogue.Proofs.Fatality
import Dialogue.Proofs.Relocation
import Mathlib.Logic.Equiv.Basic

/-!
# Names are opaque

The blocks and the variables of a script may be given other names, each kind of names on
its own, as long as different names stay different: compiling the renamed script fails or
succeeds as compiling the script does, and the result is the same but for the names
(`Script.compile_renamed`).

A plan of the renamed script is the renamed plan (`Renaming.plan_script`), and performing
renamed actions leaves a renamed session (`Session.Renamed.perform`). Reports hold the
texts of errors and not the errors themselves; that a text tells the error that it was
made of (`CompileError.eq_of_message`) makes a renamed report unique
(`Renaming.rightUnique_reports`).
-/

namespace Dialogue

/-- New names for blocks and for variables. Different names stay different. -/
structure Renaming where
  block : String → String
  var : String → String
  /-- The names that operands refer to. Nothing depends on them. -/
  reference : String → String := var
  block_injective : Function.Injective block
  var_injective : Function.Injective var

def Table.rekey (rename : String → String) (table : Table α) : Table α :=
  ⟨table.entries.map fun entry => (rename entry.1, entry.2)⟩

namespace Renaming

-- ---------------------------------------------------------------------------
-- Scripts
-- ---------------------------------------------------------------------------

def operand (names : Renaming) : Operand → Operand
  | .reference name => .reference (names.reference name)
  | other => other

def comparison (names : Renaming) (source : Comparison) : Comparison :=
  { source with
    name := names.var source.name
    value := names.operand source.value }

mutual

def statement (names : Renaming) : Statement → Statement
  | .line text => .line text
  | .jump destination => .jump (names.block destination)
  | .directive raw => .directive raw
  | .choices options => .choices (names.choices options)
  | .branch branches => .branch (names.clauses branches)
  | .assign operation name value => .assign operation (names.var name) (names.operand value)
  | .unsupported => .unsupported

def statements (names : Renaming) : List Statement → List Statement
  | [] => []
  | first :: rest => names.statement first :: names.statements rest

def choices (names : Renaming) : List Choice → List Choice
  | [] => []
  | .mk label body :: rest =>
    .mk (names.block label) (names.statements body) :: names.choices rest

def clauses (names : Renaming) : List Clause → List Clause
  | [] => []
  | .mk condition body :: rest =>
    .mk (condition.map names.comparison) (names.statements body) :: names.clauses rest

end

def node (names : Renaming) (source : Node) : Node where
  name := names.block source.name
  statements := names.statements source.statements

def script (names : Renaming) (source : Script) : Script where
  name := source.name
  nodes := (source.nodes.map names.node).rekey names.block

def options (names : Renaming) (given : Options) : Options :=
  { given with entry := names.block given.entry }

-- ---------------------------------------------------------------------------
-- Compiled scripts
-- ---------------------------------------------------------------------------

/-- The text of a menu entry is the name of a block. -/
def command (names : Renaming) : Command → Command
  | .menu text target => .menu (names.block text) target
  | other => other

def declared (names : Renaming) (found : Variable) : Variable :=
  { found with key := names.var found.key }

def listing (names : Renaming) (source : Listing) : Listing where
  name := source.name
  blocks := source.blocks.map fun block =>
    ⟨names.block block.name, block.commands.map names.command⟩
  vars := source.vars.map names.declared

def error (names : Renaming) : CompileError → CompileError
  | .kindMismatch name declared found => .kindMismatch (names.var name) declared found
  | .missingEntry name => .missingEntry (names.block name)
  | other => other

@[simp] theorem isFatal_error (names : Renaming) (error : CompileError) :
    (names.error error).isFatal = error.isFatal := by
  cases error <;> rfl

/-- Reports of one error, before and after. -/
inductive Reports (names : Renaming) : Diagnostic → Diagnostic → Prop
  | mk (node : String) (error : CompileError) :
    Reports names ⟨node, error.message⟩ ⟨names.block node, (names.error error).message⟩

structure Compiles (names : Renaming) (before after : Compiled) : Prop where
  entry : after.entry = before.entry
  flowchart : after.flowchart = names.listing before.flowchart
  /-- The diagnostics report the same, one for one, and this leaves no choice of them. -/
  diagnostics : ∀ reports,
    List.Forall₂ names.Reports before.diagnostics reports ↔ reports = after.diagnostics

/-- Compilations that end alike. -/
inductive SameOutcome (names : Renaming) :
    Except CompileError Compiled → Except CompileError Compiled → Prop
  | compiled : names.Compiles before after → SameOutcome names (.ok before) (.ok after)
  | failed (error : CompileError) : SameOutcome names (.error error) (.error (names.error error))

end Renaming

-- ---------------------------------------------------------------------------
-- Messages
-- ---------------------------------------------------------------------------

theorem Kind.append_name_inj {first second : String} {kind other : Kind}
    (h : first ++ kind.name = second ++ other.name) : first = second ∧ kind = other := by
  have hlast := congrArg (fun text : String => text.toList.getLast?) h
  cases kind <;> cases other <;> simp [Kind.name] at h hlast <;> exact ⟨h, rfl⟩

namespace CompileError

/-- The ninth letter of a message, in which messages of different errors differ. -/
def letter : CompileError → Char
  | .unknownOperator _ => 'o'
  | .unknownValueKind _ => 'v'
  | .kindMismatch _ _ _ => ' '
  | .unknownComparison _ => 'c'
  | .missingEntry _ => 'e'
  | .malformedDirective _ _ => 'd'

theorem getElem?_message (error : CompileError) :
    error.message.toList[8]? = some error.letter := by
  have hletter {start : String} {letter : Char} (h : start.toList[8]? = some letter)
      (rest : String) : (start ++ rest).toList[8]? = some letter := by
    rw [String.toList_append, List.getElem?_append_left (List.getElem?_eq_some_iff.mp h).1, h]
  cases error with
  | unknownOperator token => exact hletter rfl token
  | unknownValueKind kind => exact hletter rfl kind
  | kindMismatch name declared found =>
    exact hletter (hletter (hletter (hletter (hletter (hletter rfl name) _) _) _) _) _
  | unknownComparison function => exact hletter rfl function
  | missingEntry name => exact hletter (hletter rfl name) _
  | malformedDirective raw fault => exact hletter (hletter (hletter rfl raw) _) _

/-- A message tells the error that it was made of. Only the directive and the fault of a
malformed directive may run into each other. -/
theorem eq_of_message {error other : CompileError} (h : error.message = other.message) :
    error = other ∨
      (∃ raw fault, error = .malformedDirective raw fault) ∧
        ∃ raw fault, other = .malformedDirective raw fault := by
  have hletter : error.letter = other.letter := by
    have hletters := congrArg (fun text : String => text.toList[8]?) h
    simpa [getElem?_message] using hletters
  cases error with
  | unknownOperator token =>
    cases other with
    | unknownOperator found => exact .inl (congrArg _ ((String.append_right_inj _).mp h))
    | _ => cases hletter
  | unknownValueKind kind =>
    cases other with
    | unknownValueKind found => exact .inl (congrArg _ ((String.append_right_inj _).mp h))
    | _ => cases hletter
  | unknownComparison function =>
    cases other with
    | unknownComparison found => exact .inl (congrArg _ ((String.append_right_inj _).mp h))
    | _ => cases hletter
  | kindMismatch name declared found =>
    cases other with
    | kindMismatch name' declared' found' =>
      -- The kinds are read from the end of the text.
      obtain ⟨hbefore, rfl⟩ := Kind.append_name_inj ((String.append_left_inj _).mp h)
      obtain ⟨hname, rfl⟩ := Kind.append_name_inj ((String.append_left_inj _).mp hbefore)
      have hsame := (String.append_right_inj _).mp ((String.append_left_inj _).mp hname)
      exact .inl (by rw [hsame])
    | _ => cases hletter
  | missingEntry name =>
    cases other with
    | missingEntry found =>
      have hsame := (String.append_right_inj _).mp ((String.append_left_inj _).mp h)
      exact .inl (congrArg _ hsame)
    | _ => cases hletter
  | malformedDirective raw fault =>
    cases other with
    | malformedDirective raw' fault' => exact .inr ⟨⟨raw, fault, rfl⟩, raw', fault', rfl⟩
    | _ => cases hletter

end CompileError

namespace Renaming

theorem rightUnique_reports (names : Renaming) : Relator.RightUnique names.Reports := by
  intro before after other h hother
  obtain ⟨node, error⟩ := h
  generalize hbefore : Diagnostic.mk node error.message = before at hother
  obtain ⟨node', error'⟩ := hother
  obtain ⟨rfl, hmessage⟩ := Diagnostic.mk.inj hbefore
  rcases CompileError.eq_of_message hmessage with rfl | ⟨⟨raw, fault, rfl⟩, raw', fault', rfl⟩
  · rfl
  · -- No name stands in either error.
    exact congrArg (Diagnostic.mk _) hmessage

theorem reports_iff {names : Renaming} {before after : List Diagnostic}
    (h : List.Forall₂ names.Reports before after) (reports : List Diagnostic) :
    List.Forall₂ names.Reports before reports ↔ reports = after := by
  constructor
  · intro hreports
    exact names.rightUnique_reports.forall₂ hreports h
  · rintro rfl
    exact h

end Renaming

-- ---------------------------------------------------------------------------
-- Tables
-- ---------------------------------------------------------------------------

namespace Table

variable {rename : String → String}

theorem find?_rekey (hrename : Function.Injective rename) (table : Table α) (name : String) :
    (table.rekey rename).find? (rename name) = table.find? name := by
  obtain ⟨entries⟩ := table
  show findIn (rename name) (entries.map _) = findIn name entries
  induction entries with
  | nil => rfl
  | cons entry rest ih => simp only [List.map_cons, findIn, hrename.eq_iff, ih]

theorem rekey_insert (hrename : Function.Injective rename) {table : Table α}
    (h : table.find? name = none) (value : α) :
    (table.insert name value).rekey rename = (table.rekey rename).insert (rename name) value := by
  have hnew : (table.rekey rename).find? (rename name) = none := by rw [find?_rekey hrename, h]
  have hentries : ((table.insert name value).rekey rename).entries =
      ((table.rekey rename).insert (rename name) value).entries := by
    rw [entries_insert hnew, rekey, entries_insert h, List.map_append]
    rfl
  exact congrArg Table.mk hentries

end Table

-- ---------------------------------------------------------------------------
-- Kinds and checks
-- ---------------------------------------------------------------------------

namespace Renaming

def result (names : Renaming) (rename : α → α) : Except CompileError α → Except CompileError α
  | .ok found => .ok (rename found)
  | .error error => .error (names.error error)

def check (names : Renaming) (found : Check) : Check :=
  { found with name := names.var found.name }

def named (names : Renaming) : NamedCommand → NamedCommand
  | .menu text target => .menu (names.block text) (names.block target)
  | .call target => .call (names.block target)
  | .set operator name value => .set operator (names.var name) value
  | .ifThen found => .ifThen (names.check found)
  | .elseIf found => .elseIf (names.check found)
  | other => other

def action (names : Renaming) : Action → Action
  | .mention name => .mention (names.block name)
  | .start name statements => .start (names.block name) statements
  | .emit target command => .emit (names.block target) (names.named command)
  | .ignore raw => .ignore raw
  | .skip error => .skip (names.error error)
  | .finish script => .finish script

def plan (names : Renaming) (source : Plan) : Plan where
  actions := source.actions.map names.action
  failure := source.failure.map names.error

def SameKinds (names : Renaming) (kinds renamed : Kinds) : Prop :=
  ∀ name, renamed (names.var name) = kinds name

variable {names : Renaming} {kinds renamed : Kinds} {policy : MismatchPolicy}

theorem SameKinds.declare (h : names.SameKinds kinds renamed) (name : String) (kind : Kind) :
    names.SameKinds (kinds.declare name kind) (renamed.declare (names.var name) kind) := by
  intro other
  simp only [Kinds.declare, h other, names.var_injective.eq_iff]

theorem SameKinds.afterCommand (h : names.SameKinds kinds renamed) (command : NamedCommand) :
    names.SameKinds (kinds.afterCommand command) (renamed.afterCommand (names.named command)) := by
  cases command with
  | set operator name value => exact h.declare name value.kind
  | ifThen check => exact h.declare check.name check.value.kind
  | elseIf check => exact h.declare check.name check.value.kind
  | _ => exact h

theorem SameKinds.after (h : names.SameKinds kinds renamed) (actions : List Action) :
    names.SameKinds (kinds.after actions) (renamed.after (actions.map names.action)) := by
  induction actions generalizing kinds renamed with
  | nil => exact h
  | cons action rest ih =>
    cases action with
    | emit target command => exact ih (h.afterCommand command)
    | _ => exact ih h

theorem literal_operand (names : Renaming) (value : Operand) :
    (names.operand value).literal = names.result id value.literal := by
  cases value <;> rfl

theorem conform_var (names : Renaming) (name : String) (declared : Option Kind)
    (literal : Literal) :
    conform (names.var name) declared policy literal =
      names.result id (conform name declared policy literal) := by
  unfold conform
  split
  · rfl
  · split
    · rfl
    · split <;> rfl

theorem check_comparison (h : names.SameKinds kinds renamed) (source : Comparison) :
    renamed.check policy (names.comparison source) =
      names.result names.check (kinds.check policy source) := by
  unfold Kinds.check
  simp only [comparison, h source.name, literal_operand, conform_var]
  cases CompareOperator.ofFunction? source.function with
  | none => rfl
  | some operator =>
    cases source.value.literal with
    | error error => rfl
    | ok literal =>
      simp only [result, bind, Except.bind, id]
      cases conform source.name (kinds source.name) policy literal <;> rfl

theorem checks_clauses (h : names.SameKinds kinds renamed) (source : List Clause) :
    Kinds.checks policy renamed (names.clauses source) =
      names.result (List.map (Option.map names.check)) (Kinds.checks policy kinds source) := by
  induction source generalizing kinds renamed with
  | nil => rfl
  | cons clause rest ih =>
    obtain ⟨condition, body⟩ := clause
    cases condition with
    | none =>
      simp only [clauses, Option.map_none, Kinds.checks, ih h]
      cases Kinds.checks policy kinds rest <;> rfl
    | some source =>
      simp only [clauses, Option.map_some, Kinds.checks, check_comparison h]
      cases kinds.check policy source with
      | error error => rfl
      | ok found =>
        have hrest := ih (h.declare found.name found.value.kind)
        simp only [result, check, bind, Except.bind, hrest]
        cases Kinds.checks policy (kinds.declare found.name found.value.kind) rest <;> rfl

theorem assignment_var (h : names.SameKinds kinds renamed) (operation name : String)
    (value : Operand) :
    Plan.assignment policy renamed operation (names.var name) (names.operand value) =
      names.result names.named (Plan.assignment policy kinds operation name value) := by
  unfold Plan.assignment
  simp only [h name, literal_operand, conform_var]
  cases SetOperator.ofToken? operation with
  | none => rfl
  | some operator =>
    cases value.literal with
    | error error => rfl
    | ok literal =>
      simp only [result, bind, Except.bind, id]
      cases conform name (kinds name) policy literal <;> rfl

-- ---------------------------------------------------------------------------
-- Plans
-- ---------------------------------------------------------------------------

theorem plan_andThen (first next : Plan) :
    names.plan (first.andThen next) = (names.plan first).andThen (names.plan next) := by
  obtain ⟨actions, failure⟩ := first
  cases failure with
  | some error => rfl
  | none => simp [plan, Plan.andThen]

theorem plan_recovering (source : Plan) :
    names.plan source.recovering = (names.plan source).recovering := by
  obtain ⟨actions, failure⟩ := source
  cases failure with
  | none => rfl
  | some error =>
    by_cases hfatal : error.isFatal = true
    · simp [plan, Plan.recovering, hfatal]
    · simp [plan, Plan.recovering, hfatal, action]

theorem plan_directive (target raw : String) :
    names.plan (Plan.directive target raw) = Plan.directive (names.block target) raw := by
  unfold Plan.directive
  cases hparse : Directive.parse raw with
  | error error =>
    obtain ⟨fault, rfl⟩ := Directive.parse_eq_error hparse
    rfl
  | ok found =>
    cases found with
    | none => rfl
    | some directive => rfl

theorem named_marker (first : Bool) (found : Option Check) :
    names.named (.marker first found) = .marker first (found.map names.check) := by
  cases found with
  | none => rfl
  | some check => cases first <;> rfl

mutual

theorem plan_statement {target : String} {kinds renamed : Kinds}
    (h : names.SameKinds kinds renamed) : ∀ source : Statement,
      Plan.statement policy (names.block target) renamed (names.statement source) =
        names.plan (Plan.statement policy target kinds source)
  | .line text => by
    simp only [statement, Plan.statement]
    rfl
  | .jump destination => by
    simp only [statement, Plan.statement]
    rfl
  | .directive raw => by
    simp only [statement, Plan.statement, plan_directive]
  | .choices options => by
    simp only [statement, Plan.statement]
    exact plan_choices h options
  | .branch branches => by
    simp only [statement, Plan.statement, checks_clauses h]
    cases Kinds.checks policy kinds branches with
    | error error => rfl
    | ok found =>
      simp only [result, plan_andThen, plan_clauses h true branches found]
      rfl
  | .assign operation name value => by
    simp only [statement, Plan.statement, assignment_var h]
    cases Plan.assignment policy kinds operation name value <;> rfl
  | .unsupported => by
    simp only [statement, Plan.statement]
    rfl

theorem plan_statements {target : String} {kinds renamed : Kinds}
    (h : names.SameKinds kinds renamed) : ∀ source : List Statement,
      Plan.statements policy (names.block target) renamed (names.statements source) =
        names.plan (Plan.statements policy target kinds source)
  | [] => by
    simp only [statements, Plan.statements]
    rfl
  | first :: rest => by
    simp only [statements, Plan.statements, plan_statement h first, ← plan_recovering]
    rw [plan_andThen, ← plan_statements (h.after _) rest]
    rfl

theorem plan_choices {target : String} {kinds renamed : Kinds}
    (h : names.SameKinds kinds renamed) : ∀ source : List Choice,
      Plan.choices policy (names.block target) renamed (names.choices source) =
        names.plan (Plan.choices policy target kinds source)
  | [] => by
    simp only [choices, Plan.choices]
    rfl
  | .mk label body :: rest => by
    have hentry : (Plan.emit (names.block target)
          (.menu (names.block label) (names.block label))).andThen
            (Plan.statements policy (names.block label) renamed (names.statements body)) =
        names.plan ((Plan.emit target (.menu label label)).andThen
          (Plan.statements policy label kinds body)) := by
      rw [plan_andThen, plan_statements h body]
      rfl
    simp only [choices, Plan.choices, hentry]
    refine Eq.trans ?_ (plan_andThen _ _).symm
    rw [← plan_choices (h.after _) rest]
    rfl

theorem plan_clauses {target : String} {kinds renamed : Kinds}
    (h : names.SameKinds kinds renamed) (first : Bool) :
    ∀ (source : List Clause) (found : List (Option Check)),
      Plan.clauses policy (names.block target) first renamed (names.clauses source)
          (found.map (Option.map names.check)) =
        names.plan (Plan.clauses policy target first kinds source found)
  | .mk condition body :: rest, check :: more => by
    have hclause : (Plan.emit (names.block target) (.marker first (check.map names.check))).andThen
          (Plan.statements policy (names.block target)
            (renamed.afterCommand (.marker first (check.map names.check)))
            (names.statements body)) =
        names.plan ((Plan.emit target (.marker first check)).andThen
          (Plan.statements policy target (kinds.afterCommand (.marker first check)) body)) := by
      rw [← named_marker, plan_andThen, plan_statements (h.afterCommand _) body]
      rfl
    simp only [clauses, List.map_cons, Plan.clauses, hclause]
    refine Eq.trans ?_ (plan_andThen _ _).symm
    rw [← plan_clauses (h.after _) false rest more]
    rfl
  | [], found => by
    simp only [clauses, Plan.clauses]
    rfl
  | .mk condition body :: rest, [] => by
    simp only [clauses, Plan.clauses, List.map_nil]
    rfl

end

theorem length_statements (source : List Statement) :
    (names.statements source).length = source.length := by
  induction source with
  | nil => simp [statements]
  | cons first rest ih => simp [statements, ih]

theorem plan_node (h : names.SameKinds kinds renamed) (started : List String) (source : Node) :
    Plan.node policy renamed (started.map names.block) (names.node source) =
      names.plan (Plan.node policy kinds started source) := by
  have hstarted : names.block source.name ∈ started.map names.block ↔ source.name ∈ started :=
    List.mem_map_of_injective names.block_injective
  simp only [Plan.node, node, hstarted, length_statements]
  split
  · rfl
  · rw [plan_andThen, plan_statements h source.statements]
    rfl

theorem started_actions (actions : List Action) (started : List String) :
    (actions.map names.action).foldl Action.started (started.map names.block) =
      (actions.foldl Action.started started).map names.block := by
  induction actions generalizing started with
  | nil => rfl
  | cons action rest ih =>
    cases action with
    | start name statements => exact ih (name :: started)
    | _ => exact ih started

theorem plan_nodes (h : names.SameKinds kinds renamed) (started : List String)
    (sources : List Node) :
    Plan.nodes policy renamed (started.map names.block) (sources.map names.node) =
      names.plan (Plan.nodes policy kinds started sources) := by
  induction sources generalizing kinds renamed started with
  | nil => rfl
  | cons source rest ih =>
    simp only [List.map_cons, Plan.nodes, plan_node h, plan_andThen]
    rw [← ih (h.after _), ← started_actions]
    rfl

theorem find?_script (names : Renaming) (source : Script) (entry : String) :
    (names.script source).nodes.find? (names.block entry) =
      (source.nodes.find? entry).map names.node := by
  rw [script, Table.find?_rekey names.block_injective, Table.find?_map]

theorem others_script (names : Renaming) (source : Script) (entry : String) :
    (names.script source).others (names.block entry) =
      (source.others entry).map names.node := by
  simp only [Script.others, script, Table.rekey, Table.map, List.map_map, List.filter_map,
    Function.comp_def, ne_eq, names.block_injective.eq_iff]

/-- The plan of a renamed script is the renamed plan. -/
theorem plan_script (names : Renaming) (source : Script) (given : Options) :
    (names.script source).plan (names.options given) = names.plan (source.plan given) := by
  have hnone : names.SameKinds .none .none := fun _ => rfl
  unfold Script.plan Plan.script
  rw [show (names.options given).entry = names.block given.entry from rfl, find?_script,
    others_script]
  cases source.nodes.find? given.entry with
  | none => rfl
  | some first =>
    simp only [Option.map_some, plan_andThen]
    rw [← plan_nodes hnone []]
    rfl

-- ---------------------------------------------------------------------------
-- Flowcharts
-- ---------------------------------------------------------------------------

def flowchart (names : Renaming) (chart : Flowchart) : Flowchart where
  name := chart.name
  blocks := chart.blocks.map fun block => { block with name := names.block block.name }
  commands := chart.commands.map names.command
  vars := chart.vars.map names.declared

variable (names : Renaming) (chart : Flowchart)

theorem inlined_flowchart (block : Block) :
    (names.flowchart chart).inlined { block with name := names.block block.name } =
      (chart.inlined block).map names.command := by
  have hcommand (id : CommandId) :
      (names.flowchart chart).commandAt? id = (chart.commandAt? id).map names.command := by
    simp [Flowchart.commandAt?, flowchart]
  simp only [Flowchart.inlined, hcommand, List.map_filterMap]

theorem listing_flowchart :
    (names.flowchart chart).listing = names.listing chart.listing := by
  have hblocks : ((names.flowchart chart).blocks.toList.map fun block =>
        (⟨block.name, (names.flowchart chart).inlined block⟩ : BlockListing)) =
      chart.blocks.toList.map fun block =>
        ⟨names.block block.name, (chart.inlined block).map names.command⟩ := by
    simp [flowchart, ← inlined_flowchart]
  simp only [Flowchart.listing, listing, hblocks]
  simp [flowchart]

theorem createBlock_flowchart (name : String) :
    Host.createBlock (names.flowchart chart) (names.block name) =
      ((Host.createBlock chart name).1, names.flowchart (Host.createBlock chart name).2) := by
  simp [Host.createBlock, flowchart]

theorem createCommand_flowchart (command : Command) :
    Host.createCommand (names.flowchart chart) (names.command command) =
      ((Host.createCommand chart command).1,
        names.flowchart (Host.createCommand chart command).2) := by
  simp [Host.createCommand, flowchart]

theorem appendCommand_flowchart (block : BlockId) (command : CommandId) :
    Host.appendCommand (names.flowchart chart) block command =
      names.flowchart (Host.appendCommand chart block command) := by
  simp only [Host.appendCommand, flowchart]
  rw [Flowchart.map_modify]
  intro found
  rfl

theorem createVariable_flowchart (name : String) (kind : Kind) :
    Host.createVariable (names.flowchart chart) (names.var name) kind =
      ((Host.createVariable chart name kind).1,
        names.flowchart (Host.createVariable chart name kind).2) := by
  simp [Host.createVariable, flowchart, declared]

theorem setValue_flowchart (id : VariableId) (value : Literal) :
    Host.setValue (names.flowchart chart) id value =
      names.flowchart (Host.setValue chart id value) := by
  simp only [Host.setValue, flowchart]
  rw [Flowchart.map_modify]
  intro found
  rfl

end Renaming

-- ---------------------------------------------------------------------------
-- Sessions
-- ---------------------------------------------------------------------------

section

variable {names : Renaming} {ledger renamed : Ledger Flowchart}

theorem BlockRegistry.resolve_rekey (h : renamed.host = names.flowchart ledger.host)
    (blocks : BlockRegistry) (name : String) :
    ∃ after : Ledger Flowchart, after.host =
        names.flowchart (blocks.resolve name ledger).2.2.host ∧
      BlockRegistry.resolve (blocks.rekey names.block) (names.block name) renamed =
        ((blocks.resolve name ledger).1, (blocks.resolve name ledger).2.1.rekey names.block,
          after) := by
  unfold resolve
  rw [Table.find?_rekey names.block_injective]
  cases hfind : blocks.find? name with
  | some block => exact ⟨renamed, h, rfl⟩
  | none =>
    simp only [Ledger.createBlock, h, names.createBlock_flowchart,
      Table.rekey_insert names.block_injective hfind]
    exact ⟨_, rfl, rfl⟩

theorem VariableRegistry.resolve_rekey (h : renamed.host = names.flowchart ledger.host)
    (vars : VariableRegistry) (name : String) (kind : Kind) :
    ∃ after : Ledger Flowchart, after.host =
        names.flowchart (vars.resolve name kind ledger).2.2.host ∧
      VariableRegistry.resolve (vars.rekey names.var) (names.var name) kind renamed =
        ((vars.resolve name kind ledger).1,
          (vars.resolve name kind ledger).2.1.rekey names.var, after) := by
  unfold resolve
  rw [Table.find?_rekey names.var_injective]
  cases hfind : vars.find? name with
  | some found => exact ⟨renamed, h, rfl⟩
  | none =>
    simp only [Ledger.createVariable, Ledger.setValue, Ledger.note, h,
      names.createVariable_flowchart, names.setValue_flowchart,
      Table.rekey_insert names.var_injective hfind]
    exact ⟨_, rfl, rfl⟩

end

namespace Session

structure Renamed (names : Renaming) (before after : Session Flowchart) : Prop where
  host : after.ledger.host = names.flowchart before.ledger.host
  blocks : after.blocks = before.blocks.rekey names.block
  vars : after.vars = before.vars.rekey names.var

namespace Renamed

variable {names : Renaming} {before after : Session Flowchart}

theorem blockOf (h : Renamed names before after) (name : String) :
    after.blockOf (names.block name) = before.blockOf name := by
  obtain ⟨ledger, _, hresolve⟩ := BlockRegistry.resolve_rekey h.host before.blocks name
  rw [Session.blockOf, h.blocks, hresolve]
  rfl

theorem withBlock (h : Renamed names before after) (name : String) :
    Renamed names (before.withBlock name) (after.withBlock (names.block name)) := by
  obtain ⟨ledger, hhost, hresolve⟩ := BlockRegistry.resolve_rekey h.host before.blocks name
  unfold Session.withBlock
  rw [h.blocks, hresolve]
  exact ⟨hhost, rfl, h.vars⟩

theorem variableOf (h : Renamed names before after) (name : String) (kind : Kind) :
    after.variableOf (names.var name) kind = before.variableOf name kind := by
  obtain ⟨ledger, _, hresolve⟩ := VariableRegistry.resolve_rekey h.host before.vars name kind
  rw [Session.variableOf, h.vars, hresolve]
  rfl

theorem withVariable (h : Renamed names before after) (name : String) (kind : Kind) :
    Renamed names (before.withVariable name kind)
      (after.withVariable (names.var name) kind) := by
  obtain ⟨ledger, hhost, hresolve⟩ := VariableRegistry.resolve_rekey h.host before.vars name kind
  unfold Session.withVariable
  rw [h.vars, hresolve]
  exact ⟨hhost, h.blocks, rfl⟩

theorem withCommand (h : Renamed names before after) (block : BlockId) (command : Command) :
    Renamed names (before.withCommand block command)
      (after.withCommand block (names.command command)) := by
  refine ⟨?_, h.blocks, h.vars⟩
  simp only [Session.withCommand, Ledger.emit, Ledger.createCommand, Ledger.appendCommand, h.host,
    names.createCommand_flowchart, names.appendCommand_flowchart]

theorem resolve (h : Renamed names before after) (command : NamedCommand) :
    (names.named command).resolve after = names.command (command.resolve before) := by
  cases command with
  | menu text target =>
    exact congrArg (Command.menu (names.block text)) (h.blockOf target)
  | call target => exact congrArg Command.call (h.blockOf target)
  | set operator name value =>
    simp only [Renaming.named, NamedCommand.resolve, h.variableOf]
    rfl
  | ifThen check =>
    simp only [Renaming.named, Renaming.check, NamedCommand.resolve, h.variableOf]
    rfl
  | elseIf check =>
    simp only [Renaming.named, Renaming.check, NamedCommand.resolve, h.variableOf]
    rfl
  | _ => rfl

theorem declare (h : Renamed names before after) (command : NamedCommand) :
    Renamed names (command.declare before) ((names.named command).declare after) := by
  cases command with
  | menu text target => exact h.withBlock target
  | call target => exact h.withBlock target
  | set operator name value => exact h.withVariable name value.kind
  | ifThen check => exact h.withVariable check.name check.value.kind
  | elseIf check => exact h.withVariable check.name check.value.kind
  | _ => exact h

theorem action (h : Renamed names before after) (action : Action) :
    Renamed names (action.perform before) ((names.action action).perform after) := by
  cases action with
  | mention name => exact h.withBlock name
  | emit target command =>
    have hopen := h.withBlock target
    simp only [Renaming.action, Action.perform, h.blockOf, hopen.resolve]
    exact (hopen.declare command).withCommand _ _
  | _ => exact ⟨h.host, h.blocks, h.vars⟩

theorem perform (h : Renamed names before after) (actions : List Action) :
    Renamed names (before.perform actions) (after.perform (actions.map names.action)) := by
  induction actions generalizing before after with
  | nil => exact h
  | cons action rest ih => exact ih (h.action action)

end Renamed

theorem renamed_fresh (names : Renaming) (name : String) (options : Options) :
    Renamed names (fresh { name } options) (fresh { name } (names.options options)) where
  host := by simp [fresh, Renaming.flowchart]
  blocks := rfl
  vars := rfl

end Session

-- ---------------------------------------------------------------------------
-- Diagnostics
-- ---------------------------------------------------------------------------

theorem Renaming.reports_diagnostics (names : Renaming) (current : String)
    (actions : List Action) :
    List.Forall₂ names.Reports (Action.diagnostics current actions)
      (Action.diagnostics (names.block current) (actions.map names.action)) := by
  induction actions generalizing current with
  | nil => exact .nil
  | cons action rest ih =>
    cases action with
    | start name statements => exact ih name
    | skip error => exact .cons (.mk current error) (ih current)
    | _ => exact ih current

theorem Plan.prefix_andThen (first next : Plan) :
    first.actions <+: (first.andThen next).actions := by
  unfold andThen
  split
  · exact List.prefix_rfl
  · exact List.prefix_append _ _

namespace Script

theorem plan_opens (script : Script) (options : Options) :
    (script.plan options).actions = [] ∨ ∃ name statements,
      [.mention name, .start name statements] <+: (script.plan options).actions := by
  cases hfirst : script.nodes.find? options.entry with
  | none =>
    left
    simp [plan, Plan.script, hfirst, Plan.fail]
  | some first =>
    refine .inr ⟨first.name, first.statements.length, ?_⟩
    have hnode : [.mention first.name, .start first.name first.statements.length] <+:
        (Plan.node options.mismatch .none [] first).actions := by
      rw [Plan.node, if_neg List.not_mem_nil]
      exact List.prefix_append _ _
    rw [plan_eq hfirst]
    exact (hnode.trans (Plan.prefix_andThen _ _)).trans (Plan.prefix_andThen _ _)

theorem diagnostics_plan (script : Script) (options : Options) (current : String) :
    (script.compilation options).diagnostics.toList =
      Action.diagnostics current (script.plan options).actions := by
  rw [diagnostics_compilation]
  rcases script.plan_opens options with hnone | ⟨name, statements, rest, hactions⟩
  · rw [hnone]
    rfl
  · rw [← hactions]
    rfl

theorem renamed_compilation (names : Renaming) (script : Script) (options : Options) :
    Session.Renamed names (script.compilation options)
      ((names.script script).compilation (names.options options)) := by
  unfold compilation
  rw [names.plan_script]
  exact (Session.renamed_fresh names script.name options).perform _

/-- Compiling commutes with new names for the blocks and new names for the variables. -/
theorem compile_renamed (names : Renaming) (script : Script) (options : Options) :
    names.SameOutcome (script.compile options)
      ((names.script script).compile (names.options options)) := by
  rw [compile_eq, compile_eq, names.plan_script]
  cases hfailure : (script.plan options).failure with
  | some error =>
    simp only [Renaming.plan, hfailure, Option.map_some]
    exact .failed error
  | none =>
    simp only [Renaming.plan, hfailure, Option.map_none]
    refine .compiled ⟨rfl, ?_, ?_⟩
    · rw [(script.renamed_compilation names options).host, names.listing_flowchart]
    · rw [script.diagnostics_plan options "",
        (names.script script).diagnostics_plan (names.options options) (names.block ""),
        names.plan_script]
      exact Renaming.reports_iff (names.reports_diagnostics "" _)

/-- A menu, and a variable that is given values of two kinds. -/
def lodging : Script := .ofNodes "" [
  ⟨"Start", [
    .assign "EqualToOrAssign" "guest" (.string "Ada"),
    .choices [.mk "Inn" [.assign "EqualToOrAssign" "gold" (.bool true), .jump "Start"]],
    .assign "EqualToOrAssign" "gold" (.string "none")]⟩]

def lodgingListing : Listing where
  name := ""
  blocks := [
    ⟨"Start", [.set .assign ⟨0⟩ (.string "Ada"), .menu "Inn" ⟨1⟩]⟩,
    ⟨"Inn", [.set .assign ⟨1⟩ (.bool true), .call ⟨0⟩]⟩]
  vars := [⟨"guest", .string, .everywhere, .string ""⟩, ⟨"gold", .bool, .everywhere, .bool false⟩]

/-- Longer names for the blocks, and two variables that exchange theirs. -/
def exchange : Renaming where
  block name := name ++ " again"
  var := Equiv.swap "gold" "guest"
  block_injective _ _ h := (String.append_left_inj _).mp h
  var_injective := (Equiv.swap "gold" "guest").injective

def lodgingExchanged : Listing where
  name := ""
  blocks := [
    ⟨"Start again", [.set .assign ⟨0⟩ (.string "Ada"), .menu "Inn again" ⟨1⟩]⟩,
    ⟨"Inn again", [.set .assign ⟨1⟩ (.bool true), .call ⟨0⟩]⟩]
  vars := [⟨"gold", .string, .everywhere, .string ""⟩, ⟨"guest", .bool, .everywhere, .bool false⟩]

theorem compile_renamed_lodging :
    lodging.compile {} = .ok ⟨⟨0⟩, lodgingListing,
      [⟨"Start", "variable `gold` is bool, got a string value"⟩]⟩ ∧
    (exchange.script lodging).compile { entry := "Start again" } = .ok ⟨⟨0⟩, lodgingExchanged,
      [⟨"Start again", "variable `guest` is bool, got a string value"⟩]⟩ ∧
    exchange.Compiles
      ⟨⟨0⟩, lodgingListing, [⟨"Start", "variable `gold` is bool, got a string value"⟩]⟩
      ⟨⟨0⟩, lodgingExchanged,
        [⟨"Start again", "variable `guest` is bool, got a string value"⟩]⟩ := by
  have hbefore : lodging.compile {} = .ok ⟨⟨0⟩, lodgingListing,
      [⟨"Start", "variable `gold` is bool, got a string value"⟩]⟩ := by decide +kernel
  have hafter : (exchange.script lodging).compile (exchange.options {}) =
      .ok ⟨⟨0⟩, lodgingExchanged,
        [⟨"Start again", "variable `guest` is bool, got a string value"⟩]⟩ := by
    decide +kernel
  have hends := compile_renamed exchange lodging {}
  rw [hbefore, hafter] at hends
  cases hends with
  | compiled hcompiles => exact ⟨hbefore, hafter, hcompiles⟩

end Script

end Dialogue
