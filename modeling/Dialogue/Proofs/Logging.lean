import Dialogue.Proofs.Creation
import Dialogue.Proofs.Memoisation
import Dialogue.Proofs.Pruning

/-!
# What the log tells

The log of a session is kept apart from what it is about: the diagnostics, the calls to
the host and the registries. Whatever the host is, the warnings in it are the diagnostics,
and the blocks and variables that it says were created are those that were asked of the
host (`Session.Faithful`). When a script is compiled into a flowchart of its own, the log
names the nodes that the run gets to, and it ends with an account of the whole if and only
if the run succeeds (`Lowering.script_logged`).
-/

namespace Dialogue

-- ---------------------------------------------------------------------------
-- Events and calls
-- ---------------------------------------------------------------------------

namespace LogEvent

def createdBlock? : LogEvent → Option String
  | .createdBlock name => some name
  | _ => none

def createdVariable? : LogEvent → Option (String × Kind)
  | .createdVariable name kind => some (name, kind)
  | _ => none

def node? : LogEvent → Option (String × Nat)
  | .compilingNode name statements => some (name, statements)
  | _ => none

def isCreation : LogEvent → Bool
  | .createdBlock _ | .createdVariable _ _ => true
  | _ => false

def isAccount : LogEvent → Bool
  | .compiledScript _ _ _ _ => true
  | _ => false

end LogEvent

namespace HostCall

def createdBlock? : HostCall → Option String
  | .createBlock name _ => some name
  | _ => none

def createdVariable? : HostCall → Option (String × Kind)
  | .createVariable name kind _ => some (name, kind)
  | _ => none

end HostCall

namespace Session

variable {σ : Type}

def log (session : Session σ) : List LogEvent := session.ledger.log.toList

variable [Host σ]

/-- The log agrees with the diagnostics and with the calls to the host. -/
structure Faithful (session : Session σ) : Prop where
  warnings : session.log.filter (·.level = .warning) =
    session.diagnostics.toList.map fun found => .skippingStatement found.node found.message
  blocks : session.log.filterMap LogEvent.createdBlock? =
    session.calls.filterMap HostCall.createdBlock?
  vars : session.log.filterMap LogEvent.createdVariable? =
    session.calls.filterMap HostCall.createdVariable?

-- ---------------------------------------------------------------------------
-- Steps
-- ---------------------------------------------------------------------------

theorem log_withBlock_of_new {session : Session σ} (h : session.blocks.find? name = none) :
    (session.withBlock name).log = session.log ++ [.createdBlock name] := by
  simp [log, withBlock, BlockRegistry.resolve, h, Ledger.note, Ledger.createBlock]

theorem log_withVariable_of_new {session : Session σ} (h : session.vars.find? name = none)
    (kind : Kind) :
    (session.withVariable name kind).log = session.log ++ [.createdVariable name kind] := by
  simp [log, withVariable, VariableRegistry.resolve, h, Ledger.note, Ledger.setValue,
    Ledger.createVariable]

omit [Host σ] in
theorem log_withNote (session : Session σ) (event : LogEvent) :
    (session.withNote event).log = session.log ++ [event] := Array.toList_push

omit [Host σ] in
theorem log_withStart (session : Session σ) (name : String) (statements : Nat) :
    (session.withStart name statements).log =
      session.log ++ [.compilingNode name statements] := Array.toList_push

omit [Host σ] in
theorem log_withDiagnostic (session : Session σ) (error : CompileError) :
    (session.withDiagnostic error).log =
      session.log ++ [.skippingStatement session.current error.message] := Array.toList_push

namespace Faithful

variable {session after : Session σ}

omit [Host σ] in
theorem extend (h : session.Faithful) {events : List LogEvent} {calls : List HostCall}
    {added : List Diagnostic} (hlog : after.log = session.log ++ events)
    (hcalls : after.calls = session.calls ++ calls)
    (hdiagnostics : after.diagnostics.toList = session.diagnostics.toList ++ added)
    (hwarnings : events.filter (·.level = .warning) =
      added.map fun found => .skippingStatement found.node found.message)
    (hblocks : events.filterMap LogEvent.createdBlock? =
      calls.filterMap HostCall.createdBlock?)
    (hvars : events.filterMap LogEvent.createdVariable? =
      calls.filterMap HostCall.createdVariable?) : after.Faithful := by
  constructor
  · rw [hlog, hdiagnostics, List.filter_append, List.map_append, h.warnings, hwarnings]
  · rw [hlog, hcalls, List.filterMap_append, List.filterMap_append, h.blocks, hblocks]
  · rw [hlog, hcalls, List.filterMap_append, List.filterMap_append, h.vars, hvars]

theorem withBlock (h : session.Faithful) (name : String) : (session.withBlock name).Faithful := by
  cases hfind : session.blocks.find? name with
  | some block => rwa [withBlock_of_find? hfind]
  | none =>
    exact h.extend (log_withBlock_of_new hfind) (withBlock_of_new hfind).2.2
      (List.append_nil _).symm rfl rfl rfl

theorem withVariable (h : session.Faithful) (name : String) (kind : Kind) :
    (session.withVariable name kind).Faithful := by
  cases hfind : session.vars.find? name with
  | some found => rwa [withVariable_of_find? hfind]
  | none =>
    exact h.extend (log_withVariable_of_new hfind kind) (withVariable_of_new hfind kind).2.2
      (List.append_nil _).symm rfl rfl rfl

theorem declare (h : session.Faithful) (command : NamedCommand) :
    (command.declare session).Faithful := by
  obtain hsame | ⟨name, hblock⟩ | ⟨name, kind, hvar⟩ := command.declare_cases session
  · rwa [hsame]
  · rw [hblock]
    exact h.withBlock name
  · rw [hvar]
    exact h.withVariable name kind

theorem withCommand (h : session.Faithful) (block : BlockId) (command : Command) :
    (session.withCommand block command).Faithful :=
  h.extend (List.append_nil _).symm (calls_withCommand session block command)
    (List.append_nil _).symm rfl rfl rfl

theorem action (h : session.Faithful) (action : Action) : (action.perform session).Faithful := by
  cases action with
  | mention name => exact h.withBlock name
  | emit target command => exact ((h.withBlock target).declare command).withCommand _ _
  | start name statements =>
    exact h.extend (log_withStart session name statements) (List.append_nil _).symm
      (List.append_nil _).symm rfl rfl rfl
  | ignore raw =>
    exact h.extend (log_withNote session _) (List.append_nil _).symm (List.append_nil _).symm
      rfl rfl rfl
  | skip error =>
    exact h.extend (log_withDiagnostic session error) (List.append_nil _).symm
      Array.toList_push rfl rfl rfl
  | finish script =>
    exact h.extend (log_withNote session _) (List.append_nil _).symm (List.append_nil _).symm
      rfl rfl rfl

theorem perform (h : session.Faithful) (actions : List Action) :
    (session.perform actions).Faithful := by
  induction actions generalizing session with
  | nil => exact h
  | cons action rest ih => exact ih (h.action action)

end Faithful

omit [Host σ] in
theorem faithful_fresh (host : σ) (options : Options) : (fresh host options).Faithful :=
  ⟨rfl, rfl, rfl⟩

-- ---------------------------------------------------------------------------
-- Events that are no creations
-- ---------------------------------------------------------------------------

/-- Nothing but creations is noted in between. -/
def NotesCreations (session after : Session σ) : Prop :=
  ∃ made, (∀ event ∈ made, event.isCreation = true) ∧ after.log = session.log ++ made

theorem notesCreations_withBlock (session : Session σ) (name : String) :
    session.NotesCreations (session.withBlock name) := by
  cases hfind : session.blocks.find? name with
  | some block =>
    rw [withBlock_of_find? hfind]
    exact ⟨[], by simp, (List.append_nil _).symm⟩
  | none => exact ⟨[.createdBlock name], by simp [LogEvent.isCreation], log_withBlock_of_new hfind⟩

theorem notesCreations_withVariable (session : Session σ) (name : String) (kind : Kind) :
    session.NotesCreations (session.withVariable name kind) := by
  cases hfind : session.vars.find? name with
  | some found =>
    rw [withVariable_of_find? hfind]
    exact ⟨[], by simp, (List.append_nil _).symm⟩
  | none =>
    exact ⟨[.createdVariable name kind], by simp [LogEvent.isCreation],
      log_withVariable_of_new hfind kind⟩

theorem NotesCreations.declare {session opened : Session σ} (h : session.NotesCreations opened)
    (command : NamedCommand) : session.NotesCreations (command.declare opened) := by
  have trans {after : Session σ} (hnext : opened.NotesCreations after) :
      session.NotesCreations after := by
    obtain ⟨made, hmade, hlog⟩ := h
    obtain ⟨more, hmore, hnext⟩ := hnext
    refine ⟨made ++ more, List.forall_mem_append.mpr ⟨hmade, hmore⟩, ?_⟩
    rw [hnext, hlog, List.append_assoc]
  obtain hsame | ⟨name, hblock⟩ | ⟨name, kind, hvar⟩ := command.declare_cases opened
  · rwa [hsame]
  · rw [hblock]
    exact trans (notesCreations_withBlock opened name)
  · rw [hvar]
    exact trans (notesCreations_withVariable opened name kind)

end Session

namespace Action

variable {σ : Type}

def note? (session : Session σ) : Action → Option LogEvent
  | .start name statements => some (.compilingNode name statements)
  | .ignore raw => some (.ignoringDirective raw)
  | .skip error => some (.skippingStatement session.current error.message)
  | .finish script => some (.compiledScript script session.blocks.size session.vars.size
      session.diagnostics.size)
  | _ => none

def start? : Action → Option (String × Nat)
  | .start name statements => some (name, statements)
  | _ => none

theorem exists_log_perform [Host σ] (session : Session σ) (action : Action) :
    ∃ made, (∀ event ∈ made, event.isCreation = true) ∧
      (action.perform session).log = session.log ++ (made ++ (action.note? session).toList) := by
  have hcreations {after : Session σ} (h : session.NotesCreations after) :
      ∃ made, (∀ event ∈ made, event.isCreation = true) ∧
        after.log = session.log ++ (made ++ []) := by
    obtain ⟨made, hmade, hlog⟩ := h
    exact ⟨made, hmade, by rw [List.append_nil, hlog]⟩
  cases action with
  | mention name => exact hcreations (session.notesCreations_withBlock name)
  | emit target command =>
    exact hcreations ((session.notesCreations_withBlock target).declare command)
  | start name statements => exact ⟨[], nofun, session.log_withStart name statements⟩
  | ignore raw => exact ⟨[], nofun, session.log_withNote _⟩
  | skip error => exact ⟨[], nofun, session.log_withDiagnostic error⟩
  | finish script => exact ⟨[], nofun, session.log_withNote _⟩

end Action

namespace Session

variable {σ : Type} [Host σ]

theorem nodes_log_perform (session : Session σ) (actions : List Action) :
    (session.perform actions).log.filterMap LogEvent.node? =
      session.log.filterMap LogEvent.node? ++ actions.filterMap Action.start? := by
  induction actions generalizing session with
  | nil => exact (List.append_nil _).symm
  | cons action rest ih =>
    obtain ⟨made, hmade, hlog⟩ := action.exists_log_perform session
    have hcreations : made.filterMap LogEvent.node? = [] := by
      rw [List.filterMap_eq_nil_iff]
      intro event hevent
      have hcreation := hmade event hevent
      cases event with
      | createdBlock name => rfl
      | createdVariable name kind => rfl
      | _ => cases hcreation
    have hstart : (action.note? session).toList.filterMap LogEvent.node? =
        [action].filterMap Action.start? := by
      cases action <;> rfl
    rw [perform_cons, ih, hlog, List.filterMap_append, List.filterMap_append, hcreations, hstart,
      List.nil_append, List.append_assoc, ← List.filterMap_append, List.singleton_append]

/-- Only the end of a script is noted as its end. -/
theorem not_isAccount_perform {session : Session σ} {actions : List Action}
    (h : ∀ event ∈ session.log, event.isAccount = false)
    (hactions : ∀ script, .finish script ∉ actions) :
    ∀ event ∈ (session.perform actions).log, event.isAccount = false := by
  induction actions generalizing session with
  | nil => exact h
  | cons action rest ih =>
    refine ih ?_ fun script hmem => hactions script (List.mem_cons_of_mem _ hmem)
    obtain ⟨made, hmade, hlog⟩ := action.exists_log_perform session
    rw [hlog]
    refine List.forall_mem_append.mpr ⟨h, List.forall_mem_append.mpr ⟨?_, ?_⟩⟩
    · intro event hevent
      have hcreation := hmade event hevent
      cases event with
      | compiledScript name blocks vars diagnostics => cases hcreation
      | _ => rfl
    · intro event hevent
      cases action with
      | finish script => exact absurd List.mem_cons_self (hactions script)
      | mention name => cases hevent
      | emit target command => cases hevent
      | _ =>
        cases List.mem_singleton.mp hevent
        rfl

end Session

-- ---------------------------------------------------------------------------
-- Nodes that a run gets to
-- ---------------------------------------------------------------------------

namespace Plan

theorem starts_of_inner {actions : List Action} (h : ∀ action ∈ actions, action.Inner) :
    actions.filterMap Action.start? = [] := by
  rw [List.filterMap_eq_nil_iff]
  intro action hmem
  have hinner := h action hmem
  cases action with
  | start name statements => exact hinner.elim
  | _ => rfl

variable {policy : MismatchPolicy} {kinds : Kinds} {started : List String}

theorem starts_node (h : source.name ∉ started) :
    (node policy kinds started source).actions.filterMap Action.start? =
      [(source.name, source.statements.length)] := by
  rw [node, if_neg h, actions_andThen rfl, List.filterMap_append,
    starts_of_inner (inner_statements source.statements)]
  rfl

theorem finish_notMem_node (script : String) (source : Node) :
    .finish script ∉ (node policy kinds started source).actions := by
  intro hmem
  unfold node at hmem
  split at hmem
  · simp at hmem
  · rcases mem_andThen hmem with hhead | hbody
    · simp at hhead
    · exact inner_statements source.statements _ hbody

theorem finish_notMem_nodes (script : String) (sources : List Node) :
    .finish script ∉ (nodes policy kinds started sources).actions := by
  induction sources generalizing kinds started with
  | nil => exact List.not_mem_nil
  | cons source rest ih =>
    intro hmem
    rcases mem_andThen hmem with hnode | hrest
    · exact finish_notMem_node script source hnode
    · exact ih hrest

end Plan

namespace Session

variable {σ : Type} [Host σ]

/-- The nodes that a session gets to when it compiles nodes in turn: all up to the first
that fails. -/
def reached (session : Session σ) : List Node → List Node
  | [] => []
  | source :: rest =>
    source :: match Lowering.node source session with
      | .ok _ after => after.reached rest
      | .error _ _ => []

theorem reached_cons_of_failure_eq_none {session : Session σ}
    (h : (Plan.node session.options.mismatch session.kinds session.started source).failure =
      none) (rest : List Node) :
    session.reached (source :: rest) = source :: (session.visit source).reached rest := by
  simp [reached, node_of_failure_eq_none h]

theorem reached_cons_of_failure_eq_some {session : Session σ}
    (h : (Plan.node session.options.mismatch session.kinds session.started source).failure =
      some error) (rest : List Node) : session.reached (source :: rest) = [source] := by
  simp [reached, node_eq_error h]

theorem reached_prefix (session : Session σ) (sources : List Node) :
    session.reached sources <+: sources := by
  induction sources generalizing session with
  | nil => exact List.prefix_rfl
  | cons source rest ih =>
    unfold reached
    split
    · exact List.prefix_cons_iff.mpr (.inr ⟨_, rfl, ih _⟩)
    · exact List.prefix_cons_iff.mpr (.inr ⟨_, rfl, List.nil_prefix⟩)

theorem reached_of_failure_eq_none {session : Session σ} {sources : List Node}
    (h : (Plan.nodes session.options.mismatch session.kinds session.started sources).failure =
      none) : session.reached sources = sources := by
  induction sources generalizing session with
  | nil => rfl
  | cons source rest ih =>
    obtain ⟨hnode, hrest⟩ := Plan.failure_andThen_eq_none.mp h
    rw [reached_cons_of_failure_eq_none hnode, ih]
    rw [visit_eq, options_perform, kinds_perform, started_perform]
    exact hrest

theorem starts_nodes {session : Session σ} {sources : List Node}
    (hnodup : (sources.map (·.name)).Nodup)
    (hnew : ∀ source ∈ sources, source.name ∉ session.started) :
    (Plan.nodes session.options.mismatch session.kinds session.started
        sources).actions.filterMap Action.start? =
      (session.reached sources).map fun source => (source.name, source.statements.length) := by
  induction sources generalizing session with
  | nil => rfl
  | cons source rest ih =>
    obtain ⟨hnotMem, hrest⟩ := List.nodup_cons.mp hnodup
    have hstart : (Plan.node session.options.mismatch session.kinds session.started
        source).actions.filterMap Action.start? = [(source.name, source.statements.length)] :=
      Plan.starts_node (hnew source List.mem_cons_self)
    simp only [Plan.nodes]
    cases hfailure : (Plan.node session.options.mismatch session.kinds session.started
        source).failure with
    | some error =>
      rw [reached_cons_of_failure_eq_some hfailure, Plan.andThen, hfailure, hstart]
      rfl
    | none =>
      have hlater : ∀ other ∈ rest, other.name ∉ (session.visit source).started := by
        intro other hother
        rw [visit_eq, started_perform, Plan.mem_started_node, not_or]
        refine ⟨hnew other (List.mem_cons_of_mem _ hother), ?_⟩
        intro hsame
        exact hnotMem (List.mem_map.mpr ⟨other, hother, hsame⟩)
      have htail := ih hrest hlater
      rw [visit_eq, options_perform, kinds_perform, started_perform, ← visit_eq] at htail
      rw [reached_cons_of_failure_eq_none hfailure, Plan.actions_andThen hfailure,
        List.filterMap_append, hstart, htail]
      rfl

def reachedIn (session : Session σ) (source : Script) : List Node :=
  match source.nodes.find? session.options.entry with
  | some first => session.reached (first :: source.others session.options.entry)
  | none => []

theorem reachedIn_of_find? {session : Session σ} {source : Script}
    (h : source.nodes.find? session.options.entry = some first) :
    session.reachedIn source =
      session.reached (first :: source.others session.options.entry) := by
  simp [reachedIn, h]

theorem reachedIn_of_find?_eq_none {session : Session σ} {source : Script}
    (h : source.nodes.find? session.options.entry = none) : session.reachedIn source = [] := by
  simp [reachedIn, h]

/-- What the log tells of a session that has compiled a script, whether to its end or not. -/
structure Tells (start : Session Flowchart) (source : Script) (session : Session Flowchart) :
    Prop extends session.Faithful where
  /-- There is one event for each node that the run got to, in order. -/
  nodes : session.log.filterMap LogEvent.node? =
    (start.reachedIn source).map fun node => (node.name, node.statements.length)
  /-- The entry node comes first, and then the others as they stand in the script. -/
  order : start.reachedIn source <+: source.order start.options.entry

theorem Indexed.size_blocks {session : Session Flowchart} (h : session.Indexed) :
    session.blocks.size = session.ledger.host.blocks.size := by
  simpa [Table.keys, Table.size, Flowchart.blockNames] using congrArg List.length h.keys_eq

theorem Indexed.size_vars {session : Session Flowchart} (h : session.Indexed) :
    session.vars.size = session.ledger.host.vars.size := by
  simpa [declared, Table.size, Flowchart.declarations] using congrArg List.length h.declared_eq

theorem log_finish {session : Session Flowchart} (h : session.Indexed) (name : String) :
    (Action.perform session (.finish name)).log = session.log ++
      [.compiledScript name session.ledger.host.blocks.size session.ledger.host.vars.size
        session.diagnostics.size] := by
  rw [← h.size_blocks, ← h.size_vars]
  exact session.log_withNote _

theorem Tells.finish {start session : Session Flowchart} (h : start.Tells source session)
    (name : String) : start.Tells source (Action.perform session (.finish name)) where
  toFaithful := h.toFaithful.action _
  nodes := by
    have hlog : (Action.perform session (.finish name)).log.filterMap LogEvent.node? =
        session.log.filterMap LogEvent.node? ++ [] := session.nodes_log_perform [.finish name]
    rw [hlog, List.append_nil, h.nodes]
  order := h.order

theorem tells_nodes {source : Script} {options : Options} (hkeyed : source.Keyed)
    (hfirst : source.nodes.find? options.entry = some first) (name : String) :
    (fresh ({ name } : Flowchart) options).Tells source
      ((fresh ({ name } : Flowchart) options).perform (Plan.nodes options.mismatch .none []
        (first :: source.others options.entry)).actions) := by
  have hreached : (fresh ({ name } : Flowchart) options).reachedIn source =
      (fresh ({ name } : Flowchart) options).reached (first :: source.others options.entry) :=
    reachedIn_of_find? hfirst
  have hnew : ∀ node ∈ first :: source.others options.entry,
      node.name ∉ (fresh ({ name } : Flowchart) options).started :=
    fun _ _ => List.not_mem_nil
  refine ⟨(faithful_fresh _ options).perform _, ?_, ?_⟩
  · rw [nodes_log_perform, hreached]
    exact starts_nodes (hkeyed.nodup_order hfirst) hnew
  · rw [hreached]
    exact Script.order_eq hfirst ▸ reached_prefix _ _

end Session

-- ---------------------------------------------------------------------------
-- Scripts
-- ---------------------------------------------------------------------------

namespace Lowering

/-- What the log tells of the run of a script. -/
inductive Logged (start : Session Flowchart) (source : Script) :
    EStateM.Result CompileError (Session Flowchart) BlockId → Prop
  /-- A run that succeeds gets to all nodes. Its last event, and no other, counts what has
  been made. -/
  | succeeded : start.Tells source session →
    start.reachedIn source = source.order start.options.entry →
    source.nodes.values ⊆ start.reachedIn source →
    (∀ event ∈ earlier, event.isAccount = false) →
    session.log = earlier ++ [.compiledScript source.name session.ledger.host.blocks.size
      session.ledger.host.vars.size session.diagnostics.size] →
    Logged start source (.ok block session)
  | failed : start.Tells source session → (∀ event ∈ session.log, event.isAccount = false) →
    Logged start source (.error error session)

variable {source : Script} {options : Options}

theorem logged_of_find?_eq_none (h : source.nodes.find? options.entry = none) (name : String) :
    Logged (.fresh { name } options) source
      (script source (.fresh ({ name } : Flowchart) options)) := by
  let start := Session.fresh ({ name } : Flowchart) options
  have hreached : start.reachedIn source = [] := Session.reachedIn_of_find?_eq_none h
  rw [script_eq_error start source h]
  refine .failed ⟨Session.faithful_fresh _ _, ?_, ?_⟩ nofun
  · rw [hreached]
    rfl
  · rw [hreached]
    exact List.nil_prefix

/-- Compiling a script into a flowchart of its own is logged as it happens. -/
theorem script_logged (hkeyed : source.Keyed) (name : String) (options : Options) :
    Logged (.fresh { name } options) source
      (script source (.fresh ({ name } : Flowchart) options)) := by
  cases hfirst : source.nodes.find? options.entry with
  | none => exact logged_of_find?_eq_none hfirst name
  | some first =>
    let start := Session.fresh ({ name } : Flowchart) options
    let plan := Plan.nodes start.options.mismatch start.kinds start.started
      (first :: source.others start.options.entry)
    have htells : start.Tells source (start.perform plan.actions) :=
      Session.tells_nodes hkeyed hfirst name
    have haccount : ∀ event ∈ (start.perform plan.actions).log, event.isAccount = false :=
      Session.not_isAccount_perform nofun fun script => Plan.finish_notMem_nodes script _
    have hplan : Plan.script start.options start.kinds start.started source =
        plan.andThen { actions := [.finish source.name] } := Script.plan_eq hfirst
    rw [script_eq_outcome start source hfirst, hplan]
    cases hfailure : plan.failure with
    | some error =>
      have hscript : plan.andThen { actions := [.finish source.name] } = plan := by
        simp [Plan.andThen, hfailure]
      rw [hscript, hfailure]
      exact .failed htells haccount
    | none =>
      have hscript : plan.andThen { actions := [.finish source.name] } =
          { actions := plan.actions ++ [.finish source.name] } := by
        simp [Plan.andThen, hfailure]
      have hall : start.reachedIn source = first :: source.others options.entry :=
        (Session.reachedIn_of_find? hfirst).trans (Session.reached_of_failure_eq_none hfailure)
      rw [hscript, Session.perform_append]
      refine .succeeded (htells.finish source.name) (hall.trans (Script.order_eq hfirst).symm) ?_
        haccount (Session.log_finish ((Session.indexed_fresh name options).perform _) source.name)
      intro node hnode
      obtain ⟨⟨key, _⟩, hmem, rfl⟩ := List.mem_map.mp hnode
      rw [hall]
      exact hkeyed.mem_order hfirst hmem

def watch (raw : String) : Script := .ofNodes "watch" [
  ⟨"Inn", [.directive raw, .line "Late."]⟩,
  ⟨"Start", [.assign "EqualToOrAssign" "gold" (.number .one),
    .assign "Doubling" "gold" (.number .one), .jump "Inn"]⟩,
  ⟨"Quay", []⟩]

def watchLog (raw : String) : List LogEvent :=
  ((Session.fresh ({ name := "watch" } : Flowchart) {}).after (script (watch raw))).log

theorem script_logged_watch :
    (watch "wait long").Keyed ∧
      Logged (.fresh { name := "watch" } {}) (watch "wait long")
        (script (watch "wait long") (.fresh ({ name := "watch" } : Flowchart) {})) ∧
      watchLog "wait long" =
        [.createdBlock "Start", .compilingNode "Start" 3, .createdVariable "gold" .number,
          .skippingStatement "Start" "unknown operator: Doubling", .createdBlock "Inn",
          .compilingNode "Inn" 2] ∧
      watchLog "wait 3" = watchLog "wait long" ++
        [.createdBlock "Quay", .compilingNode "Quay" 0, .compiledScript "watch" 3 1 1] := by
  have hkeyed : (watch "wait long").Keyed := Script.keyed_ofNodes _ _
  exact ⟨hkeyed, script_logged hkeyed "watch" {}, by decide +kernel, by decide +kernel⟩

end Lowering

end Dialogue
