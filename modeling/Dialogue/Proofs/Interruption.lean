import Dialogue.Proofs.Creation
import Dialogue.Proofs.Fatality
import Dialogue.Proofs.Protocol
import Dialogue.Proofs.Pruning

/-!
# A malformed directive ends a compilation on the spot

`ScriptHole` is a script with one directive taken out of it, however deep it stood.
A compilation that fails for a malformed directive has such a hole
(`Lowering.script_stopped`): with another directive put into it, the compilation
does the same up to that place. One that comes to nothing there is passed over, and
all that was done before stands at the front of what is done then. One that is
understood is obeyed there, and its command is the next thing that the host is asked
for; so nothing more has been asked of the host once the malformed one was met.
-/

namespace Dialogue

-- ---------------------------------------------------------------------------
-- Sources with a directive taken out
-- ---------------------------------------------------------------------------

mutual

inductive StatementHole
  | here
  | choices (inside : ChoicesHole)
  | branch (inside : ClausesHole)

inductive StatementsHole
  | mk (before : List Statement) (inside : StatementHole) (after : List Statement)

inductive ChoicesHole
  | mk (before : List Choice) (label : String) (body : StatementsHole) (after : List Choice)

inductive ClausesHole
  | mk (before : List Clause) (condition : Option Comparison) (body : StatementsHole)
    (after : List Clause)

end

mutual

def StatementHole.fill (raw : String) : StatementHole → Statement
  | .here => .directive raw
  | .choices inside => .choices (inside.fill raw)
  | .branch inside => .branch (inside.fill raw)

def StatementsHole.fill (raw : String) : StatementsHole → List Statement
  | .mk before inside after => before ++ inside.fill raw :: after

def ChoicesHole.fill (raw : String) : ChoicesHole → List Choice
  | .mk before label body after => before ++ .mk label (body.fill raw) :: after

def ClausesHole.fill (raw : String) : ClausesHole → List Clause
  | .mk before condition body after => before ++ .mk condition (body.fill raw) :: after

end

inductive PhraseHole
  | statement (inside : StatementHole)
  | statements (inside : StatementsHole)
  | choices (inside : ChoicesHole)
  | clauses (first : Bool) (inside : ClausesHole) (found : List (Option Check))

def PhraseHole.fill (raw : String) : PhraseHole → Phrase
  | .statement inside => .statement (inside.fill raw)
  | .statements inside => .statements (inside.fill raw)
  | .choices inside => .choices (inside.fill raw)
  | .clauses first inside found => .clauses first (inside.fill raw) found

namespace PhraseHole

variable {hole : PhraseHole} {raw : String}

theorem eq_of_statement {source : Statement} (h : .statement source = hole.fill raw) :
    ∃ inside, hole = .statement inside ∧ source = inside.fill raw := by
  cases hole <;> cases h
  exact ⟨_, rfl, rfl⟩

theorem eq_of_statements {source : List Statement} (h : .statements source = hole.fill raw) :
    ∃ inside, hole = .statements inside ∧ source = inside.fill raw := by
  cases hole <;> cases h
  exact ⟨_, rfl, rfl⟩

theorem eq_of_choices {source : List Choice} (h : .choices source = hole.fill raw) :
    ∃ inside, hole = .choices inside ∧ source = inside.fill raw := by
  cases hole <;> cases h
  exact ⟨_, rfl, rfl⟩

theorem eq_of_clauses {source : List Clause} (h : .clauses first source found = hole.fill raw) :
    ∃ inside, hole = .clauses first inside found ∧ source = inside.fill raw := by
  cases hole <;> cases h
  exact ⟨_, rfl, rfl⟩

end PhraseHole

/-- A script with a directive taken out of one of its nodes. -/
structure ScriptHole where
  name : String
  before : List (String × Node)
  key : String
  node : String
  body : StatementsHole
  after : List (String × Node)

def ScriptHole.fill (raw : String) (hole : ScriptHole) : Script where
  name := hole.name
  nodes := ⟨hole.before ++ (hole.key, ⟨hole.node, hole.body.fill raw⟩) :: hole.after⟩

theorem StatementsHole.length_fill (hole : StatementsHole) (raw other : String) :
    (hole.fill raw).length = (hole.fill other).length := by
  obtain ⟨before, inside, after⟩ := hole
  simp [fill]

theorem ClausesHole.conditions_fill (hole : ClausesHole) (raw other : String) :
    (hole.fill raw).map Clause.condition = (hole.fill other).map Clause.condition := by
  obtain ⟨before, condition, body, after⟩ := hole
  simp [fill, Clause.condition]

-- ---------------------------------------------------------------------------
-- Plans that break off
-- ---------------------------------------------------------------------------

namespace Plan

/-- `plan` is a plan for each directive in some place, once there are blocks of the names
`known`. With `raw` there it breaks off, and with any directive that is not malformed it
gets as far and then does what that one says, in a block that is there by then. -/
structure Breaks (error : CompileError) (raw : String) (known : List String)
    (plan : String → Plan) : Prop where
  rejected : Directive.parse raw = .error error
  failure : (plan raw).failure = some error
  goesOn : ∃ target ∈ known ++ (plan raw).actions.flatMap Action.blocks,
    ∀ other found, Directive.parse other = .ok found →
      ∃ later, (plan other).actions =
        (plan raw).actions ++ (directive target other).actions ++ later

namespace Breaks

variable {plan same : String → Plan} {known : List String}

theorem isFatal (h : Breaks error raw known plan) : error.isFatal = true := by
  obtain ⟨fault, rfl⟩ := Directive.parse_eq_error h.rejected
  rfl

theorem congr (h : Breaks error raw known plan) (heq : ∀ other, same other = plan other) :
    Breaks error raw known same := by
  obtain rfl : same = plan := funext heq
  exact h

theorem directive (target : String) (h : Directive.parse raw = .error error) :
    Breaks error raw [target] (directive target) where
  rejected := h
  failure := by simp [Plan.directive, h, fail]
  goesOn := by
    refine ⟨target, by simp, fun other found _ => ⟨[], ?_⟩⟩
    simp [Plan.directive, h, fail]

theorem andThen (h : Breaks error raw known plan) (next : String → Plan) :
    Breaks error raw known fun other => (plan other).andThen (next other) := by
  have hcut : (plan raw).andThen (next raw) = plan raw := by simp [Plan.andThen, h.failure]
  obtain ⟨target, htarget, hgoesOn⟩ := h.goesOn
  refine ⟨h.rejected, by rw [hcut, h.failure], target, by rwa [hcut], ?_⟩
  intro other found hfound
  obtain ⟨later, hlater⟩ := hgoesOn other found hfound
  rw [hcut]
  unfold Plan.andThen
  split
  · exact ⟨later, hlater⟩
  · refine ⟨later ++ (next other).actions, ?_⟩
    rw [hlater, List.append_assoc]

theorem after {first : Plan} {inner : List String} (hfirst : first.failure = none)
    (hknown : inner ⊆ known ++ first.actions.flatMap Action.blocks)
    (h : Breaks error raw inner plan) :
    Breaks error raw known fun other => first.andThen (plan other) := by
  obtain ⟨target, htarget, hgoesOn⟩ := h.goesOn
  refine ⟨h.rejected, by simp [Plan.andThen, hfirst, h.failure], target, ?_, ?_⟩
  · rw [actions_andThen hfirst, List.flatMap_append, ← List.append_assoc]
    rcases List.mem_append.mp htarget with hinner | hmade
    · exact List.mem_append_left _ (hknown hinner)
    · exact List.mem_append_right _ hmade
  · intro other found hfound
    obtain ⟨later, hlater⟩ := hgoesOn other found hfound
    refine ⟨later, ?_⟩
    simp [actions_andThen hfirst, hlater]

theorem recovering (h : Breaks error raw known plan) :
    Breaks error raw known fun other => (plan other).recovering := by
  have hcut : (plan raw).recovering = plan raw := by simp [Plan.recovering, h.failure, h.isFatal]
  obtain ⟨target, htarget, hgoesOn⟩ := h.goesOn
  refine ⟨h.rejected, by rw [hcut, h.failure], target, by rwa [hcut], ?_⟩
  intro other found hfound
  obtain ⟨later, hlater⟩ := hgoesOn other found hfound
  rw [hcut]
  unfold Plan.recovering
  split
  · rename_i skipped _
    split
    · exact ⟨later, hlater⟩
    · refine ⟨later ++ [.skip skipped], ?_⟩
      rw [hlater, List.append_assoc]
  · exact ⟨later, hlater⟩

end Breaks

-- ---------------------------------------------------------------------------
-- Where a plan breaks off
-- ---------------------------------------------------------------------------

end Plan

open Dialogue.Plan (Breaks)

/-- A phrase that ends the compilation holds the directive that does, at some depth. Each
level around it is left the same way: nothing that would follow is come to, and a fatal
error is not recovered from. -/
theorem Planned.exists_hole (h : Planned policy target kinds phrase plan)
    (hfailure : plan.failure = some error) (hfatal : error.isFatal = true) :
    ∃ (hole : PhraseHole) (raw : String), phrase = hole.fill raw ∧
      Breaks error raw [target] fun other => (hole.fill other).plan policy target kinds := by
  induction h with
  | emit _ | ignore _ | unsupported | nil | noChoice | noClause => cases hfailure
  | rejected hrejected =>
    cases hfailure
    simp [hrejected.isFatal] at hfatal
  | @malformed raw fault target kinds hparse =>
    cases hfailure
    refine ⟨.statement .here, raw, by simp only [PhraseHole.fill, StatementHole.fill], ?_⟩
    refine (Breaks.directive target hparse).congr fun other => ?_
    simp only [PhraseHole.fill, StatementHole.fill, Phrase.plan, Plan.statement]
  | menu _ ih =>
    obtain ⟨hole, raw, heq, hbreaks⟩ := ih hfailure
    obtain ⟨inside, rfl, rfl⟩ := PhraseHole.eq_of_choices heq
    refine ⟨.statement (.choices inside), raw, ?_, hbreaks.congr fun other => ?_⟩
    · simp only [PhraseHole.fill, StatementHole.fill]
    · simp only [PhraseHole.fill, StatementHole.fill, Phrase.plan, Plan.statement]
  | @branch kinds branches found target plan hfound _ ih =>
    have hclauses : plan.failure = some error := by
      rcases Plan.failure_andThen_eq_some hfailure with hclauses | hend
      · exact hclauses
      · cases hend
    obtain ⟨hole, raw, heq, hbreaks⟩ := ih hclauses
    obtain ⟨inside, rfl, rfl⟩ := PhraseHole.eq_of_clauses heq
    refine ⟨.statement (.branch inside), raw, ?_, ?_⟩
    · simp only [PhraseHole.fill, StatementHole.fill]
    · refine (hbreaks.andThen fun _ => Plan.emit target .endIf).congr fun other => ?_
      simp only [PhraseHole.fill, StatementHole.fill, Phrase.plan, Plan.statement,
        Kinds.checks_congr (inside.conditions_fill other raw) kinds, hfound]
  | @cons target kinds first plan rest next hplanned _ hfirst hrest =>
    have hplan : Plan.statement policy target kinds first = plan := hplanned.plan_eq
    rcases Plan.failure_andThen_cases hfailure with hfailed | ⟨hthrough, hlater⟩
    · obtain ⟨hole, raw, heq, hbreaks⟩ := hfirst (Plan.failure_of_recovering hfailed)
      obtain ⟨inside, rfl, rfl⟩ := PhraseHole.eq_of_statement heq
      refine ⟨.statements (.mk [] inside rest), raw, ?_, ?_⟩
      · simp only [PhraseHole.fill, StatementsHole.fill, List.nil_append]
      · refine (hbreaks.recovering.andThen fun other => Plan.statements policy target (kinds.after
          (Plan.statement policy target kinds (inside.fill other)).recovering.actions)
            rest).congr fun other => ?_
        simp only [PhraseHole.fill, StatementsHole.fill, List.nil_append, Phrase.plan,
          Plan.statements]
    · obtain ⟨hole, raw, heq, hbreaks⟩ := hrest hlater
      obtain ⟨⟨before, inside, after⟩, rfl, rfl⟩ := PhraseHole.eq_of_statements heq
      refine ⟨.statements (.mk (first :: before) inside after), raw, ?_, ?_⟩
      · simp only [PhraseHole.fill, StatementsHole.fill, List.cons_append]
      · refine (hbreaks.after hthrough (List.subset_append_left _ _)).congr fun other => ?_
        simp only [PhraseHole.fill, StatementsHole.fill, List.cons_append, Phrase.plan,
          Plan.statements, hplan]
  | @choice label kinds body plan target rest next hplanned _ hbody hrest =>
    have hplan : Plan.statements policy label kinds body = plan := hplanned.plan_eq
    rcases Plan.failure_andThen_cases hfailure with hfailed | ⟨hthrough, hlater⟩
    · obtain ⟨hole, raw, heq, hbreaks⟩ := hbody hfailed
      obtain ⟨inside, rfl, rfl⟩ := PhraseHole.eq_of_statements heq
      refine ⟨.choices (.mk [] label inside rest), raw, ?_, ?_⟩
      · simp only [PhraseHole.fill, ChoicesHole.fill, List.nil_append]
      · have hlabel : [label] ⊆ [target] ++
            (Plan.emit target (.menu label label)).actions.flatMap Action.blocks := by
          simp [Plan.emit, Action.blocks, NamedCommand.block?]
        refine ((hbreaks.after rfl hlabel).andThen fun other => Plan.choices policy target
          (kinds.after ((Plan.emit target (.menu label label)).andThen
            (Plan.statements policy label kinds (inside.fill other))).actions) rest).congr ?_
        intro other
        simp only [PhraseHole.fill, ChoicesHole.fill, List.nil_append, Phrase.plan, Plan.choices]
    · obtain ⟨hole, raw, heq, hbreaks⟩ := hrest hlater
      obtain ⟨⟨before, other, inside, after⟩, rfl, rfl⟩ := PhraseHole.eq_of_choices heq
      refine ⟨.choices (.mk (.mk label body :: before) other inside after), raw, ?_, ?_⟩
      · simp only [PhraseHole.fill, ChoicesHole.fill, List.cons_append]
      · refine (hbreaks.after hthrough (List.subset_append_left _ _)).congr fun other => ?_
        simp only [PhraseHole.fill, ChoicesHole.fill, List.cons_append, Phrase.plan,
          Plan.choices, hplan]
        rfl
  | @clause condition check target body plan rest more next kinds first checked _ _ hplanned _
      hbody hrest =>
    have hplan : Plan.statements policy target (kinds.afterCommand (.marker first check)) body =
      plan := hplanned.plan_eq
    have hmarker : (Plan.emit target (.marker first check)).failure = none := rfl
    rcases Plan.failure_andThen_cases hfailure with hfailed | ⟨hthrough, hlater⟩
    · obtain ⟨hole, raw, heq, hbreaks⟩ := hbody hfailed
      obtain ⟨inside, rfl, rfl⟩ := PhraseHole.eq_of_statements heq
      refine ⟨.clauses first (.mk [] condition inside rest) (check :: more), raw, ?_, ?_⟩
      · simp only [PhraseHole.fill, ClausesHole.fill, List.nil_append]
      · refine ((hbreaks.after hmarker (List.subset_append_left _ _)).andThen fun other =>
          Plan.clauses policy target false (kinds.after
            ((Plan.emit target (.marker first check)).andThen (Plan.statements policy target
              (kinds.afterCommand (.marker first check)) (inside.fill other))).actions)
            rest more).congr ?_
        intro other
        simp only [PhraseHole.fill, ClausesHole.fill, List.nil_append, Phrase.plan, Plan.clauses]
    · obtain ⟨hole, raw, heq, hbreaks⟩ := hrest hlater
      obtain ⟨⟨before, later, inside, after⟩, rfl, rfl⟩ := PhraseHole.eq_of_clauses heq
      refine ⟨.clauses first (.mk (.mk condition body :: before) later inside after)
        (check :: more), raw, ?_, ?_⟩
      · simp only [PhraseHole.fill, ClausesHole.fill, List.cons_append]
      · refine (hbreaks.after hthrough (List.subset_append_left _ _)).congr fun other => ?_
        simp only [PhraseHole.fill, ClausesHole.fill, List.cons_append, Phrase.plan,
          Plan.clauses, hplan]
        rfl

namespace Plan

variable {policy : MismatchPolicy}

theorem exists_hole_statements {target : String} {kinds : Kinds} {source : List Statement}
    (h : (statements policy target kinds source).failure = some error) :
    ∃ (hole : StatementsHole) (raw : String), source = hole.fill raw ∧
      Breaks error raw [target] fun other => statements policy target kinds (hole.fill other) := by
  obtain ⟨hole, raw, heq, hbreaks⟩ :=
    (planned_statements source).exists_hole h (isFatal_of_statements h)
  obtain ⟨inside, rfl, rfl⟩ := PhraseHole.eq_of_statements heq
  exact ⟨inside, raw, rfl, hbreaks⟩

theorem exists_hole_nodes {kinds : Kinds} {started : List String} {order : List Node}
    (h : (nodes policy kinds started order).failure = some error) :
    ∃ (before : List Node) (name : String) (hole : StatementsHole) (after : List Node)
      (raw : String), order = before ++ ⟨name, hole.fill raw⟩ :: after ∧
        Breaks error raw [] fun other =>
          nodes policy kinds started (before ++ ⟨name, hole.fill other⟩ :: after) := by
  induction order generalizing kinds started with
  | nil => simp [nodes] at h
  | cons source rest ih =>
    simp only [nodes] at h
    rcases failure_andThen_cases h with hnode | ⟨hnode, hrest⟩
    · obtain ⟨name, body⟩ := source
      unfold node at hnode
      split at hnode
      · simp at hnode
      · rename_i hnew
        have hbody := (failure_andThen_eq_some hnode).resolve_left (by simp)
        obtain ⟨hole, raw, rfl, hbreaks⟩ := exists_hole_statements hbody
        have hstart : Breaks error raw [] fun other => node policy kinds started
            ⟨name, hole.fill other⟩ := by
          have hopening : Plan.failure { actions := [.mention name,
            .start name (hole.fill raw).length] } = none := rfl
          refine (hbreaks.after hopening (by simp [Action.blocks])).congr fun other => ?_
          simp only [node, if_neg hnew, hole.length_fill other raw]
        refine ⟨[], name, hole, rest, raw, rfl, ?_⟩
        exact (hstart.andThen _).congr fun other => rfl
    · obtain ⟨before, name, hole, after, raw, rfl, hbreaks⟩ := ih hrest
      refine ⟨source :: before, name, hole, after, raw, rfl, ?_⟩
      exact (hbreaks.after hnode (List.subset_append_left _ _)).congr fun other => rfl

end Plan

-- ---------------------------------------------------------------------------
-- Scripts with a directive taken out
-- ---------------------------------------------------------------------------

namespace Table

theorem findIn_append (name : String) (first rest : List (String × α)) :
    findIn name (first ++ rest) = (findIn name first).or (findIn name rest) := by
  induction first with
  | nil => rfl
  | cons entry more ih =>
    obtain ⟨key, value⟩ := entry
    simp only [List.cons_append, findIn, ih]
    split <;> rfl

theorem exists_split_of_findIn {entries : List (String × α)}
    (h : findIn name entries = some value) :
    ∃ before after, entries = before ++ (name, value) :: after ∧ findIn name before = none := by
  induction entries with
  | nil => cases h
  | cons entry rest ih =>
    obtain ⟨key, old⟩ := entry
    simp only [findIn] at h
    split at h
    · rename_i hkey
      cases h
      exact ⟨[], rest, by rw [hkey, List.nil_append], rfl⟩
    · rename_i hkey
      obtain ⟨before, after, rfl, hnew⟩ := ih h
      exact ⟨(key, old) :: before, after, rfl, by simp [findIn, hkey, hnew]⟩

end Table

/-- A place in one of the nodes that are compiled is a place in the script, and what is put
there changes neither which nodes are compiled nor their order. -/
theorem ScriptHole.exists_of_order {script : Script} {entry name raw : String}
    {first : Node} {before after : List Node} {body : StatementsHole}
    (hfirst : script.nodes.find? entry = some first)
    (horder : first :: script.others entry = before ++ ⟨name, body.fill raw⟩ :: after) :
    ∃ hole : ScriptHole, script = hole.fill raw ∧ ∀ other, ∃ source,
      (hole.fill other).nodes.find? entry = some source ∧
        source :: (hole.fill other).others entry =
          before ++ ⟨name, body.fill other⟩ :: after := by
  obtain ⟨scriptName, ⟨entries⟩⟩ := script
  cases before with
  | nil =>
    obtain ⟨rfl, hothers⟩ := List.cons.inj horder
    obtain ⟨earlier, later, rfl, hnew⟩ := Table.exists_split_of_findIn hfirst
    refine ⟨⟨scriptName, earlier, entry, name, body, later⟩, rfl, fun other => ?_⟩
    refine ⟨⟨name, body.fill other⟩, ?_, ?_⟩
    · simp [fill, Table.find?, Table.findIn_append, hnew, Table.findIn]
    · simp only [Script.others, List.filter_append, List.filter_cons] at hothers
      simpa [fill, Script.others] using hothers
  | cons head rest =>
    obtain ⟨rfl, hothers⟩ := List.cons.inj horder
    obtain ⟨_, _, hfilter, rfl, hmap⟩ := List.map_eq_append_iff.mp hothers
    obtain ⟨⟨key, _⟩, _, rfl, rfl, rfl⟩ := List.map_eq_cons_iff.mp hmap
    obtain ⟨earlier, _, rfl, rfl, hlater⟩ := List.filter_eq_append_iff.mp hfilter
    obtain ⟨skipped, later, rfl, hskipped, hkey, rfl⟩ := List.filter_eq_cons_iff.mp hlater
    -- The node is not the entry node, so the entry node is found as before.
    have hne : key ≠ entry := by simpa using hkey
    refine ⟨⟨scriptName, earlier ++ skipped, key, name, body, later⟩, ?_, fun other => ?_⟩
    · simp [fill]
    · refine ⟨first, ?_, ?_⟩
      · simp only [Table.find?, fill, List.append_assoc, Table.findIn_append, Table.findIn,
          if_neg hne] at hfirst ⊢
        exact hfirst
      · have hentry : ∀ item ∈ skipped, item.1 = entry := by simpa using hskipped
        simpa [fill, Script.others, hne] using hentry

-- ---------------------------------------------------------------------------
-- Sessions
-- ---------------------------------------------------------------------------

namespace Session

variable {σ : Type} [Host σ]

/-- All that one session has asked, noted and reported is at the front of what the other
one has. -/
structure Precedes (before after : Session σ) : Prop where
  calls : before.calls <+: after.calls
  log : before.ledger.log.toList <+: after.ledger.log.toList
  diagnostics : before.diagnostics.toList <+: after.diagnostics.toList

namespace Precedes

omit [Host σ] in
theorem refl (session : Session σ) : session.Precedes session :=
  ⟨List.prefix_rfl, List.prefix_rfl, List.prefix_rfl⟩

omit [Host σ] in
theorem trans {first second third : Session σ} (hfirst : first.Precedes second)
    (hsecond : second.Precedes third) : first.Precedes third :=
  ⟨hfirst.calls.trans hsecond.calls, hfirst.log.trans hsecond.log,
    hfirst.diagnostics.trans hsecond.diagnostics⟩

theorem withBlock (session : Session σ) (name : String) :
    session.Precedes (session.withBlock name) := by
  cases hfind : session.blocks.find? name with
  | some block =>
    rw [withBlock_of_find? hfind]
    exact .refl session
  | none =>
    refine ⟨⟨_, (withBlock_of_new hfind).2.2.symm⟩, ?_, List.prefix_rfl⟩
    simp [Session.withBlock, BlockRegistry.resolve, hfind, Ledger.createBlock, Ledger.note]

theorem withVariable (session : Session σ) (name : String) (kind : Kind) :
    session.Precedes (session.withVariable name kind) := by
  cases hfind : session.vars.find? name with
  | some found =>
    rw [withVariable_of_find? hfind]
    exact .refl session
  | none =>
    refine ⟨⟨_, (withVariable_of_new hfind kind).2.2.symm⟩, ?_, List.prefix_rfl⟩
    simp [Session.withVariable, VariableRegistry.resolve, hfind, Ledger.createVariable,
      Ledger.setValue, Ledger.note]

theorem withCommand (session : Session σ) (block : BlockId) (command : Command) :
    session.Precedes (session.withCommand block command) where
  calls := ⟨_, (calls_withCommand session block command).symm⟩
  log := List.prefix_rfl
  diagnostics := List.prefix_rfl

omit [Host σ] in
theorem withNote (session : Session σ) (event : LogEvent) :
    session.Precedes (session.withNote event) where
  calls := List.prefix_rfl
  log := by simp [Session.withNote, Ledger.note]
  diagnostics := List.prefix_rfl

theorem declare (session : Session σ) (command : NamedCommand) :
    session.Precedes (command.declare session) := by
  obtain hsame | ⟨name, hblock⟩ | ⟨name, kind, hvar⟩ := command.declare_cases session
  · rw [hsame]
    exact .refl session
  · rw [hblock]
    exact withBlock session name
  · rw [hvar]
    exact withVariable session name kind

theorem action (session : Session σ) (action : Action) :
    session.Precedes (action.perform session) := by
  cases action with
  | mention name => exact withBlock session name
  | start name statements =>
    refine ⟨List.prefix_rfl, ?_, List.prefix_rfl⟩
    simp [Action.perform, Session.withStart, Ledger.note]
  | emit target command =>
    exact ((withBlock session target).trans (declare _ command)).trans (withCommand _ _ _)
  | ignore raw => exact withNote session _
  | skip error =>
    constructor
    · exact List.prefix_rfl
    · simp [Action.perform, Session.withDiagnostic, Ledger.note]
    · simp [Action.perform, Session.withDiagnostic]
  | finish script => exact withNote session _

theorem perform (session : Session σ) (actions : List Action) :
    session.Precedes (session.perform actions) := by
  induction actions generalizing session with
  | nil => exact .refl session
  | cons action rest ih => exact (Precedes.action session action).trans (ih _)

end Precedes

/-- A compilation that begins in `session` stands at `there` when it comes to the hole in
its script. -/
structure Reaches (session : Session σ) (hole : ScriptHole) (there : Session σ) : Prop where
  /-- With a directive that comes to nothing, the compilation only notes it and goes on. -/
  passed : ∀ ignored, Directive.parse ignored = .ok none →
    (there.withNote (.ignoringDirective ignored)).Precedes
      (session.after (Lowering.script (hole.fill ignored)))
  /-- With a directive that is understood, its command is what the host is asked for next. -/
  obeyed : ∀ raw seconds, Directive.parse raw = .ok (some (.wait seconds)) →
    ∃ block id, there.calls ++ [.createCommand (.wait seconds) id, .appendCommand block id] <+:
      (session.after (Lowering.script (hole.fill raw))).calls

theorem exists_find?_perform (session : Session σ) {actions : List Action}
    (h : name ∈ actions.flatMap Action.blocks) :
    ∃ block, (session.perform actions).blocks.find? name = some block := by
  apply Table.exists_find?_of_mem_keys
  simpa [keys_perform] using key_mem_enrollAll id h

theorem calls_perform_wait {session : Session σ} (h : session.blocks.find? target = some block)
    (seconds : Nat) :
    ∃ id, (session.perform [.emit target (.wait seconds)]).calls =
      session.calls ++ [.createCommand (.wait seconds) id, .appendCommand block id] := by
  have hperform : session.perform [.emit target (.wait seconds)] =
      (session.withBlock target).withCommand (session.blockOf target) (.wait seconds) := rfl
  rw [hperform, withBlock_of_find? h, blockOf_of_find? h, calls_withCommand]
  exact ⟨_, rfl⟩

end Session

-- ---------------------------------------------------------------------------
-- Compilations that break off
-- ---------------------------------------------------------------------------

namespace Plan.Breaks

variable {σ : Type} [Host σ] {plan : String → Plan}

theorem passed (h : Breaks error raw [] plan) (session : Session σ)
    (hignored : Directive.parse ignored = .ok none) :
    ((session.perform (plan raw).actions).withNote (.ignoringDirective ignored)).Precedes
      (session.perform (plan ignored).actions) := by
  obtain ⟨target, _, hgoesOn⟩ := h.goesOn
  obtain ⟨later, hlater⟩ := hgoesOn ignored none hignored
  have hdirective : (Plan.directive target ignored).actions = [.ignore ignored] := by
    simp [Plan.directive, hignored]
  rw [hlater, hdirective, Session.perform_append, Session.perform_append]
  exact .perform _ later

theorem obeyed (h : Breaks error raw [] plan) (session : Session σ)
    (hwait : Directive.parse other = .ok (some (.wait seconds))) :
    ∃ block id, (session.perform (plan raw).actions).calls ++
        [.createCommand (.wait seconds) id, .appendCommand block id] <+:
      (session.perform (plan other).actions).calls := by
  obtain ⟨target, htarget, hgoesOn⟩ := h.goesOn
  obtain ⟨later, hlater⟩ := hgoesOn other _ hwait
  have hdirective : (Plan.directive target other).actions = [.emit target (.wait seconds)] := by
    simp [Plan.directive, hwait, emit]
  obtain ⟨block, hblock⟩ := session.exists_find?_perform htarget
  obtain ⟨id, hcalls⟩ := Session.calls_perform_wait hblock seconds
  refine ⟨block, id, ?_⟩
  rw [hlater, hdirective, Session.perform_append, Session.perform_append, ← hcalls]
  exact (Session.Precedes.perform _ later).calls

end Plan.Breaks

namespace Lowering

variable {σ : Type} [Host σ]

/-- A compilation that fails for a malformed directive has stopped at that directive. -/
theorem script_stopped {session failed : Session σ} {source : Script} {raw : String}
    {fault : DirectiveFault}
    (h : script source session = .error (.malformedDirective raw fault) failed) :
    Directive.parse raw = .error (.malformedDirective raw fault) ∧
      ∃ hole : ScriptHole, source = hole.fill raw ∧ session.Reaches hole failed := by
  have hafter : session.after (script source) = failed := by simp [Session.after, h]
  cases hfirst : source.nodes.find? session.options.entry with
  | none =>
    rw [script_eq_error session source hfirst] at h
    cases h
  | some first =>
    have hfailure : (Plan.script session.options session.kinds session.started source).failure =
        some (.malformedDirective raw fault) := by
      rw [script_eq_outcome session source hfirst] at h
      split at h
      · cases h
      · rename_i hfailure
        cases h
        exact hfailure
    simp only [Plan.script, hfirst] at hfailure
    have hnodes := (Plan.failure_andThen_eq_some hfailure).resolve_right (by simp)
    obtain ⟨before, name, body, after, found, horder, hbreaks⟩ := Plan.exists_hole_nodes hnodes
    obtain rfl : found = raw := by
      obtain ⟨_, hfound⟩ := Directive.parse_eq_error hbreaks.rejected
      cases hfound
      rfl
    obtain ⟨hole, rfl, hfill⟩ := ScriptHole.exists_of_order hfirst horder
    have hscript : Plan.Breaks (.malformedDirective found fault) found [] fun other =>
        Plan.script session.options session.kinds session.started (hole.fill other) := by
      refine (hbreaks.andThen fun _ => { actions := [.finish hole.name] }).congr fun other => ?_
      obtain ⟨source, hsource, hsame⟩ := hfill other
      simp only [Plan.script, hsource, hsame]
      rfl
    rw [← hafter]
    refine ⟨hbreaks.rejected, hole, rfl, ?_, ?_⟩
    · intro ignored hignored
      simp only [Session.after_script]
      exact hscript.passed session hignored
    · intro other seconds hwait
      simp only [Session.after_script]
      exact hscript.obeyed session hwait

/-- The malformed directive stands in a branch under a menu entry, in the second node, and
there is more to do on every level. -/
def cellar : Script := .ofNodes "cellar" [
  ⟨"Start", [.assign "Halve" "oil" (.bool true), .jump "Cellar"]⟩,
  ⟨"Cellar", [
    .choices [
      .mk "Down" [
        .branch [
          .mk (some ⟨"EqualTo", "lamp", .bool true⟩) [
            .line "A step.", .directive "wait a bit", .line "Another step."],
          .mk none [.line "Dark."]]],
      .mk "Up" [.jump "Start"]],
    .line "The door shuts."]⟩,
  ⟨"Yard", [.line "Rain."]⟩]

theorem script_stopped_cellar :
    ∃ failed, script cellar (.fresh ({ name := "cellar" } : Flowchart) {}) =
        .error (.malformedDirective "wait a bit" (.badDuration "a")) failed ∧
      failed.calls = [
        .createBlock "Start" ⟨0⟩, .createBlock "Cellar" ⟨1⟩, .createCommand (.call ⟨1⟩) ⟨0⟩,
        .appendCommand ⟨0⟩ ⟨0⟩, .createBlock "Down" ⟨2⟩, .createCommand (.menu "Down" ⟨2⟩) ⟨1⟩,
        .appendCommand ⟨1⟩ ⟨1⟩, .createVariable "lamp" .bool ⟨0⟩, .setValue ⟨0⟩ (.bool false),
        .createCommand (.ifThen ⟨.equals, ⟨0⟩, .bool true⟩) ⟨2⟩, .appendCommand ⟨2⟩ ⟨2⟩,
        .createCommand (.say "A step.") ⟨3⟩, .appendCommand ⟨2⟩ ⟨3⟩] ∧
      failed.diagnostics.toList = [⟨"Start", "unknown operator: Halve"⟩] ∧
      ∃ hole : ScriptHole, cellar = hole.fill "wait a bit" ∧
        (Session.fresh ({ name := "cellar" } : Flowchart) {}).Reaches hole failed := by
  have hfailure : (cellar.plan {}).failure =
      some (.malformedDirective "wait a bit" (.badDuration "a")) := by decide +kernel
  obtain ⟨first, hfirst⟩ : ∃ first, cellar.nodes.find? ({} : Options).entry = some first :=
    ⟨_, rfl⟩
  have hrun := Script.run_fresh ({ name := "cellar" } : Flowchart) hfirst
  rw [hfailure] at hrun
  exact ⟨_, hrun, by decide +kernel, by decide +kernel, (script_stopped hrun).2⟩

end Lowering

end Dialogue
