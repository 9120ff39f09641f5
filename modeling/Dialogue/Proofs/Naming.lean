import Dialogue.Proofs.Keyed
import Dialogue.Proofs.Outcome
import Dialogue.Proofs.Success

/-!
# Lowering by name

`Named.script` lowers a script without state and without identifiers: each
statement gives commands that speak of blocks and variables by name, addressed
to the block that they go to. It has no value where a statement has no
lowering: an unknown operator, an operand that is no literal, a directive that
is malformed.

`Script.commands_named` says that compilation means the same: under the strict
policy and without diagnostics, the commands of every block of the flowchart
are those that are addressed to its name, in their order, once identifiers are
read as the names that the flowchart has at their positions.
-/

namespace Dialogue

-- ---------------------------------------------------------------------------
-- Lowering without state
-- ---------------------------------------------------------------------------

def Comparison.check? (comparison : Comparison) : Option Check := do
  let operator ← CompareOperator.ofFunction? comparison.function
  let literal ← comparison.value.literal.toOption
  pure ⟨operator, comparison.name, literal⟩

namespace Named

def directive (target raw : String) : Option (List (String × NamedCommand)) :=
  match Directive.parse raw with
  | .ok (some (.wait seconds)) => some [(target, .wait seconds)]
  | .ok none => some []
  | .error _ => none

def assignment (target operation name : String) (value : Operand) :
    Option (List (String × NamedCommand)) := do
  let operator ← SetOperator.ofToken? operation
  let literal ← value.literal.toOption
  pure [(target, .set operator name literal)]

def marker (first : Bool) : Option Comparison → Option NamedCommand
  | none => some .otherwise
  | some comparison => do
    let check ← comparison.check?
    pure (if first then .ifThen check else .elseIf check)

mutual

def statement (target : String) : Statement → Option (List (String × NamedCommand))
  | .line text => some [(target, .say text)]
  | .jump destination => some [(target, .call destination)]
  | .directive raw => directive target raw
  | .choices options => choices target options
  | .branch branches => do
    let bodies ← clauses target true branches
    pure (bodies ++ [(target, .endIf)])
  | .assign operation name value => assignment target operation name value
  | .unsupported => some []

def statements (target : String) : List Statement → Option (List (String × NamedCommand))
  | [] => some []
  | first :: rest => do
    let commands ← statement target first
    let more ← statements target rest
    pure (commands ++ more)

def choices (target : String) : List Choice → Option (List (String × NamedCommand))
  | [] => some []
  | .mk label body :: rest => do
    let commands ← statements label body
    let more ← choices target rest
    pure ((target, .menu label label) :: commands ++ more)

def clauses (target : String) (first : Bool) :
    List Clause → Option (List (String × NamedCommand))
  | [] => some []
  | .mk condition body :: rest => do
    let opening ← marker first condition
    let commands ← statements target body
    let more ← clauses target false rest
    pure ((target, opening) :: commands ++ more)

end

def phrase (target : String) : Phrase → Option (List (String × NamedCommand))
  | .statement source => statement target source
  | .statements source => statements target source
  | .choices source => choices target source
  | .clauses first source _ => clauses target first source

def nodes : List Node → Option (List (String × NamedCommand))
  | [] => some []
  | first :: rest => do
    let commands ← statements first.name first.statements
    let more ← nodes rest
    pure (commands ++ more)

/-- The entry node first, and then the others in the order of the script. -/
def script (source : Script) (entry : String) : Option (List (String × NamedCommand)) := do
  let first ← source.nodes.find? entry
  nodes (first :: source.others entry)

end Named

-- ---------------------------------------------------------------------------
-- Plans without a skip
-- ---------------------------------------------------------------------------

def Action.Clean (actions : List Action) : Prop := ∀ error, .skip error ∉ actions

namespace Action

theorem clean_append {first rest : List Action} :
    Clean (first ++ rest) ↔ Clean first ∧ Clean rest := by
  simp only [Clean, List.mem_append, not_or]
  exact forall_and

theorem clean_cons {action : Action} {rest : List Action} (h : Clean (action :: rest)) :
    Clean rest := fun error hmem => h error (List.mem_cons_of_mem _ hmem)

theorem clean_of_diagnostics {actions : List Action} {current : String}
    (h : diagnostics current actions = []) : Clean actions := by
  induction actions generalizing current with
  | nil => simp [Clean]
  | cons action rest ih =>
    cases action with
    | skip error => simp [diagnostics] at h
    | start name statements =>
      have hrest := @ih name h
      intro error hmem
      exact hrest error (by simpa using hmem)
    | _ =>
      have hrest := @ih current h
      intro error hmem
      exact hrest error (by simpa using hmem)

end Action

namespace Named

theorem emits_of_strict {source : Statement} {kinds : Kinds}
    (h : source.Emits .reject kinds command) (target : String) :
    statement target source = some [(target, command)] := by
  cases h with
  | line => simp only [statement]
  | jump => simp only [statement]
  | wait hparse => simp only [statement, directive, hparse]
  | assign hoperator hliteral hfitted =>
    cases eq_of_conform_reject hfitted
    simp [statement, assignment, hoperator, hliteral, Except.toOption]

theorem marker_of_strict {kinds : Kinds} (h : kinds.Passes .reject condition check)
    (first : Bool) : marker first condition = some (.marker first check) := by
  cases h with
  | always => rfl
  | compared hoperator hliteral hvalue =>
    cases eq_of_conform_reject hvalue
    simp [marker, Comparison.check?, hoperator, hliteral, Except.toOption, NamedCommand.marker]

/-- A phrase that is lowered without giving anything up emits what it stands for. -/
theorem phrase_of_strict (h : Lowered .reject target kinds source actions)
    (hclean : Action.Clean actions) :
    phrase target source = some (Action.emissions actions) := by
  induction h with
  | emit hemits => exact emits_of_strict hemits _
  | ignore hparse => simp [phrase, statement, directive, hparse]
  | unsupported => simp [phrase, statement]
  | menu _ ih =>
    simp only [phrase, statement] at ih ⊢
    exact ih hclean
  | branch _ _ ih =>
    have hbodies := ih (Action.clean_append.mp hclean).1
    simp only [phrase] at hbodies
    simp [phrase, statement, hbodies]
  | nil => simp [phrase, statements]
  | cons _ _ hfirst hrest =>
    obtain ⟨hcleanFirst, hcleanRest⟩ := Action.clean_append.mp hclean
    have hcommands := hfirst hcleanFirst
    have hmore := hrest hcleanRest
    simp only [phrase] at hcommands hmore
    simp [phrase, statements, hcommands, hmore]
  | @skip _ _ _ _ _ error => exact absurd List.mem_cons_self (hclean error)
  | noChoice => simp [phrase, choices]
  | choice _ _ hbody hrest =>
    obtain ⟨hcleanBody, hcleanRest⟩ := Action.clean_append.mp hclean
    have hcommands := hbody (Action.clean_cons hcleanBody)
    have hmore := hrest hcleanRest
    simp only [phrase] at hcommands hmore
    simp [phrase, choices, hcommands, hmore]
  | noClause => simp [phrase, clauses]
  | clause hpasses _ _ _ hbody hrest =>
    obtain ⟨hcleanBody, hcleanRest⟩ := Action.clean_append.mp hclean
    have hcommands := hbody (Action.clean_cons hcleanBody)
    have hmore := hrest hcleanRest
    simp only [phrase] at hcommands hmore
    simp [phrase, clauses, marker_of_strict hpasses, hcommands, hmore]

theorem nodes_of_plan {kinds : Kinds} {started : List String} {order : List Node}
    (hnodup : (order.map (·.name)).Nodup) (hnew : ∀ node ∈ order, node.name ∉ started)
    (h : (Plan.nodes .reject kinds started order).failure = none)
    (hclean : Action.Clean (Plan.nodes .reject kinds started order).actions) :
    nodes order = some (Action.emissions (Plan.nodes .reject kinds started order).actions) := by
  induction order generalizing kinds started with
  | nil => rfl
  | cons source rest ih =>
    have hnewRest := Plan.notMem_started hnodup hnew
    rw [List.map_cons, List.nodup_cons] at hnodup
    rcases Plan.nodes_cons_cases h with ⟨hstarted, _, _⟩ | ⟨_, body, hbody, hrest, hactions⟩
    · exact absurd hstarted (hnew source List.mem_cons_self)
    · rw [hactions] at hclean ⊢
      obtain ⟨hcleanBody, hcleanRest⟩ := Action.clean_append.mp hclean
      have hstatements : statements source.name source.statements = some (Action.emissions body) :=
        phrase_of_strict hbody (Action.clean_cons (Action.clean_cons hcleanBody))
      have hmore := ih hnodup.2 hnewRest hrest hcleanRest
      simp [nodes, hstatements, hmore]

theorem script_of_plan {source : Script} {options : Options} (hkeyed : source.Keyed)
    (hpolicy : options.mismatch = .reject) (h : (source.plan options).failure = none)
    (hclean : Action.Clean (source.plan options).actions) :
    script source options.entry = some (Action.emissions (source.plan options).actions) := by
  obtain ⟨first, hfirst⟩ := Script.find?_of_failure_eq_none h
  rw [Script.plan_eq hfirst, hpolicy] at h hclean ⊢
  have hnodes := (Plan.failure_andThen_eq_none.mp h).1
  rw [Plan.actions_andThen hnodes] at hclean ⊢
  have horder := nodes_of_plan (hkeyed.nodup_order hfirst) (by simp) hnodes
    (Action.clean_append.mp hclean).1
  simp [script, hfirst, horder]

end Named

-- ---------------------------------------------------------------------------
-- Reading identifiers as names
-- ---------------------------------------------------------------------------

namespace Listing

def blockName? (listing : Listing) (id : BlockId) : Option String :=
  listing.blocks[id.index.toNat]?.map (·.name)

def variableName? (listing : Listing) (id : VariableId) : Option String :=
  listing.vars[id.index.toNat]?.map (·.key)

def namedCheck? (listing : Listing) (condition : Condition) : Option Check :=
  (listing.variableName? condition.subject).map fun name =>
    ⟨condition.operator, name, condition.value⟩

/-- A command with the names that the listing has where its identifiers point. -/
def named? (listing : Listing) : Command → Option NamedCommand
  | .say text => some (.say text)
  | .menu text target => (listing.blockName? target).map (.menu text)
  | .call target => (listing.blockName? target).map .call
  | .set operator subject value =>
    (listing.variableName? subject).map fun name => .set operator name value
  | .ifThen condition => (listing.namedCheck? condition).map .ifThen
  | .elseIf condition => (listing.namedCheck? condition).map .elseIf
  | .otherwise => some .otherwise
  | .endIf => some .endIf
  | .wait seconds => some (.wait seconds)

end Listing

/-- The registries of a session know where their blocks and variables stand. -/
structure Session.Located (session : Session Flowchart) : Prop where
  blocks : ∀ name id, session.blocks.find? name = some id →
    session.ledger.host.listing.blockName? id = some name
  vars : ∀ name found, session.vars.find? name = some found →
    session.ledger.host.listing.variableName? found.id = some name

theorem Session.Located.named?_resolve {session : Session Flowchart} (h : session.Located)
    {command : NamedCommand} (hknown : command.Known session) :
    session.ledger.host.listing.named? (command.resolve session) = some command := by
  cases command with
  | menu text target =>
    obtain ⟨block, hblock⟩ := hknown
    simp [NamedCommand.resolve, Listing.named?, blockOf_of_find? hblock, h.blocks target block hblock]
  | call target =>
    obtain ⟨block, hblock⟩ := hknown
    simp [NamedCommand.resolve, Listing.named?, blockOf_of_find? hblock, h.blocks target block hblock]
  | set operator name value =>
    obtain ⟨found, hfound⟩ := hknown
    simp [NamedCommand.resolve, Listing.named?, variableOf_of_find? hfound,
      h.vars name found hfound]
  | ifThen check =>
    obtain ⟨found, hfound⟩ := hknown
    simp [NamedCommand.resolve, Listing.named?, Listing.namedCheck?, variableOf_of_find? hfound,
      h.vars check.name found hfound]
  | elseIf check =>
    obtain ⟨found, hfound⟩ := hknown
    simp [NamedCommand.resolve, Listing.named?, Listing.namedCheck?, variableOf_of_find? hfound,
      h.vars check.name found hfound]
  | _ => rfl

namespace Session.Indexed

variable {session : Session Flowchart}

theorem blockName?_of_find? (h : session.Indexed)
    (hsize : session.ledger.host.listing.blocks.length ≤ UInt32.size)
    (hfind : session.blocks.find? name = some block) :
    session.ledger.host.listing.blockName? block = some name := by
  have hname := h.blockNames_of_find? hsize hfind
  rwa [← Flowchart.map_listing_blocks, List.getElem?_map] at hname

theorem variableName?_of_find? (h : session.Indexed)
    (hsize : session.ledger.host.listing.vars.length ≤ UInt32.size)
    (hfind : session.vars.find? name = some found) :
    session.ledger.host.listing.variableName? found.id = some name := by
  obtain ⟨listed, hlisted, hkey, _⟩ := h.variable_of_find? hsize hfind
  simp [Listing.variableName?, hlisted, hkey]

theorem located (h : session.Indexed) (hsize : session.ledger.host.listing.Addressable) :
    session.Located where
  blocks _ _ hfind := h.blockName?_of_find? hsize.blocks hfind
  vars _ _ hfind := h.variableName?_of_find? hsize.vars hfind

end Session.Indexed

-- ---------------------------------------------------------------------------
-- Compiled scripts by name
-- ---------------------------------------------------------------------------

theorem Session.find?_of_mention {σ : Type} [Host σ] {session : Session σ} {actions : List Action}
    (h : .mention name ∈ actions) :
    ∃ block, (session.perform actions).blocks.find? name = some block := by
  obtain ⟨before, rest, rfl⟩ := List.append_of_mem h
  rw [perform_append]
  have hopen := find?_withBlock_self (session.perform before) name
  exact ⟨_, find?_perform rest hopen⟩

theorem Plan.mention_of_mem {policy : MismatchPolicy} {kinds : Kinds} {started : List String}
    {order : List Node} (h : (nodes policy kinds started order).failure = none)
    {node : Node} (hnode : node ∈ order) :
    .mention node.name ∈ (nodes policy kinds started order).actions := by
  induction order generalizing kinds started with
  | nil => cases hnode
  | cons source rest ih =>
    rcases nodes_cons_cases h with ⟨_, hrest, hactions⟩ | ⟨_, _, _, hrest, hactions⟩
    · rw [hactions]
      rcases List.mem_cons.mp hnode with rfl | hmem
      · exact List.mem_cons_self
      · exact List.mem_cons_of_mem _ (ih hrest hmem)
    · rw [hactions]
      rcases List.mem_cons.mp hnode with rfl | hmem
      · exact List.mem_cons_self
      · exact List.mem_append_right _ (ih hrest hmem)

namespace Script

variable {script : Script} {options : Options}

theorem find?_of_mem_order (h : (script.plan options).failure = none)
    (hfirst : script.nodes.find? options.entry = some first)
    (hnode : node ∈ first :: script.others options.entry) :
    ∃ block, (script.compilation options).blocks.find? node.name = some block := by
  apply Session.find?_of_mention
  rw [plan_eq hfirst] at h ⊢
  have hnodes := (Plan.failure_andThen_eq_none.mp h).1
  rw [Plan.actions_andThen hnodes]
  exact List.mem_append_left _ (Plan.mention_of_mem hnodes hnode)

theorem find?_entry (hkeyed : script.Keyed) (h : (script.plan options).failure = none) :
    (script.compilation options).blocks.find? options.entry = some ⟨0⟩ := by
  obtain ⟨first, hfirst⟩ := find?_of_failure_eq_none h
  unfold compilation
  rw [plan_eq hfirst] at h ⊢
  have hnodes := (Plan.failure_andThen_eq_none.mp h).1
  rw [Plan.actions_andThen hnodes]
  rcases Plan.nodes_cons_cases hnodes with ⟨hstarted, _, _⟩ | ⟨_, _, _, _, hactions⟩
  · cases hstarted
  · have hopen : ((Session.fresh ({ name := script.name } : Flowchart) options).withBlock
        first.name).blocks.find? first.name = some ⟨0⟩ :=
      Session.find?_withBlock_self _ first.name
    rw [hactions, ← hkeyed.name_first hfirst, List.cons_append, List.cons_append,
      Session.perform_cons]
    exact Session.find?_perform _ hopen

theorem named?_commands_compilation {block : BlockListing}
    (hsize : (script.compilation options).ledger.host.listing.Addressable)
    (hmem : block ∈ (script.compilation options).ledger.host.listing.blocks) :
    block.commands.map (script.compilation options).ledger.host.listing.named? =
      ((Action.emissions (script.plan options).actions).filter (·.1 = block.name)).map
        fun emission => some emission.2 := by
  rw [commands_addressed hsize.blocks hsize.commands hmem, List.map_map]
  apply List.map_congr_left
  intro emission hemission
  have hknown := (known_compilation (List.mem_filter.mp hemission).1).2
  exact ((script.indexed_compilation options).located hsize).named?_resolve hknown

/-- Compilation under the strict policy that reports nothing lowers the script by
name: block names are unique, the entry identifier is that of the entry node,
every node and every addressed block is there, and the commands of each block
are those that the lowering by name addresses to it. -/
theorem commands_named {script : Script} {options : Options} {compiled : Compiled}
    (hkeyed : script.Keyed) (hpolicy : options.mismatch = .reject)
    (hcompile : script.compile options = .ok compiled) (hclean : compiled.diagnostics = [])
    (hsize : compiled.flowchart.Addressable) :
    ∃ trace, Named.script script options.entry = some trace ∧
      (compiled.flowchart.blocks.map (·.name)).Nodup ∧
      compiled.flowchart.blockName? compiled.entry = some options.entry ∧
      (∀ key ∈ script.nodes.keys, key ∈ compiled.flowchart.blocks.map (·.name)) ∧
      (∀ emission ∈ trace, emission.1 ∈ compiled.flowchart.blocks.map (·.name)) ∧
      ∀ block ∈ compiled.flowchart.blocks,
        block.commands.map compiled.flowchart.named? =
          (trace.filter (·.1 = block.name)).map fun emission => some emission.2 := by
  obtain ⟨hplan, rfl⟩ := compile_eq_ok_iff.mp hcompile
  have hindexed := script.indexed_compilation options
  have hskips := Action.clean_of_diagnostics
    ((script.diagnostics_compilation options).symm.trans hclean)
  refine ⟨_, Named.script_of_plan hkeyed hpolicy hplan hskips, ?_, ?_, ?_, ?_, ?_⟩
  · rw [Flowchart.map_listing_blocks]
    exact hindexed.blockNames
  · exact hindexed.blockName?_of_find? hsize.blocks (find?_entry hkeyed hplan)
  · intro key hkey
    obtain ⟨⟨_, node⟩, hentry, rfl⟩ := List.mem_map.mp hkey
    obtain ⟨first, hfirst⟩ := find?_of_failure_eq_none hplan
    obtain ⟨block, hblock⟩ := find?_of_mem_order hplan hfirst (hkeyed.mem_order hfirst hentry)
    rw [← hkeyed.names _ hentry]
    exact hindexed.mem_blockNames hblock
  · intro emission hemission
    obtain ⟨block, hblock⟩ := (known_compilation hemission).1
    exact hindexed.mem_blockNames hblock
  · intro block hblock
    exact named?_commands_compilation hsize hblock

/-- A menu inside a branch: one entry fills a node ahead of its turn, and one
comes back to the block whose branch is still open. -/
def inn : Script := .ofNodes "inn" [
  ⟨"Inn", [.line "Good evening.", .assign "EqualToOrAssign" "guest" (.bool true)]⟩,
  ⟨"Start", [
    .branch [
      .mk (some ⟨"EqualTo", "guest", .bool true⟩) [
        .choices [.mk "Inn" [.jump "Road"], .mk "Start" [.line "Back?", .directive "wait 2"]]],
      .mk (some ⟨"NotEqualTo", "name", .string "Ann"⟩) [
        .assign "AddAssign" "name" (.string "!")],
      .mk none [.unsupported]],
    .directive "blink"]⟩]

def innListing : Listing where
  name := "inn"
  blocks := [
    ⟨"Start", [.ifThen ⟨.equals, ⟨0⟩, .bool true⟩, .menu "Inn" ⟨1⟩, .menu "Start" ⟨0⟩,
      .say "Back?", .wait 2, .elseIf ⟨.notEquals, ⟨1⟩, .string "Ann"⟩,
      .set .add ⟨1⟩ (.string "!"), .otherwise, .endIf]⟩,
    ⟨"Inn", [.call ⟨2⟩, .say "Good evening.", .set .assign ⟨0⟩ (.bool true)]⟩,
    ⟨"Road", []⟩]
  vars := [⟨"guest", .bool, .everywhere, .bool false⟩, ⟨"name", .string, .everywhere, .string ""⟩]

theorem commands_named_inn :
    inn.compile {} = .ok ⟨⟨0⟩, innListing, []⟩ ∧ innListing.Addressable ∧
      ∃ trace, Named.script inn "Start" = some trace ∧
        ∀ block ∈ innListing.blocks, block.commands.map innListing.named? =
          (trace.filter (·.1 = block.name)).map fun emission => some emission.2 := by
  have hcompile : inn.compile {} = .ok ⟨⟨0⟩, innListing, []⟩ := by decide +kernel
  have hkeyed : inn.Keyed := keyed_ofNodes "inn" _
  have hsize : innListing.Addressable := ⟨by decide, by decide, by decide⟩
  obtain ⟨trace, htrace, _, _, _, _, hblocks⟩ :=
    commands_named hkeyed rfl hcompile rfl hsize
  exact ⟨hcompile, hsize, trace, htrace, hblocks⟩

end Script

end Dialogue
