import Dialogue.Proofs.Conditions
import Dialogue.Proofs.Naming
import Dialogue.Proofs.Pruning
import Dialogue.Proofs.Steps
import Dialogue.Proofs.Uniform
import Mathlib.Data.List.Induction

/-!
# Identifiers are given out in the order of the script

Blocks and variables are created when a lowering first asks for them, while it goes
back and forth between blocks and checks whole branches ahead. What comes of it is
what a reader would number from top to bottom: the blocks are the names that the
script mentions, the variables are the names that it assigns and compares, each
where it stands first, and a variable has the kind of the literal that stands there
(`Script.allocated`).
-/

namespace Dialogue

-- ---------------------------------------------------------------------------
-- First occurrences
-- ---------------------------------------------------------------------------

section

variable {key : α → String} {known : List α}

theorem enrollAll_append (first rest : List α) :
    enrollAll key known (first ++ rest) = enrollAll key (enrollAll key known first) rest :=
  List.foldl_append

theorem map_enroll (item : α) :
    (enroll key known item).map key = enroll id (known.map key) (key item) := by
  unfold enroll
  by_cases h : key item ∈ known.map key <;> simp [h]

theorem map_enrollAll (items : List α) :
    (enrollAll key known items).map key = enrollAll id (known.map key) (items.map key) := by
  induction items generalizing known with
  | nil => rfl
  | cons item rest ih =>
    show (enrollAll key (enroll key known item) rest).map key = _
    rw [ih, map_enroll]
    rfl

end

theorem enrollAll_of_mem {known : List String} (h : name ∈ known) (rest : List String) :
    enrollAll id known (name :: rest) = enrollAll id known rest := by
  have hold : enroll id known name = known := if_pos (by simpa using h)
  exact congrArg (enrollAll id · rest) hold

theorem mem_enroll_self (known : List String) (name : String) : name ∈ enroll id known name := by
  have hmem : name ∈ (enroll id known name).map id := key_mem_enroll name
  rwa [List.map_id] at hmem

theorem enrollAll_eq_eraseDups (names : List String) : enrollAll id [] names = names.eraseDups := by
  induction names using List.reverseRecOn with
  | nil => rfl
  | append_singleton names name ih =>
    rw [enrollAll_append, ih, List.eraseDups_append]
    show enroll id names.eraseDups name = _
    unfold enroll
    by_cases h : name ∈ names <;> simp [h, List.removeAll, List.eraseDups_cons]

-- ---------------------------------------------------------------------------
-- Actions that introduce names in the order of their source
-- ---------------------------------------------------------------------------

namespace Action

/-- Actions ask for the blocks that are mentioned, in that order, once the blocks of
`opened` are there, and declare the names that are referred to, in that order; a
name that is new gets the kind of the literal it is first referred to with. -/
structure Introduces (opened : List String) (kinds : Kinds) (actions : List Action)
    (mentions : List String) (references : List (String × Operand)) : Prop where
  blocks : ∀ known, opened ⊆ known →
    enrollAll id known (actions.flatMap Action.blocks) = enrollAll id known mentions
  names : (declared actions).map Prod.fst = references.map Prod.fst
  literals : ∀ reference ∈ references, ∃ literal, reference.2.literal = .ok literal
  kinds : ∀ name, kinds.after actions name =
    (kinds name).or ((Operands.kinds references).lookup name)

namespace Introduces

variable {opened : List String} {kinds : Kinds}

theorem nil : Introduces opened kinds [] [] [] where
  blocks _ _ := rfl
  names := rfl
  literals := nofun
  kinds _ := Option.or_none.symm

theorem append (hfirst : Introduces opened kinds first mentions references)
    (hrest : Introduces opened (kinds.after first) rest mentions' references') :
    Introduces opened kinds (first ++ rest) (mentions ++ mentions')
      (references ++ references') where
  blocks known hopened := by
    have hlater : opened ⊆ enrollAll id known mentions :=
      fun _ hmem => prefix_enrollAll.subset (hopened hmem)
    rw [List.flatMap_append, enrollAll_append, hfirst.blocks known hopened, hrest.blocks _ hlater,
      enrollAll_append]
  names := by
    rw [declared_append, List.map_append, List.map_append, hfirst.names, hrest.names]
  literals reference hmem := by
    rcases List.mem_append.mp hmem with hmem | hmem
    · exact hfirst.literals reference hmem
    · exact hrest.literals reference hmem
  kinds name := by
    rw [Kinds.after_append, hrest.kinds, hfirst.kinds, Operands.kinds_append, List.lookup_append,
      Option.or_assoc]

theorem emit (h : command.declared? = none) :
    Introduces [target] kinds [.emit target command] command.block?.toList [] where
  blocks known hopened := by
    show enrollAll id known (target :: command.block?.toList ++ []) = _
    rw [List.append_nil, enrollAll_of_mem (hopened List.mem_cons_self)]
  names := by
    simp [declared, h]
  literals := nofun
  kinds name := by
    show kinds.afterCommand command name = _
    rw [NamedCommand.afterCommand_eq, h]
    exact Option.or_none.symm

theorem idle (hblocks : action.blocks = []) (hemission : action.emission? = none) :
    Introduces opened kinds [action] [] [] where
  blocks _ _ := by rw [List.flatMap_singleton, hblocks]
  names := by simp [declared, emissions, hemission]
  literals := nofun
  kinds name := by
    have hkinds : action.kinds kinds = kinds := by
      cases action with
      | emit target command => cases hemission
      | _ => rfl
    show action.kinds kinds name = _
    rw [hkinds]
    exact Option.or_none.symm

/-- A command that declares a name takes the literal as it is if the name is new.
`checked` is what had been declared when the literal was looked at. -/
theorem reference {checked : Kinds} {value : Operand} (hblock : command.block? = none)
    (hdeclared : command.declared? = some (name, fitted.kind))
    (hliteral : value.literal = .ok literal)
    (hconform : conform name (checked name) policy literal = .ok fitted)
    (hchecked : kinds name = none → checked name = none) :
    Introduces [target] kinds [.emit target command] [] [(name, value)] where
  blocks known hopened := by
    show enrollAll id known (target :: command.block?.toList ++ []) = _
    rw [List.append_nil, enrollAll_of_mem (hopened List.mem_cons_self), hblock]
    rfl
  names := by simp [declared, hdeclared]
  literals other hother := by
    cases List.mem_singleton.mp hother
    exact ⟨literal, hliteral⟩
  kinds other := by
    show kinds.afterCommand command other = _
    have hreferences : Operands.kinds [(name, value)] = [(name, literal.kind)] := by
      simp [Operands.kinds, hliteral, Except.toOption]
    rw [NamedCommand.afterCommand_eq, hdeclared, hreferences]
    show (kinds other).or (if name = other then some fitted.kind else none) = _
    by_cases hname : name = other
    · subst hname
      cases hnew : kinds name with
      | some kind => rfl
      | none =>
        rw [hchecked hnew] at hconform
        cases hconform
        simp
    · have hother : (other == name) = false := beq_false_of_ne (Ne.symm hname)
      simp [hname, List.lookup_cons, hother]

theorem menu (hbody : Introduces [label] kinds body mentions references) :
    Introduces [target] kinds (.emit target (.menu label label) :: body) (label :: mentions)
      references where
  blocks known hopened := by
    show enrollAll id known (target :: label :: body.flatMap Action.blocks) = _
    rw [enrollAll_of_mem (hopened List.mem_cons_self)]
    exact hbody.blocks _ (by simpa using mem_enroll_self known label)
  names := hbody.names
  literals := hbody.literals
  kinds := hbody.kinds

theorem node (hbody : Introduces [name] kinds body mentions references) :
    Introduces [] kinds (.mention name :: .start name statements :: body) (name :: mentions)
      references where
  blocks known _ := hbody.blocks _ (by simpa using mem_enroll_self known name)
  names := hbody.names
  literals := hbody.literals
  kinds := hbody.kinds

end Introduces

end Action

-- ---------------------------------------------------------------------------
-- Plans introduce the names of their source
-- ---------------------------------------------------------------------------

open Dialogue.Action (Clean Introduces clean_append clean_cons)

theorem Statement.Emits.introduces {source : Statement} {policy : MismatchPolicy} {kinds : Kinds}
    (h : source.Emits policy kinds command) :
    Introduces [target] kinds [.emit target command] (Mentions.statement source)
      (Operands.statement source) := by
  cases h with
  | assign _ hliteral hfitted =>
    simp only [Mentions.statement, Operands.statement]
    exact .reference rfl rfl hliteral hfitted id
  | _ =>
    simp only [Mentions.statement, Operands.statement]
    exact .emit rfl

/-- The marker of a clause introduces what the clause compares, even if it has been
checked long before. -/
theorem Kinds.Passes.introduces {policy : MismatchPolicy} {kinds checked : Kinds}
    (h : checked.Passes policy condition found) (hcovers : kinds.Covers checked)
    (target : String) (first : Bool) :
    Introduces [target] kinds [.emit target (.marker first found)] []
      (Operands.condition condition) := by
  cases h with
  | always => exact .emit rfl
  | compared _ hliteral hvalue =>
    cases first with
    | false => exact .reference rfl rfl hliteral hvalue (hcovers _)
    | true => exact .reference rfl rfl hliteral hvalue (hcovers _)

theorem Lowered.introduces (h : Lowered policy target kinds phrase actions)
    (hclean : Clean actions) :
    Introduces [target] kinds actions (Mentions.phrase phrase) (Operands.phrase phrase) := by
  induction h with
  | emit hemits => exact hemits.introduces
  | ignore _ =>
    simp only [Mentions.phrase, Mentions.statement, Operands.phrase, Operands.statement]
    exact .idle rfl rfl
  | unsupported =>
    simp only [Mentions.phrase, Mentions.statement, Operands.phrase, Operands.statement]
    exact .nil
  | menu _ ih =>
    simp only [Mentions.phrase, Mentions.statement, Operands.phrase, Operands.statement] at ih ⊢
    exact ih hclean
  | @branch _ _ _ target _ _ _ ih =>
    have hend (kinds : Kinds) : Introduces [target] kinds [.emit target .endIf] [] [] := .emit rfl
    have hbodies := (ih (clean_append.mp hclean).1).append (hend _)
    simpa [Mentions.phrase, Mentions.statement, Operands.phrase, Operands.statement] using hbodies
  | nil =>
    simp only [Mentions.phrase, Mentions.statements, Operands.phrase, Operands.statements]
    exact .nil
  | cons _ _ hfirst hrest =>
    obtain ⟨hcleanFirst, hcleanRest⟩ := clean_append.mp hclean
    simp only [Mentions.phrase, Mentions.statements, Operands.phrase, Operands.statements]
    exact (hfirst hcleanFirst).append (hrest hcleanRest)
  | @skip _ _ _ _ _ error => exact absurd List.mem_cons_self (hclean error)
  | noChoice =>
    simp only [Mentions.phrase, Mentions.choices, Operands.phrase, Operands.choices]
    exact .nil
  | choice _ _ hbody hrest =>
    obtain ⟨hcleanBody, hcleanRest⟩ := clean_append.mp hclean
    simp only [Mentions.phrase, Mentions.choices, Operands.phrase, Operands.choices]
    exact (hbody (clean_cons hcleanBody)).menu.append (hrest hcleanRest)
  | noClause =>
    simp only [Mentions.phrase, Mentions.clauses, Operands.phrase, Operands.clauses]
    exact .nil
  | @clause _ _ target _ _ _ _ _ _ first _ hpasses hcovers _ _ hbody hrest =>
    obtain ⟨hcleanBody, hcleanRest⟩ := clean_append.mp hclean
    have hmarker := hpasses.introduces hcovers target first
    have hinside := hmarker.append (hbody (clean_cons hcleanBody))
    simp only [Mentions.phrase, Mentions.clauses, Operands.phrase, Operands.clauses]
    exact hinside.append (hrest hcleanRest)

theorem Plan.introduces_nodes {policy : MismatchPolicy} {kinds : Kinds} {started : List String}
    {order : List Node}
    (hnodup : (order.map (·.name)).Nodup) (hnew : ∀ node ∈ order, node.name ∉ started)
    (h : (nodes policy kinds started order).failure = none)
    (hclean : Clean (nodes policy kinds started order).actions) :
    Introduces [] kinds (nodes policy kinds started order).actions (Mentions.nodes order)
      (order.flatMap Operands.node) := by
  induction order generalizing kinds started with
  | nil => exact .nil
  | cons source rest ih =>
    have hnewRest := notMem_started hnodup hnew
    rw [List.map_cons, List.nodup_cons] at hnodup
    rcases nodes_cons_cases h with ⟨hstarted, _, _⟩ | ⟨_, body, hbody, hrest, hactions⟩
    · exact absurd hstarted (hnew source List.mem_cons_self)
    · rw [hactions] at hclean ⊢
      obtain ⟨hcleanBody, hcleanRest⟩ := clean_append.mp hclean
      have hstatements := hbody.introduces (clean_cons (clean_cons hcleanBody))
      exact hstatements.node.append (ih hnodup.2 hnewRest hrest hcleanRest)

-- ---------------------------------------------------------------------------
-- Compiled scripts
-- ---------------------------------------------------------------------------

theorem Operands.lookup_kinds {references : List (String × Operand)}
    (hliterals : ∀ reference ∈ references, ∃ literal, reference.2.literal = .ok literal)
    (h : (kinds references).lookup name = some kind) :
    ∃ operand literal, references.lookup name = some operand ∧
      operand.literal = .ok literal ∧ kind = literal.kind := by
  induction references with
  | nil => cases h
  | cons reference rest ih =>
    obtain ⟨other, value⟩ := reference
    obtain ⟨literal, hliteral⟩ := hliterals (other, value) List.mem_cons_self
    have hkinds : kinds ((other, value) :: rest) = (other, literal.kind) :: kinds rest := by
      simp [kinds, hliteral, Except.toOption]
    rw [hkinds, List.lookup_cons] at h
    rw [List.lookup_cons]
    cases hname : name == other with
    | true =>
      rw [hname] at h
      exact ⟨value, literal, rfl, hliteral, (Option.some.inj h).symm⟩
    | false =>
      rw [hname] at h
      exact ih (fun later hlater => hliterals later (List.mem_cons_of_mem _ hlater)) h

theorem Session.Indexed.kinds_of_mem {session : Session Flowchart} (h : session.Indexed)
    (hmem : (name, kind) ∈ session.ledger.host.declarations) :
    session.kinds name = some kind := by
  obtain ⟨position, hposition⟩ := List.mem_iff_getElem?.mp hmem
  have hfind := (h.vars.find?_iff h.keys name ⟨⟨position.toUInt32⟩, kind⟩).mpr
    ⟨position, (name, kind), hposition, rfl, rfl⟩
  rw [kinds, VariableRegistry.kind?, hfind]
  rfl

namespace Script

def mentions (script : Script) (entry : String) : List String :=
  Mentions.nodes (script.order entry)

/-- The names of variables in a script with what they are assigned or compared with, in
the order in which its nodes are compiled. -/
def references (script : Script) (entry : String) : List (String × Operand) :=
  (script.order entry).flatMap Operands.node

theorem introduces_plan {script : Script} {options : Options} (hkeyed : script.Keyed)
    (h : (script.plan options).failure = none)
    (hclean : Action.Clean (script.plan options).actions) :
    Action.Introduces [] .none (script.plan options).actions (script.mentions options.entry)
      (script.references options.entry) := by
  obtain ⟨first, hfirst⟩ := find?_of_failure_eq_none h
  have horder := order_eq hfirst
  rw [plan_eq hfirst] at h hclean ⊢
  have hnodes := (Plan.failure_andThen_eq_none.mp h).1
  rw [Plan.actions_andThen hnodes] at hclean ⊢
  have hintroduces := Plan.introduces_nodes (hkeyed.nodup_order hfirst) (by simp) hnodes
    (Action.clean_append.mp hclean).1
  have hfinish (kinds : Kinds) : Action.Introduces [] kinds [.finish script.name] [] [] :=
    .idle rfl rfl
  rw [mentions, references, horder]
  simpa using hintroduces.append (hfinish _)

/-- A script that compiles without diagnostics has its entry in the first block. Its
blocks are what it mentions and its variables what it refers to, both in the order of
their first occurrences, and each variable has the kind of the literal that stands at
the first of them. -/
theorem allocated {script : Script} {options : Options} {compiled : Compiled}
    (hkeyed : script.Keyed) (hcompile : script.compile options = .ok compiled)
    (hclean : compiled.diagnostics = []) :
    compiled.entry = ⟨0⟩ ∧
      compiled.flowchart.blocks.map (·.name) = (script.mentions options.entry).eraseDups ∧
      compiled.flowchart.vars.map (·.key) =
        ((script.references options.entry).map Prod.fst).eraseDups ∧
      ∀ listed ∈ compiled.flowchart.vars, ∃ operand literal,
        (script.references options.entry).lookup listed.key = some operand ∧
          operand.literal = .ok literal ∧ listed.kind = literal.kind := by
  obtain ⟨hplan, rfl⟩ := compile_eq_ok_iff.mp hcompile
  have hskips := Action.clean_of_diagnostics
    ((script.diagnostics_compilation options).symm.trans hclean)
  have hintroduces := introduces_plan hkeyed hplan hskips
  refine ⟨rfl, ?_, ?_, ?_⟩
  · rw [Flowchart.map_listing_blocks, blockNames_compilation,
      hintroduces.blocks [] (List.nil_subset _), enrollAll_eq_eraseDups]
  · have hkeys : (script.compilation options).ledger.host.listing.vars.map (·.key) =
        (script.compilation options).ledger.host.declarations.map Prod.fst := by
      simp [Flowchart.listing, Flowchart.declarations]
    rw [hkeys, declarations_compilation, map_enrollAll, hintroduces.names]
    exact enrollAll_eq_eraseDups _
  · intro listed hlisted
    have hkind := (script.indexed_compilation options).kinds_of_mem
      (List.mem_map.mpr ⟨listed, hlisted, rfl⟩)
    rw [kinds_compilation, hintroduces.kinds] at hkind
    exact Operands.lookup_kinds hintroduces.literals hkind

/-- The body of the first clause declares a variable that the third clause has been
checked with before, as another kind; later literals are made to fit. -/
def voyage : Script := .ofNodes "voyage" [
  ⟨"Harbour", [.assign "EqualToOrAssign" "flag" (.bool true), .jump "Fog"]⟩,
  ⟨"Start", [
    .jump "Sea",
    .branch [
      .mk (some ⟨"GreaterThan", "wind", .number .zero⟩) [
        .choices [
          .mk "Sail" [.assign "EqualToOrAssign" "flag" (.string "up"), .jump "Reef"],
          .mk "Sea" [.jump "Harbour"]]],
      .mk (some ⟨"EqualTo", "crew", .bool true⟩) [],
      .mk (some ⟨"EqualTo", "flag", .bool true⟩) [.jump "Start"],
      .mk (some ⟨"NotEqualTo", "wind", .string "1"⟩) []]]⟩,
  ⟨"Sea", [.choices [.mk "Reef" [], .mk "Whale" [.assign "AddAssign" "crew" (.number .one)]]]⟩]

def voyageListing : Listing where
  name := "voyage"
  blocks := [
    ⟨"Start", [.call ⟨1⟩, .ifThen ⟨.greaterThan, ⟨0⟩, .number .zero⟩, .menu "Sail" ⟨2⟩,
      .menu "Sea" ⟨1⟩, .elseIf ⟨.equals, ⟨2⟩, .bool true⟩, .elseIf ⟨.equals, ⟨1⟩, .bool true⟩,
      .call ⟨0⟩, .elseIf ⟨.notEquals, ⟨0⟩, .number .one⟩, .endIf]⟩,
    ⟨"Sea", [.call ⟨4⟩, .menu "Reef" ⟨3⟩, .menu "Whale" ⟨6⟩]⟩,
    ⟨"Sail", [.set .assign ⟨1⟩ (.string "up"), .call ⟨3⟩]⟩,
    ⟨"Reef", []⟩,
    ⟨"Harbour", [.set .assign ⟨1⟩ (.string "true"), .call ⟨5⟩]⟩,
    ⟨"Fog", []⟩,
    ⟨"Whale", [.set .add ⟨2⟩ (.bool true)]⟩]
  vars := [
    ⟨"wind", .number, .everywhere, .number .zero⟩,
    ⟨"flag", .string, .everywhere, .string ""⟩,
    ⟨"crew", .bool, .everywhere, .bool false⟩]

theorem allocated_voyage :
    voyage.compile { mismatch := .coerce } = .ok ⟨⟨0⟩, voyageListing, []⟩ ∧
      voyageListing.blocks.map (·.name) = (voyage.mentions "Start").eraseDups ∧
      voyageListing.vars.map (·.key) = ((voyage.references "Start").map Prod.fst).eraseDups ∧
      ∃ operand literal, (voyage.references "Start").lookup "flag" = some operand ∧
        operand.literal = .ok literal ∧ literal.kind = .string := by
  have hcompile : voyage.compile { mismatch := .coerce } = .ok ⟨⟨0⟩, voyageListing, []⟩ := by
    decide +kernel
  obtain ⟨_, hblocks, hkeys, hkinds⟩ := allocated (keyed_ofNodes "voyage" _) hcompile rfl
  have hflag : ⟨"flag", .string, .everywhere, .string ""⟩ ∈ voyageListing.vars :=
    List.mem_cons_of_mem _ List.mem_cons_self
  obtain ⟨operand, literal, hlookup, hliteral, hkind⟩ := hkinds _ hflag
  exact ⟨hcompile, hblocks, hkeys, operand, literal, hlookup, hliteral, hkind.symm⟩

end Script

end Dialogue
