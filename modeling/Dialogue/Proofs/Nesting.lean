import Dialogue.Proofs.Outcome
import Dialogue.Proofs.Success

/-!
# Conditionals are nested

The commands of a block are a sequence of plain commands and whole conditionals,
`Script.sequence_commands`. Several nodes, menus and clauses may write to one
block, and a menu inside a clause may come back to the block whose conditional is
still open; each of them adds a sequence, and a sequence may stand wherever one
of its commands may.
-/

namespace Dialogue

-- ---------------------------------------------------------------------------
-- The grammar of conditionals
-- ---------------------------------------------------------------------------

inductive Role
  | plain
  | ifThen
  | elseIf
  | otherwise
  | endIf
  deriving DecidableEq, Repr

def Command.role : Command → Role
  | .ifThen _ => .ifThen
  | .elseIf _ => .elseIf
  | .otherwise => .otherwise
  | .endIf => .endIf
  | .say _ | .menu _ _ | .call _ | .set _ _ _ | .wait _ => .plain

namespace Role

mutual

inductive Sequence : List Role → Prop
  | nil : Sequence []
  | plain : Sequence rest → Sequence (.plain :: rest)
  | conditional : Conditional first → Sequence rest → Sequence (first ++ rest)

/-- A last resort may stand alone. -/
inductive Conditional : List Role → Prop
  | ifThen : Sequence body → Alternatives rest → Conditional (.ifThen :: body ++ rest)
  | otherwise : Sequence body → Conditional (.otherwise :: body ++ [.endIf])

inductive Alternatives : List Role → Prop
  | endIf : Alternatives [.endIf]
  | otherwise : Sequence body → Alternatives (.otherwise :: body ++ [.endIf])
  | elseIf : Sequence body → Alternatives rest → Alternatives (.elseIf :: body ++ rest)

end

theorem Sequence.append : Sequence first → Sequence rest → Sequence (first ++ rest)
  | .nil, hrest => hrest
  | .plain hfirst, hrest => .plain (hfirst.append hrest)
  | .conditional hcond hfirst, hrest => by
    rw [List.append_assoc]
    exact .conditional hcond (hfirst.append hrest)

theorem Sequence.of_conditional (h : Conditional word) : Sequence word := by
  simpa using Sequence.conditional h .nil

end Role

-- ---------------------------------------------------------------------------
-- Well-formed branches
-- ---------------------------------------------------------------------------

namespace WellBranched

mutual

/-- Every branch has a clause, and only its last clause may lack a condition. -/
def statement : Statement → Prop
  | .choices options => choices options
  | .branch branches => branches ≠ [] ∧ clauses branches
  | _ => True

def statements : List Statement → Prop
  | [] => True
  | first :: rest => statement first ∧ statements rest

def choices : List Choice → Prop
  | [] => True
  | .mk _ body :: rest => statements body ∧ choices rest

def clauses : List Clause → Prop
  | [] => True
  | .mk condition body :: rest =>
    (condition = none → rest = []) ∧ statements body ∧ clauses rest

end

def phrase : Phrase → Prop
  | .statement source => statement source
  | .statements source => statements source
  | .choices source => choices source
  | .clauses first source _ => (first = true → source ≠ []) ∧ clauses source

end WellBranched

def Script.WellBranched (script : Script) : Prop :=
  ∀ entry ∈ script.nodes.entries, WellBranched.statements entry.2.statements

-- ---------------------------------------------------------------------------
-- Roles of emitted commands
-- ---------------------------------------------------------------------------

def NamedCommand.role : NamedCommand → Role
  | .ifThen _ => .ifThen
  | .elseIf _ => .elseIf
  | .otherwise => .otherwise
  | .endIf => .endIf
  | .say _ | .menu _ _ | .call _ | .set _ _ _ | .wait _ => .plain

theorem NamedCommand.role_resolve {σ : Type} [Host σ] (session : Session σ)
    (command : NamedCommand) : (command.resolve session).role = command.role := by
  cases command <;> rfl

namespace Action

variable {into : String → Bool}

def roles (into : String → Bool) (actions : List Action) : List Role :=
  ((emissions actions).filter fun emission => into emission.1).map fun emission => emission.2.role

@[simp] theorem roles_nil : roles into [] = [] := rfl

@[simp] theorem roles_append (first rest : List Action) :
    roles into (first ++ rest) = roles into first ++ roles into rest := by
  simp [roles]

theorem roles_emit (target : String) (command : NamedCommand) (rest : List Action) :
    roles into (.emit target command :: rest) =
      (if into target then [command.role] else []) ++ roles into rest := by
  cases h : into target <;> simp [roles, h]

theorem roles_emit_append (target : String) (command : NamedCommand) (body rest : List Action) :
    roles into (.emit target command :: body ++ rest) =
      roles into [.emit target command] ++ (roles into body ++ roles into rest) := by
  rw [List.cons_append, ← List.singleton_append, roles_append, roles_append]

theorem sequence_emit {command : NamedCommand} (h : command.role = .plain) (target : String) :
    Role.Sequence (roles into [.emit target command]) := by
  rw [roles_emit, h]
  cases into target
  · exact .nil
  · exact .plain .nil

end Action

-- ---------------------------------------------------------------------------
-- Every lowering adds a sequence to every block
-- ---------------------------------------------------------------------------

open Role (Sequence Conditional Alternatives)

variable {into : String → Bool} {policy : MismatchPolicy}

theorem Statement.Emits.role_eq {source : Statement} {kinds : Kinds}
    (h : source.Emits policy kinds command) : command.role = .plain := by
  cases h <;> rfl

/-- What a phrase adds to a block. In the block of their branch, the clauses add a
conditional that is not closed yet, or what is left of one. -/
def Phrase.Adds (home : Bool) : Phrase → List Role → Prop
  | .clauses true _ _, word => if home then Conditional (word ++ [.endIf]) else Sequence word
  | .clauses false _ _, word => if home then Alternatives (word ++ [.endIf]) else Sequence word
  | _, word => Sequence word

theorem Phrase.adds_clauses_false {word : List Role} :
    (Phrase.clauses first source found).Adds false word ↔ Sequence word := by
  cases first <;> rfl

theorem Phrase.adds_clause {kinds : Kinds} (hpasses : kinds.Passes policy condition check)
    (hlast : condition = none → rest = []) (hbody : Sequence body)
    (hrest : Alternatives (more ++ [.endIf])) (hnil : rest = [] → more = []) :
    (Phrase.clauses first (.mk condition inside :: rest) (check :: found)).Adds true
      ((NamedCommand.marker first check).role :: body ++ more) := by
  cases hpasses with
  | always =>
    rw [hnil (hlast rfl), List.append_nil]
    cases first with
    | true => exact Conditional.otherwise hbody
    | false => exact Alternatives.otherwise hbody
  | compared _ _ _ =>
    cases first with
    | true =>
      have hword := Conditional.ifThen hbody hrest
      rwa [← List.append_assoc] at hword
    | false =>
      have hword := Alternatives.elseIf hbody hrest
      rwa [← List.append_assoc] at hword

theorem Lowered.adds (h : Lowered policy target kinds phrase actions)
    (hshape : WellBranched.phrase phrase) :
    phrase.Adds (into target) (Action.roles into actions) := by
  induction h with
  | emit hemits => exact Action.sequence_emit hemits.role_eq _
  | ignore _ => exact .nil
  | unsupported => exact .nil
  | menu _ ih =>
    simp only [WellBranched.phrase, WellBranched.statement] at hshape
    exact ih hshape
  | @branch kinds branches found target actions _ _ ih =>
    have hclauses := ih ⟨fun _ => hshape.1, hshape.2⟩
    show Sequence _
    rw [Action.roles_append, Action.roles_emit]
    -- Other blocks see only what the bodies do; the block of the branch sees its markers too.
    cases hinto : into target with
    | false =>
      rw [hinto] at hclauses
      simpa using Phrase.adds_clauses_false.mp hclauses
    | true =>
      rw [hinto] at hclauses
      exact .of_conditional hclauses
  | nil => exact .nil
  | cons _ _ hfirst hrest =>
    rw [Action.roles_append]
    exact Sequence.append (hfirst hshape.1) (hrest hshape.2)
  | skip _ _ ih => exact ih hshape.2
  | noChoice => exact .nil
  | choice _ _ hbody hrest =>
    rw [Action.roles_emit_append]
    exact Sequence.append (Action.sequence_emit rfl _)
      (Sequence.append (hbody hshape.1) (hrest hshape.2))
  | @noClause target kinds first =>
    cases hinto : into target with
    | false => exact Phrase.adds_clauses_false.mpr .nil
    | true =>
      cases first with
      | true => exact absurd rfl (hshape.1 rfl)
      | false => exact Alternatives.endIf
  | @clause condition check target body actions rest found more kinds first checked hpasses _ _
      hlowered hbody hrest =>
    obtain ⟨_, hlast, hshapeBody, hshapeRest⟩ := hshape
    have hinside : Sequence (Action.roles into actions) := hbody hshapeBody
    have hlater := hrest ⟨nofun, hshapeRest⟩
    rw [Action.roles_emit_append, Action.roles_emit]
    cases hinto : into target with
    | false =>
      rw [hinto, Phrase.adds_clauses_false] at hlater
      exact Phrase.adds_clauses_false.mpr (hinside.append hlater)
    | true =>
      rw [hinto] at hlater
      have hnil : rest = [] → Action.roles into more = [] := by
        rintro rfl
        cases hlowered
        rfl
      show Phrase.Adds true _ (_ :: Action.roles into actions ++ Action.roles into more)
      exact Phrase.adds_clause hpasses hlast hinside hlater hnil

theorem Plan.sequence_nodes {kinds : Kinds} {started : List String} {order : List Node}
    (hshape : ∀ node ∈ order, WellBranched.statements node.statements)
    (h : (nodes policy kinds started order).failure = none) :
    Sequence (Action.roles into (nodes policy kinds started order).actions) := by
  induction order generalizing kinds started with
  | nil => exact .nil
  | cons source rest ih =>
    have hshapeRest := fun node hnode => hshape node (List.mem_cons_of_mem source hnode)
    rcases nodes_cons_cases h with ⟨_, hrest, hactions⟩ | ⟨_, body, hbody, hrest, hactions⟩
    · rw [hactions]
      exact ih hshapeRest hrest
    · have hstatements : Sequence (Action.roles into body) :=
        hbody.adds (hshape source List.mem_cons_self)
      rw [hactions, Action.roles_append]
      exact hstatements.append (ih hshapeRest hrest)

namespace Script

variable {script : Script} {options : Options}

theorem sequence_plan (hshape : script.WellBranched)
    (h : (script.plan options).failure = none) (into : String → Bool) :
    Role.Sequence (Action.roles into (script.plan options).actions) := by
  obtain ⟨first, hfirst⟩ := find?_of_failure_eq_none h
  rw [plan_eq hfirst] at h ⊢
  have hnodes := (Plan.failure_andThen_eq_none.mp h).1
  rw [Plan.actions_andThen hnodes, Action.roles_append]
  have horder : ∀ node ∈ first :: script.others options.entry,
      WellBranched.statements node.statements := by
    intro node hnode
    rcases List.mem_cons.mp hnode with rfl | hother
    · exact hshape _ (Table.mem_of_find? hfirst)
    · obtain ⟨entry, hentry, rfl⟩ := List.mem_map.mp hother
      exact hshape entry (List.mem_filter.mp hentry).1
  exact (Plan.sequence_nodes horder hnodes).append .nil

theorem roles_compilation (script : Script) (options : Options)
    (hcount : (script.compilation options).ledger.host.listing.commands.length ≤ UInt32.size)
    {position : Nat} {block : BlockListing}
    (hblock : (script.compilation options).ledger.host.listing.blocks[position]? = some block) :
    block.commands.map Command.role =
      Action.roles (fun name => ((script.compilation options).blockOf name).index.toNat = position)
        (script.plan options).actions := by
  rw [script.commands_compilation options hcount hblock, List.map_map]
  simp only [Function.comp_def, NamedCommand.role_resolve, Action.roles]

/-- If every branch of a script is well formed, the commands of every block that
it compiles to are a sequence of plain commands and whole conditionals. -/
theorem sequence_commands {script : Script} {options : Options} {compiled : Compiled}
    (hshape : script.WellBranched) (hcompile : script.compile options = .ok compiled)
    (hcount : compiled.flowchart.commands.length ≤ UInt32.size) :
    ∀ block ∈ compiled.flowchart.blocks, Role.Sequence (block.commands.map Command.role) := by
  intro block hblock
  obtain ⟨hplan, rfl⟩ := compile_eq_ok_iff.mp hcompile
  obtain ⟨position, hposition⟩ := List.mem_iff_getElem?.mp hblock
  rw [script.roles_compilation options hcount hposition]
  exact sequence_plan hshape hplan _

/-- A menu inside an open conditional adds another one to the same block; a branch
that has only a last resort follows, and a branch that is skipped whole. -/
def reentry : Script := .ofNodes "" [
  ⟨"Start", [
    .branch [
      .mk (some ⟨"EqualTo", "x", .bool true⟩) [
        .choices [.mk "Start" [
          .branch [
            .mk (some ⟨"EqualTo", "y", .bool true⟩) [.line "Both."],
            .mk none []]]]],
      .mk (some ⟨"EqualTo", "y", .bool false⟩) [.line "Neither."]],
    .branch [.mk none [.line "Anyway."]],
    .branch [.mk (some ⟨"Resembles", "x", .bool true⟩) [.line "Never."]]]⟩]

def reentryListing : Listing where
  name := ""
  blocks := [⟨"Start", [
    .ifThen ⟨.equals, ⟨0⟩, .bool true⟩, .menu "Start" ⟨0⟩,
    .ifThen ⟨.equals, ⟨1⟩, .bool true⟩, .say "Both.", .otherwise, .endIf,
    .elseIf ⟨.equals, ⟨1⟩, .bool false⟩, .say "Neither.", .endIf,
    .otherwise, .say "Anyway.", .endIf]⟩]
  vars := [⟨"x", .bool, .everywhere, .bool false⟩, ⟨"y", .bool, .everywhere, .bool false⟩]

theorem sequence_commands_reentry :
    reentry.WellBranched ∧
      reentry.compile {} =
        .ok ⟨⟨0⟩, reentryListing, [⟨"Start", "unknown comparison function: Resembles"⟩]⟩ ∧
      Role.Sequence [.ifThen, .plain, .ifThen, .plain, .otherwise, .endIf, .elseIf, .plain, .endIf,
        .otherwise, .plain, .endIf] := by
  have hshape : reentry.WellBranched := by
    simp [WellBranched, reentry, ofNodes, Table.ofList, Table.insert, Table.insertIn, Table.empty,
      WellBranched.statements, WellBranched.statement, WellBranched.clauses, WellBranched.choices]
  have hcompile : reentry.compile {} =
      .ok ⟨⟨0⟩, reentryListing, [⟨"Start", "unknown comparison function: Resembles"⟩]⟩ := by
    decide +kernel
  have hblocks := sequence_commands hshape hcompile (by decide)
  exact ⟨hshape, hcompile, hblocks _ List.mem_cons_self⟩

end Script

end Dialogue
