import Dialogue.Proofs.Success
import Dialogue.Proofs.Visits

/-!
# The steps of a lowering

`Action.Step` says once what a lowering can do: it asks for blocks that its source
mentions and puts commands into them, a menu entry is named for where it leads,
an assignment has a literal that fits the kinds so far, and a pause is as short as
a directive can ask for. Whatever a session does when it compiles nodes, succeeding
or failing, is made of such steps (`Planned.steps`).
-/

namespace Dialogue

-- ---------------------------------------------------------------------------
-- Names that a source mentions
-- ---------------------------------------------------------------------------

namespace Mentions

mutual

def statement : Statement → List String
  | .jump destination => [destination]
  | .choices options => choices options
  | .branch branches => clauses branches
  | _ => []

def statements : List Statement → List String
  | [] => []
  | first :: rest => statement first ++ statements rest

def choices : List Choice → List String
  | [] => []
  | .mk label body :: rest => label :: statements body ++ choices rest

def clauses : List Clause → List String
  | [] => []
  | .mk _ body :: rest => statements body ++ clauses rest

end

def phrase : Phrase → List String
  | .statement source => statement source
  | .statements source => statements source
  | .choices source => choices source
  | .clauses _ source _ => clauses source

def node (source : Node) : List String := source.name :: statements source.statements

def nodes (sources : List Node) : List String := sources.flatMap node

end Mentions

/-- The first node of each name that is not among those that are started on. -/
def Node.firsts (started : List String) : List Node → List Node
  | [] => []
  | source :: rest =>
    if source.name ∈ started then firsts started rest
    else source :: firsts (source.name :: started) rest

-- ---------------------------------------------------------------------------
-- Steps
-- ---------------------------------------------------------------------------

namespace Action

/-- What can be done for a source that mentions the given names, once names are
declared with the given kinds. -/
inductive Step (policy : MismatchPolicy) (names : List String) (kinds : Kinds) : Action → Prop
  | mention : name ∈ names → Step policy names kinds (.mention name)
  | start : Step policy names kinds (.start name statements)
  | say : target ∈ names → Step policy names kinds (.emit target (.say text))
  | call : target ∈ names → destination ∈ names →
    Step policy names kinds (.emit target (.call destination))
  | menu : target ∈ names → label ∈ names →
    Step policy names kinds (.emit target (.menu label label))
  | set : target ∈ names → conform name (kinds name) policy literal = .ok fitted →
    Step policy names kinds (.emit target (.set operator name fitted))
  | marker (first : Bool) (check : Option Check) : target ∈ names →
    Step policy names kinds (.emit target (.marker first check))
  | endIf : target ∈ names → Step policy names kinds (.emit target .endIf)
  | wait : target ∈ names → seconds < 0x100000000 →
    Step policy names kinds (.emit target (.wait seconds))
  | ignore : Step policy names kinds (.ignore raw)
  | skip : Step policy names kinds (.skip error)

inductive Steps (policy : MismatchPolicy) (names : List String) : Kinds → List Action → Prop
  | nil {kinds : Kinds} : Steps policy names kinds []
  | cons {kinds : Kinds} {action : Action} : Step policy names kinds action →
    Steps policy names (action.kinds kinds) rest → Steps policy names kinds (action :: rest)

namespace Steps

variable {policy : MismatchPolicy} {names : List String} {kinds : Kinds}

theorem single (h : Step policy names kinds action) : Steps policy names kinds [action] :=
  .cons h .nil

theorem append (hfirst : Steps policy names kinds first)
    (hrest : Steps policy names (kinds.after first) rest) :
    Steps policy names kinds (first ++ rest) := by
  induction hfirst with
  | nil => exact hrest
  | cons hstep _ ih => exact .cons hstep (ih hrest)

theorem andThen {first next : Plan} (hfirst : Steps policy names kinds first.actions)
    (hnext : Steps policy names (kinds.after first.actions) next.actions) :
    Steps policy names kinds (first.andThen next).actions := by
  unfold Plan.andThen
  split
  · exact hfirst
  · exact hfirst.append hnext

theorem recovering {plan : Plan} (h : Steps policy names kinds plan.actions) :
    Steps policy names kinds plan.recovering.actions := by
  unfold Plan.recovering
  split
  · split
    · exact h
    · exact h.append (.single .skip)
  · exact h

theorem exists_step (h : Steps policy names kinds actions) (hmem : action ∈ actions) :
    ∃ kinds, Step policy names kinds action := by
  induction h with
  | nil => cases hmem
  | cons hstep _ ih =>
    rcases List.mem_cons.mp hmem with rfl | hrest
    · exact ⟨_, hstep⟩
    · exact ih hrest

end Steps

end Action

-- ---------------------------------------------------------------------------
-- Plans take steps
-- ---------------------------------------------------------------------------

theorem Directive.lt_of_parse (h : Directive.parse raw = .ok (some (.wait seconds))) :
    seconds < 0x100000000 := by
  unfold parse at h
  split at h
  · cases h
  · split at h
    · rename_i hseconds
      cases h
      unfold seconds? at hseconds
      split at hseconds
      · cases hseconds
      · split at hseconds
        · rename_i hbound
          cases hseconds
          exact hbound.2
        · cases hseconds
    · cases h
  · cases h

open Dialogue.Action (Steps)

variable {policy : MismatchPolicy} {names : List String}

theorem Statement.Emits.step {source : Statement} {kinds : Kinds}
    (h : source.Emits policy kinds command) (htarget : target ∈ names)
    (hnames : Mentions.statement source ⊆ names) :
    Action.Step policy names kinds (.emit target command) := by
  cases h with
  | line => exact .say htarget
  | jump => exact .call htarget (hnames (by simp [Mentions.statement]))
  | wait hparse => exact .wait htarget (Directive.lt_of_parse hparse)
  | assign _ _ hfitted => exact .set htarget hfitted

theorem Planned.steps (h : Planned policy target kinds phrase plan) (htarget : target ∈ names)
    (hnames : Mentions.phrase phrase ⊆ names) : Steps policy names kinds plan.actions := by
  induction h with
  | emit hemits => exact .single (hemits.step htarget hnames)
  | ignore _ => exact .single .ignore
  | malformed _ | rejected _ | unsupported | nil | noChoice | noClause => exact .nil
  | menu _ ih =>
    simp only [Mentions.phrase, Mentions.statement] at hnames
    exact ih htarget hnames
  | branch _ _ ih =>
    simp only [Mentions.phrase, Mentions.statement] at hnames
    exact (ih htarget hnames).andThen (.single (.endIf htarget))
  | cons _ _ hfirst hrest =>
    simp only [Mentions.phrase, Mentions.statements, List.append_subset] at hnames
    exact (hfirst htarget hnames.1).recovering.andThen (hrest htarget hnames.2)
  | choice _ _ hbody hrest =>
    simp only [Mentions.phrase, Mentions.choices, List.append_subset, List.cons_subset] at hnames
    obtain ⟨⟨hlabel, hinside⟩, hlater⟩ := hnames
    refine Steps.andThen (Steps.andThen (.single (.menu htarget hlabel)) ?_) (hrest htarget hlater)
    exact hbody hlabel hinside
  | clause _ _ _ _ hbody hrest =>
    simp only [Mentions.phrase, Mentions.clauses, List.append_subset] at hnames
    refine Steps.andThen (Steps.andThen (.single (.marker _ _ htarget)) ?_)
      (hrest htarget hnames.2)
    exact hbody htarget hnames.1

namespace Plan

/-- Of a node that is begun already only the name is mentioned. -/
theorem steps_node {kinds : Kinds} {started : List String} {source : Node}
    (hname : source.name ∈ names)
    (hbody : source.name ∉ started → Mentions.statements source.statements ⊆ names) :
    Steps policy names kinds (node policy kinds started source).actions := by
  unfold node
  split
  · exact .single (.mention hname)
  · rename_i hnew
    refine Steps.andThen (.cons (.mention hname) (.single .start)) ?_
    exact (planned_statements source.statements).steps hname (hbody hnew)

theorem steps_nodes {kinds : Kinds} {sources : List Node} (started : List String)
    (hnames : Mentions.nodes sources ⊆ names) :
    Steps policy names kinds (nodes policy kinds started sources).actions := by
  induction sources generalizing kinds started with
  | nil => exact .nil
  | cons source rest ih =>
    simp only [Mentions.nodes, List.flatMap_cons, List.append_subset] at hnames
    obtain ⟨hname, hbody⟩ := List.cons_subset.mp hnames.1
    exact (steps_node hname fun _ => hbody).andThen (ih _ hnames.2)

theorem steps_visits {kinds : Kinds} {sources : List Node} {started : List String}
    (hstarted : started ⊆ names) (hnames : Mentions.nodes (Node.firsts started sources) ⊆ names) :
    Steps policy names kinds (visits policy kinds started sources) := by
  induction sources generalizing kinds started with
  | nil => exact .nil
  | cons source rest ih =>
    rw [visits, started_node]
    by_cases hold : source.name ∈ started
    · rw [Node.firsts, if_pos hold] at hnames
      rw [if_pos hold]
      exact (steps_node (hstarted hold) (absurd hold)).append (ih hstarted hnames)
    · rw [Node.firsts, if_neg hold, Mentions.nodes, List.flatMap_cons, List.append_subset] at hnames
      obtain ⟨hname, hbody⟩ := List.cons_subset.mp hnames.1
      rw [if_neg hold]
      exact (steps_node hname fun _ => hbody).append
        (ih (List.cons_subset.mpr ⟨hname, hstarted⟩) hnames.2)

end Plan

end Dialogue
