import Dialogue.Proofs.Conditions
import Dialogue.Proofs.Steps

/-!
# Variables keep their kind

In a flowchart that a session has filled node by node, a key has one variable, the
registry knows just the keys of the flowchart with the place and the kind of their
variables, every variable holds the zero of its kind, and whatever is assigned to
a variable is of its kind. What has been declared stays where it is, as it is
(`Session.typed_visits`).
-/

namespace Dialogue

open Dialogue.Action (Step Steps)

-- ---------------------------------------------------------------------------
-- Kinds of what is assigned
-- ---------------------------------------------------------------------------

namespace Action

variable {policy : MismatchPolicy} {names : List String} {kinds : Kinds}

theorem Step.kind_of_set (h : Step policy names kinds (.emit target command))
    (hset : command = .set operator name value) :
    kinds.afterCommand command name = some value.kind := by
  cases h with
  | set _ hconform =>
    cases hset
    simp only [Kinds.afterCommand, Kinds.declare]
    cases hkind : kinds name with
    | none => simp
    | some kind =>
      rw [hkind] at hconform
      rw [Option.some_or, kind_of_conform hconform]
  | marker first check _ => cases check <;> cases first <;> cases hset
  | _ => cases hset

/-- What is assigned has the kind that its variable ends up with, since a later
action declares nothing anew. -/
theorem Steps.kind_of_set (h : Steps policy names kinds actions)
    (hmem : .emit target (.set operator name value) ∈ actions) :
    kinds.after actions name = some value.kind := by
  induction h with
  | nil => cases hmem
  | @cons rest kinds action hstep _ ih =>
    rw [Kinds.after_cons]
    rcases List.mem_cons.mp hmem with rfl | hrest
    · exact Kinds.grows_after _ rest _ _ (hstep.kind_of_set rfl)
    · exact ih hrest

end Action

-- ---------------------------------------------------------------------------
-- Variables of a flowchart
-- ---------------------------------------------------------------------------

def Variable.declared (declaration : String × Kind) : Variable :=
  ⟨declaration.1, declaration.2, .everywhere, .zero declaration.2⟩

namespace Session

variable {session : Session Flowchart}

/-- The flowchart has the same variables and then some that are as declared. -/
def AddsVariables (before after : Session Flowchart) : Prop :=
  ∃ declarations : List (String × Kind), after.ledger.host.vars.toList =
    before.ledger.host.vars.toList ++ declarations.map .declared

theorem AddsVariables.of_eq {before after : Session Flowchart}
    (h : after.ledger.host.vars = before.ledger.host.vars) : AddsVariables before after :=
  ⟨[], by simp [h]⟩

theorem AddsVariables.trans {first second third : Session Flowchart}
    (hfirst : AddsVariables first second) (hsecond : AddsVariables second third) :
    AddsVariables first third := by
  obtain ⟨earlier, hearlier⟩ := hfirst
  obtain ⟨later, hlater⟩ := hsecond
  exact ⟨earlier ++ later, by rw [hlater, hearlier, List.map_append, List.append_assoc]⟩

theorem AddsVariables.size_le {before after : Session Flowchart} (h : AddsVariables before after) :
    before.ledger.host.vars.size ≤ after.ledger.host.vars.size := by
  obtain ⟨declarations, hafter⟩ := h
  have hlength := congrArg List.length hafter
  simp only [Array.length_toList, List.length_append] at hlength
  omega

theorem vars_withBlock (session : Session Flowchart) (name : String) :
    (session.withBlock name).ledger.host.vars = session.ledger.host.vars := by
  cases hfind : session.blocks.find? name with
  | some block => rw [withBlock_of_find? hfind]
  | none => rw [host_withBlock hfind]

/-- The zero goes to the variable that has just been made, as long as every
variable has an identifier of its own. -/
theorem vars_withVariable_of_new (hfind : session.vars.find? name = none) (kind : Kind)
    (hsize : (session.withVariable name kind).ledger.host.vars.size ≤ UInt32.size) :
    (session.withVariable name kind).ledger.host.vars.toList =
      session.ledger.host.vars.toList ++ [.declared (name, kind)] := by
  rw [host_withVariable hfind, Array.size_modify, Array.size_push] at hsize
  have hlast : session.ledger.host.vars.size.toUInt32.toNat = session.ledger.host.vars.size :=
    UInt32.toNat_ofNat_of_lt' hsize
  rw [host_withVariable hfind, hlast, Flowchart.modify_push_of_eq rfl, Array.toList_push]
  rfl

theorem addsVariables_withVariable (name : String) (kind : Kind)
    (hsize : (session.withVariable name kind).ledger.host.vars.size ≤ UInt32.size) :
    AddsVariables session (session.withVariable name kind) := by
  cases hfind : session.vars.find? name with
  | some found => exact .of_eq (by rw [withVariable_of_find? hfind])
  | none => exact ⟨[(name, kind)], vars_withVariable_of_new hfind kind hsize⟩

theorem addsVariables_declare (command : NamedCommand)
    (hsize : (command.declare session).ledger.host.vars.size ≤ UInt32.size) :
    AddsVariables session (command.declare session) := by
  obtain hsame | ⟨name, hblock⟩ | ⟨name, kind, hvar⟩ := command.declare_cases session
  · exact .of_eq (by rw [hsame])
  · rw [hblock]
    exact .of_eq (session.vars_withBlock name)
  · rw [hvar] at hsize ⊢
    exact addsVariables_withVariable name kind hsize

theorem addsVariables_action (action : Action)
    (hsize : (action.perform session).ledger.host.vars.size ≤ UInt32.size) :
    AddsVariables session (action.perform session) := by
  cases action with
  | mention name => exact .of_eq (session.vars_withBlock name)
  | emit target command =>
    have hopen : AddsVariables session (session.withBlock target) :=
      .of_eq (session.vars_withBlock target)
    exact hopen.trans (addsVariables_declare command hsize)
  | _ => exact .of_eq rfl

theorem addsVariables_perform (actions : List Action)
    (hsize : (session.perform actions).ledger.host.vars.size ≤ UInt32.size) :
    AddsVariables session (session.perform actions) := by
  induction actions generalizing session with
  | nil => exact .of_eq rfl
  | cons action rest ih =>
    have hrest := ih hsize
    exact (addsVariables_action action (Nat.le_trans hrest.size_le hsize)).trans hrest

-- ---------------------------------------------------------------------------
-- Typed sessions
-- ---------------------------------------------------------------------------

/-- The registry, the values and the assignments of a session agree with the kinds
of the variables in its flowchart. -/
structure Typed (session : Session Flowchart) : Prop where
  keys : (session.ledger.host.vars.toList.map (·.key)).Nodup
  registered : ∀ name found, session.vars.find? name = some found ↔
    ∃ listed, session.ledger.host.variableAt? found.id = some listed ∧
      listed.key = name ∧ listed.kind = found.kind
  values : ∀ listed ∈ session.ledger.host.vars.toList, listed.value = .zero listed.kind
  assignments : ∀ operator subject value,
    .set operator subject value ∈ session.ledger.host.commands.toList →
      ∃ listed, session.ledger.host.variableAt? subject = some listed ∧ listed.kind = value.kind

/-- Whatever is declared before has the same place and the same kind after, in the
registry and in the flowchart. -/
structure KeepsVariables (before after : Session Flowchart) : Prop where
  registry : ∀ name found, before.vars.find? name = some found →
    after.vars.find? name = some found
  vars : before.ledger.host.vars.toList <+: after.ledger.host.vars.toList

theorem keepsVariables_perform (actions : List Action)
    (hsize : (session.perform actions).ledger.host.vars.size ≤ UInt32.size) :
    session.KeepsVariables (session.perform actions) where
  registry _ _ hfind := vars_find?_perform actions hfind
  vars := by
    obtain ⟨declarations, hvars⟩ := addsVariables_perform actions hsize
    exact ⟨declarations.map .declared, hvars.symm⟩

theorem Indexed.find?_vars_iff (h : session.Indexed)
    (hsize : session.ledger.host.vars.size ≤ UInt32.size) (name : String) (found : Declaration) :
    session.vars.find? name = some found ↔
      ∃ listed, session.ledger.host.variableAt? found.id = some listed ∧
        listed.key = name ∧ listed.kind = found.kind := by
  constructor
  · intro hfind
    obtain ⟨listed, hlisted, hkey, hkind⟩ := h.variable_of_find? hsize hfind
    rw [Flowchart.listing, Array.getElem?_toList] at hlisted
    exact ⟨listed, hlisted, hkey, hkind⟩
  · rintro ⟨listed, hlisted, rfl, hkind⟩
    refine (h.vars.find?_iff h.keys listed.key found).mpr
      ⟨found.id.index.toNat, (listed.key, listed.kind), ?_, rfl, ?_⟩
    · rw [Flowchart.variableAt?, ← Array.getElem?_toList] at hlisted
      rw [Flowchart.declarations, List.getElem?_map, hlisted]
      rfl
    · simp [hkind]

theorem kind_of_assigned {options : Options} {actions : List Action}
    (hsteps : Steps options.mismatch names .none actions)
    (hsize : ((fresh ({ name } : Flowchart) options).perform
      actions).ledger.host.vars.size ≤ UInt32.size)
    (h : .set operator subject value ∈
      ((fresh ({ name } : Flowchart) options).perform actions).ledger.host.commands.toList) :
    ∃ listed, ((fresh ({ name } : Flowchart) options).perform
      actions).ledger.host.variableAt? subject = some listed ∧ listed.kind = value.kind := by
  have hindexed := (indexed_fresh name options).perform actions
  obtain ⟨target, emitted, hmem, hknown, hresolve⟩ := exists_emission h
  cases emitted with
  | set _ variableName literal =>
    cases hresolve
    obtain ⟨found, hfound⟩ := hknown
    obtain ⟨listed, hlisted, _, hkind⟩ := (hindexed.find?_vars_iff hsize _ found).mp hfound
    have hdeclared : ((fresh ({ name } : Flowchart) options).perform actions).kinds
        variableName = some value.kind := by
      rw [kinds_perform]
      exact hsteps.kind_of_set hmem
    rw [kinds, VariableRegistry.kind?, hfound] at hdeclared
    rw [variableOf_of_find? hfound]
    exact ⟨listed, hlisted, hkind.trans (Option.some.inj hdeclared)⟩
  | _ => cases hresolve

/-- Variables keep their place and their kind through any nodes, whether these
compile or fail, and are assigned nothing else than that kind. -/
theorem typed_visits (name : String) (options : Options) (earlier later : List Node)
    (hsize : ((fresh ({ name } : Flowchart) options).visits
      (earlier ++ later)).ledger.host.vars.size ≤ UInt32.size) :
    Typed ((fresh ({ name } : Flowchart) options).visits (earlier ++ later)) ∧
      KeepsVariables ((fresh ({ name } : Flowchart) options).visits earlier)
        ((fresh ({ name } : Flowchart) options).visits (earlier ++ later)) := by
  have hkeeps : KeepsVariables ((fresh ({ name } : Flowchart) options).visits earlier)
      ((fresh ({ name } : Flowchart) options).visits (earlier ++ later)) := by
    rw [visits_append, visits_eq (visits _ earlier)] at hsize ⊢
    exact keepsVariables_perform _ hsize
  refine ⟨?_, hkeeps⟩
  rw [visits_fresh] at hsize ⊢
  have hsteps : Steps options.mismatch (Mentions.nodes (Node.firsts [] (earlier ++ later))) .none
      (Plan.visits options.mismatch .none [] (earlier ++ later)) :=
    Plan.steps_visits (List.nil_subset _) (List.Subset.refl _)
  have hindexed := (indexed_fresh name options).perform
    (Plan.visits options.mismatch .none [] (earlier ++ later))
  refine ⟨?_, hindexed.find?_vars_iff hsize, ?_, ?_⟩
  · have hkeys := hindexed.keys
    rwa [Flowchart.declarations, List.map_map] at hkeys
  · obtain ⟨declarations, hvars⟩ := addsVariables_perform _ hsize
    intro listed hlisted
    rw [hvars] at hlisted
    have hnew := (List.mem_append.mp hlisted).resolve_left List.not_mem_nil
    obtain ⟨declaration, _, rfl⟩ := List.mem_map.mp hnew
    rfl
  · intro operator subject value hset
    exact kind_of_assigned hsteps hsize hset

def declaring : List Node := [
  ⟨"Start", [
    .branch [.mk (some ⟨"EqualTo", "guest", .bool true⟩) [
      .assign "EqualToOrAssign" "gold" (.number .zero),
      .directive "wait"]]]⟩]

/-- The first two assignments are made to fit, the third cannot be. -/
def assigning : List Node := [
  ⟨"Inn", [
    .assign "EqualToOrAssign" "guest" (.string " false "),
    .assign "EqualToOrAssign" "gold" (.bool true),
    .assign "EqualToOrAssign" "guest" (.string "maybe"),
    .assign "EqualToOrAssign" "host" (.string "maybe")]⟩]

def assignedChart : Flowchart where
  blocks := #[⟨"Start", #[⟨0⟩, ⟨1⟩]⟩, ⟨"Inn", #[⟨2⟩, ⟨3⟩, ⟨4⟩]⟩]
  commands := #[
    .ifThen ⟨.equals, ⟨0⟩, .bool true⟩,
    .set .assign ⟨1⟩ (.number .zero),
    .set .assign ⟨0⟩ (.bool false),
    .set .assign ⟨1⟩ (.number .one),
    .set .assign ⟨2⟩ (.string "maybe")]
  vars := #[
    ⟨"guest", .bool, .everywhere, .bool false⟩,
    ⟨"gold", .number, .everywhere, .number .zero⟩,
    ⟨"host", .string, .everywhere, .string ""⟩]

theorem typed_visits_assigning :
    ((fresh ({} : Flowchart) { mismatch := .coerce }).visits
        (declaring ++ assigning)).ledger.host = assignedChart ∧
      Typed ((fresh ({} : Flowchart) { mismatch := .coerce }).visits (declaring ++ assigning)) ∧
      KeepsVariables ((fresh ({} : Flowchart) { mismatch := .coerce }).visits declaring)
        ((fresh ({} : Flowchart) { mismatch := .coerce }).visits (declaring ++ assigning)) := by
  have hhost : ((fresh ({} : Flowchart) { mismatch := .coerce }).visits
      (declaring ++ assigning)).ledger.host = assignedChart := by decide +kernel
  refine ⟨hhost, typed_visits "" { mismatch := .coerce } declaring assigning ?_⟩
  rw [hhost]
  decide

end Session

end Dialogue
