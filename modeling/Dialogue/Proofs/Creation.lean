import Dialogue.Proofs.Keyed
import Dialogue.Proofs.Outcome
import Dialogue.Proofs.Success

/-!
# What is created, and in which order

A registry grows at its end, and only by names that it does not have yet. So the
blocks of a session after some actions are those before them and then the names
that the actions ask for, each where it is asked for first
(`Session.keys_perform`). Variables are created in the same way, with the kinds
that they are first declared with (`Session.declared_perform`).
-/

namespace Dialogue

-- ---------------------------------------------------------------------------
-- Lists without two items of one key
-- ---------------------------------------------------------------------------

def enroll (key : α → String) (known : List α) (item : α) : List α :=
  if key item ∈ known.map key then known else known ++ [item]

def enrollAll (key : α → String) (known items : List α) : List α := items.foldl (enroll key) known

section

variable {key : α → String} {known items : List α}

theorem mem_enroll (h : found ∈ enroll key known item) : found ∈ known ∨ found = item := by
  unfold enroll at h
  split at h
  · exact .inl h
  · exact (List.mem_append.mp h).imp_right List.mem_singleton.mp

theorem prefix_enroll (item : α) : known <+: enroll key known item := by
  unfold enroll
  split
  · exact List.prefix_rfl
  · exact List.prefix_append known [item]

theorem prefix_enrollAll : known <+: enrollAll key known items := by
  induction items generalizing known with
  | nil => exact List.prefix_rfl
  | cons item rest ih => exact (prefix_enroll item).trans ih

theorem mem_of_enrollAll (h : found ∈ enrollAll key known items) :
    found ∈ known ∨ found ∈ items := by
  induction items generalizing known with
  | nil => exact .inl h
  | cons item rest ih =>
    rcases ih h with hknown | hrest
    · rcases mem_enroll hknown with hold | rfl
      · exact .inl hold
      · exact .inr List.mem_cons_self
    · exact .inr (List.mem_cons_of_mem _ hrest)

theorem key_mem_enroll (item : α) : key item ∈ (enroll key known item).map key := by
  unfold enroll
  split
  · assumption
  · exact List.mem_map_of_mem (List.mem_append_right known (List.mem_singleton_self item))

theorem key_mem_enrollAll (key : α → String) (h : item ∈ items) :
    key item ∈ (enrollAll key known items).map key := by
  induction items generalizing known with
  | nil => cases h
  | cons first rest ih =>
    rcases List.mem_cons.mp h with rfl | hrest
    · have hlater : enroll key known item <+: enrollAll key known (item :: rest) := prefix_enrollAll
      exact (hlater.map key).subset (key_mem_enroll item)
    · exact ih hrest

/-- Where items with one key are the same, no item is lost. -/
theorem mem_enrollAll_iff
    (hkey : ∀ first ∈ items, ∀ second ∈ items, key first = key second → first = second) :
    found ∈ enrollAll key [] items ↔ found ∈ items := by
  have hmem {other : α} (h : other ∈ enrollAll key [] items) : other ∈ items :=
    (mem_of_enrollAll h).resolve_left List.not_mem_nil
  refine ⟨hmem, fun hfound => ?_⟩
  obtain ⟨other, hother, hsame⟩ := List.mem_map.mp (key_mem_enrollAll key hfound)
  exact hkey other (hmem hother) found hfound hsame ▸ hother

end

-- ---------------------------------------------------------------------------
-- What actions ask for
-- ---------------------------------------------------------------------------

def NamedCommand.block? : NamedCommand → Option String
  | .menu _ target | .call target => some target
  | _ => none

def NamedCommand.declared? : NamedCommand → Option (String × Kind)
  | .set _ name value => some (name, value.kind)
  | .ifThen check | .elseIf check => some (check.name, check.value.kind)
  | _ => none

namespace Action

def blocks : Action → List String
  | .mention name => [name]
  | .emit target command => target :: command.block?.toList
  | _ => []

/-- What actions declare, for the first time or again. -/
def declared (actions : List Action) : List (String × Kind) :=
  (emissions actions).filterMap (·.2.declared?)

theorem declared_append (first rest : List Action) :
    declared (first ++ rest) = declared first ++ declared rest := by
  rw [declared, emissions_append, List.filterMap_append]
  rfl

end Action

-- ---------------------------------------------------------------------------
-- Registries
-- ---------------------------------------------------------------------------

namespace Session

variable {σ : Type}

def declared (session : Session σ) : List (String × Kind) :=
  session.vars.entries.map fun entry => (entry.1, entry.2.kind)

variable [Host σ]

theorem keys_withBlock (session : Session σ) (name : String) :
    (session.withBlock name).blocks.keys = enroll id session.blocks.keys name := by
  unfold withBlock BlockRegistry.resolve
  cases hfind : session.blocks.find? name with
  | some block =>
    have hmem : name ∈ session.blocks.keys := by
      by_contra hnew
      rw [(session.blocks.find?_eq_none_iff name).mpr hnew] at hfind
      cases hfind
    simp [enroll, hmem]
  | none => simp [enroll, Table.keys_insert]

theorem declared_withVariable (session : Session σ) (name : String) (kind : Kind) :
    (session.withVariable name kind).declared = enroll Prod.fst session.declared (name, kind) := by
  have hkeys : session.declared.map Prod.fst = session.vars.keys := by
    simp [declared, Table.keys]
  unfold enroll
  rw [hkeys]
  cases hfind : session.vars.find? name with
  | some found =>
    have hmem : name ∈ session.vars.keys := by
      by_contra hnew
      rw [(session.vars.find?_eq_none_iff name).mpr hnew] at hfind
      cases hfind
    rw [withVariable_of_find? hfind, if_pos hmem]
  | none =>
    rw [if_neg ((session.vars.find?_eq_none_iff name).mp hfind)]
    simp only [declared, withVariable, VariableRegistry.resolve, hfind]
    rw [Table.entries_insert hfind, List.map_append]
    rfl

theorem keys_declare (session : Session σ) (command : NamedCommand) :
    (command.declare session).blocks.keys =
      enrollAll id session.blocks.keys command.block?.toList := by
  cases command with
  | menu text target => exact session.keys_withBlock target
  | call target => exact session.keys_withBlock target
  | _ => rfl

theorem keys_perform (session : Session σ) (actions : List Action) :
    (session.perform actions).blocks.keys =
      enrollAll id session.blocks.keys (actions.flatMap Action.blocks) := by
  induction actions generalizing session with
  | nil => rfl
  | cons action rest ih =>
    have hstep : (action.perform session).blocks.keys =
        enrollAll id session.blocks.keys action.blocks := by
      cases action with
      | mention name => exact session.keys_withBlock name
      | emit target command =>
        exact ((session.withBlock target).keys_declare command).trans
          (by rw [keys_withBlock]; rfl)
      | _ => rfl
    rw [perform_cons, ih, hstep, List.flatMap_cons]
    exact List.foldl_append.symm

theorem declared_perform (session : Session σ) (actions : List Action) :
    (session.perform actions).declared =
      enrollAll Prod.fst session.declared (Action.declared actions) := by
  induction actions generalizing session with
  | nil => rfl
  | cons action rest ih =>
    rw [perform_cons, ih]
    cases action with
    | emit target command =>
      cases command with
      | set operator name value =>
        exact congrArg (enrollAll Prod.fst · _) (declared_withVariable _ name value.kind)
      | ifThen check =>
        exact congrArg (enrollAll Prod.fst · _)
          (declared_withVariable _ check.name check.value.kind)
      | elseIf check =>
        exact congrArg (enrollAll Prod.fst · _)
          (declared_withVariable _ check.name check.value.kind)
      | _ => rfl
    | _ => rfl

namespace Indexed

variable {session : Session Flowchart}

theorem keys_eq (h : session.Indexed) : session.blocks.keys = session.ledger.host.blockNames := by
  rw [h.blocks.keys_eq, List.map_id]

theorem declared_eq (h : session.Indexed) :
    session.declared = session.ledger.host.declarations := by
  unfold declared
  rw [h.vars]
  apply List.ext_getElem?
  intro i
  rw [List.getElem?_map, List.getElem?_mapIdx]
  cases session.ledger.host.declarations[i]? <;> rfl

end Indexed

end Session

theorem Session.size_commands_fresh (name : String) (options : Options) (actions : List Action) :
    ((fresh ({ name } : Flowchart) options).perform actions).ledger.host.commands.size =
      (Action.emissions actions).length := by
  rw [size_commands_perform, commands_eq, List.length_map]
  exact Nat.zero_add _

-- ---------------------------------------------------------------------------
-- Compiled scripts
-- ---------------------------------------------------------------------------

namespace Script

variable (script : Script) (options : Options)

/-- The blocks of a flowchart are those that the plan asks for, each once. -/
theorem blockNames_compilation :
    (script.compilation options).ledger.host.blockNames =
      enrollAll id [] ((script.plan options).actions.flatMap Action.blocks) := by
  rw [← (script.indexed_compilation options).keys_eq]
  exact Session.keys_perform _ _

/-- The variables of a flowchart are those that the plan declares, each with its first kind. -/
theorem declarations_compilation :
    (script.compilation options).ledger.host.declarations =
      enrollAll Prod.fst [] (Action.declared (script.plan options).actions) := by
  rw [← (script.indexed_compilation options).declared_eq]
  exact Session.declared_perform _ _

theorem length_commands_compilation :
    (script.compilation options).ledger.host.listing.commands.length =
      (Action.emissions (script.plan options).actions).length := by
  have hindexed := script.indexed_compilation options
  rw [← Session.size_commands_fresh script.name options]
  exact Flowchart.length_listing hindexed.closed hindexed.placed

theorem blockNames_entry {script : Script} {options : Options} (hkeyed : script.Keyed)
    (h : (script.plan options).failure = none) :
    (script.compilation options).ledger.host.blockNames[0]? = some options.entry := by
  obtain ⟨first, hfirst⟩ := find?_of_failure_eq_none h
  rw [blockNames_compilation]
  rw [plan_eq hfirst] at h ⊢
  have hnodes := (Plan.failure_andThen_eq_none.mp h).1
  rw [Plan.actions_andThen hnodes]
  rcases Plan.nodes_cons_cases hnodes with ⟨hstarted, _, _⟩ | ⟨_, _, _, _, hactions⟩
  · cases hstarted
  · rw [hactions, ← hkeyed.name_first hfirst]
    obtain ⟨later, hlater⟩ : [first.name] <+: enrollAll id [first.name] _ := prefix_enrollAll
    exact (congrArg (·[0]?) hlater).symm

end Script

end Dialogue
