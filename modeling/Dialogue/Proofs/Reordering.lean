import Dialogue.Proofs.Naming
import Dialogue.Proofs.Pruning
import Dialogue.Proofs.Uniform
import Dialogue.Proofs.Visits
import Mathlib.Data.List.Dedup

/-!
# The order of the nodes

A script that uses every variable with one kind may have its nodes in any order:
its compilations succeed together, and what they make is the same but for
identifiers and for the order in which nodes come to a block
(`Script.compile_reordered`). Where one node alone puts commands into a block, not
even that order shows.
-/

namespace Dialogue

-- ---------------------------------------------------------------------------
-- Tables and lists in another order
-- ---------------------------------------------------------------------------

theorem Table.find?_of_perm {table other : Table α} (hkeys : table.keys.Nodup)
    (hperm : other.entries.Perm table.entries) (name : String) :
    other.find? name = table.find? name := by
  have hnodup : other.keys.Nodup := (hperm.map Prod.fst).nodup_iff.mpr hkeys
  cases hfind : table.find? name with
  | some found => exact find?_of_mem hnodup (hperm.mem_iff.mpr (mem_of_find? hfind))
  | none =>
    rw [find?_eq_none_iff] at hfind ⊢
    intro hmem
    exact hfind ((hperm.map Prod.fst).mem_iff.mp hmem)

theorem flatMap_eq_of_perm {parts : α → List β} {first second : List α}
    (hperm : first.Perm second)
    (hsingle : ∀ a ∈ first, ∀ b ∈ first, parts a ≠ [] → parts b ≠ [] → a = b) :
    first.flatMap parts = second.flatMap parts := by
  induction hperm with
  | nil => rfl
  | cons head _ ih =>
    have hrest := ih fun a ha b hb =>
      hsingle a (List.mem_cons_of_mem _ ha) b (List.mem_cons_of_mem _ hb)
    rw [List.flatMap_cons, List.flatMap_cons, hrest]
  | swap a b rest =>
    simp only [List.flatMap_cons]
    by_cases ha : parts a = []
    · simp [ha]
    · by_cases hb : parts b = []
      · simp [hb]
      · rw [hsingle a (by simp) b (by simp) ha hb]
  | trans hfirst _ ih ih' =>
    refine (ih hsingle).trans (ih' fun a ha b hb => ?_)
    exact hsingle a (hfirst.mem_iff.mpr ha) b (hfirst.mem_iff.mpr hb)

namespace Script

variable {script : Script} {nodes : Table Node}

theorem order_perm (hkeyed : script.Keyed) (hperm : nodes.entries.Perm script.nodes.entries)
    (entry : String) : (order { script with nodes } entry).Perm (script.order entry) := by
  unfold order others
  rw [Table.find?_of_perm hkeyed.keys hperm]
  exact ((hperm.filter _).map Prod.snd).append_left _

theorem Keyed.reordered (hkeyed : script.Keyed)
    (hperm : nodes.entries.Perm script.nodes.entries) : Keyed { script with nodes } where
  keys := (hperm.map Prod.fst).nodup_iff.mpr hkeyed.keys
  names := fun entry hentry => hkeyed.names entry (hperm.mem_iff.mp hentry)

theorem uniform_reordered (huniform : Operands.Uniform script.uses)
    (hperm : nodes.entries.Perm script.nodes.entries) :
    Operands.Uniform (uses { script with nodes }) := by
  have huses : (uses { script with nodes }).Perm script.uses :=
    ((hperm.map Prod.snd).flatMap_right Operands.node).filterMap _
  exact fun first hfirst second hsecond =>
    huniform first (huses.mem_iff.mp hfirst) second (huses.mem_iff.mp hsecond)

end Script

-- ---------------------------------------------------------------------------
-- The plan of a uniform script
-- ---------------------------------------------------------------------------

namespace Plan

variable {policy : MismatchPolicy} {uses : List (String × Kind)}

theorem visits_eq_parts {kinds : Kinds} {order : List Node} {started : List String}
    (huniform : Operands.Uniform uses) (hkinds : kinds.Within uses)
    (huses : ∀ source ∈ order, Operands.kinds (Operands.node source) ⊆ uses)
    (hnodup : (order.map (·.name)).Nodup) (hnew : ∀ source ∈ order, source.name ∉ started) :
    visits policy kinds started order = parts policy order := by
  induction order generalizing kinds started with
  | nil => rfl
  | cons source rest ih =>
    have hsource : Settled uses (node policy kinds started source) (alone policy source) :=
      settled_node huniform hkinds (huses source List.mem_cons_self)
        (hnew source List.mem_cons_self)
    have hrest : visits policy (kinds.after (alone policy source).actions)
        (source.name :: started) rest = parts policy rest := by
      refine ih (hsource.same ▸ hkinds.after hsource.declared) ?_ (List.nodup_cons.mp hnodup).2
        (notMem_started hnodup hnew)
      exact fun later hlater => huses later (List.mem_cons_of_mem _ hlater)
    simp only [visits, hsource.same, started_alone, hrest]
    rfl

theorem diagnostics_parts (policy : MismatchPolicy) (current : String) (order : List Node) :
    Action.diagnostics current (parts policy order) = order.flatMap fun source =>
      Action.diagnostics source.name
        (statements policy source.name .none source.statements).actions := by
  induction order generalizing current with
  | nil => rfl
  | cons source rest ih =>
    have hinner : ∀ action ∈ (statements policy source.name .none source.statements).actions,
        action.Inner := inner_statements source.statements
    rw [List.flatMap_cons, ← ih source.name, ← Action.diagnostics_append hinner, parts,
      List.flatMap_cons, actions_alone]
    rfl

end Plan

namespace Script

variable {script : Script} {options : Options}

theorem uses_subset (hfirst : script.nodes.find? entry = some first)
    (hsource : source ∈ script.order entry) :
    Operands.kinds (Operands.node source) ⊆ script.uses := by
  rw [order_eq hfirst] at hsource
  exact List.filterMap_subset _ (operands_subset hfirst hsource)

theorem nodup_names_order (hkeyed : script.Keyed)
    (hfirst : script.nodes.find? entry = some first) :
    ((script.order entry).map (·.name)).Nodup := by
  rw [order_eq hfirst]
  exact hkeyed.nodup_order hfirst

/-- The nodes of a uniform script are lowered each as if it stood alone. -/
theorem plan_eq_each (hkeyed : script.Keyed) (huniform : Operands.Uniform script.uses)
    (hfirst : script.nodes.find? options.entry = some first) :
    script.plan options = (Plan.each options.mismatch (script.order options.entry)).andThen
      { actions := [.finish script.name] } := by
  have horder := order_eq hfirst
  rw [plan_eq hfirst, horder, Plan.nodes_eq_each huniform (Kinds.within_none _) ?_
    (hkeyed.nodup_order hfirst) fun _ _ => List.not_mem_nil]
  exact fun source hsource => uses_subset hfirst (horder ▸ hsource)

theorem failure_plan_eq_none_iff (hkeyed : script.Keyed) (huniform : Operands.Uniform script.uses) :
    (script.plan options).failure = none ↔
      (script.nodes.find? options.entry).isSome ∧
        ∀ source ∈ script.order options.entry,
          (Plan.alone options.mismatch source).failure = none := by
  cases hfirst : script.nodes.find? options.entry with
  | none => simp [plan, Plan.script, hfirst, Plan.fail]
  | some first =>
    rw [plan_eq_each hkeyed huniform hfirst, Plan.failure_andThen_eq_none,
      Plan.failure_each_eq_none]
    simp

theorem actions_plan (hkeyed : script.Keyed) (huniform : Operands.Uniform script.uses)
    (h : (script.plan options).failure = none) :
    (script.plan options).actions =
      Plan.parts options.mismatch (script.order options.entry) ++ [.finish script.name] := by
  obtain ⟨first, hfirst⟩ := find?_of_failure_eq_none h
  rw [plan_eq_each hkeyed huniform hfirst] at h ⊢
  have heach := (Plan.failure_andThen_eq_none.mp h).1
  rw [Plan.actions_andThen heach, Plan.actions_each heach]

theorem visits_fresh_order (hkeyed : script.Keyed) (huniform : Operands.Uniform script.uses)
    (hfirst : script.nodes.find? options.entry = some first)
    (horder : script.order options.entry = earlier ++ later) :
    (Session.fresh ({ name := script.name } : Flowchart) options).visits earlier =
      (Session.fresh ({ name := script.name } : Flowchart) options).perform
        (Plan.parts options.mismatch earlier) := by
  have hnodup := nodup_names_order hkeyed hfirst
  rw [horder, List.map_append] at hnodup
  rw [Session.visits_fresh, Plan.visits_eq_parts huniform (Kinds.within_none _) ?_
    (List.nodup_append.mp hnodup).1 fun _ _ => List.not_mem_nil]
  intro source hsource
  exact uses_subset hfirst (horder ▸ List.mem_append_left later hsource)

end Script

-- ---------------------------------------------------------------------------
-- Where the commands of a block come from
-- ---------------------------------------------------------------------------

def Session.contents (session : Session Flowchart) (name : String) : List Command :=
  match session.blocks.find? name with
  | some block => session.ledger.host.commandsAt block.index.toNat
  | none => []

/-- With room for its commands, a session that emits into a block has more in it than before. -/
theorem Session.Indexed.contents_ne {session : Session Flowchart} (h : session.Indexed)
    {actions : List Action}
    (hroom : (session.perform actions).ledger.host.commands.size ≤ UInt32.size)
    (hmem : (name, command) ∈ Action.emissions actions) :
    (session.perform actions).contents name ≠ session.contents name := by
  obtain ⟨block, hblock⟩ : ∃ block, (session.perform actions).blocks.find? name = some block :=
    (known_of_mem hmem).1
  rw [size_commands_perform] at hroom
  have hcommands := h.commandsAt_perform hroom block.index.toNat
  have hnew : ((session.commands actions).filter
      (·.1.index.toNat = block.index.toNat)).map Prod.snd ≠ [] := by
    rw [commands_eq]
    refine List.ne_nil_of_mem (List.mem_map_of_mem (List.mem_filter.mpr
      ⟨List.mem_map_of_mem hmem, ?_⟩))
    simp [blockOf_of_find? hblock]
  unfold contents
  rw [hblock]
  simp only [hcommands]
  cases hbefore : session.blocks.find? name with
  | none => exact List.append_ne_nil_of_right_ne_nil _ hnew
  | some found =>
    have hsame := (find?_perform actions hbefore).symm.trans hblock
    cases hsame
    simpa using hnew

namespace Script

/-- Compiling the node, after those before it, puts commands into the block of a name. -/
def Supplies (script : Script) (options : Options) (source : Node) (name : String) : Prop :=
  ∃ earlier later, script.order options.entry = earlier ++ source :: later ∧
    ((Session.fresh { name := script.name } options).visits (earlier ++ [source])).contents name ≠
      ((Session.fresh { name := script.name } options).visits earlier).contents name

variable {script : Script} {options : Options}

theorem supplies_of_emission {source : Node} {emission : String × NamedCommand}
    (hkeyed : script.Keyed) (huniform : Operands.Uniform script.uses)
    (hplan : (script.plan options).failure = none)
    (hroom : (script.compilation options).ledger.host.listing.commands.length ≤ UInt32.size)
    (hsource : source ∈ script.order options.entry)
    (hmem : emission ∈ Action.emissions (Plan.alone options.mismatch source).actions) :
    script.Supplies options source emission.1 := by
  obtain ⟨first, hfirst⟩ := find?_of_failure_eq_none hplan
  obtain ⟨earlier, later, horder⟩ := List.append_of_mem hsource
  have hthrough : script.order options.entry = (earlier ++ [source]) ++ later := by
    simp [horder]
  have hbefore := visits_fresh_order hkeyed huniform hfirst horder
  have hafter := visits_fresh_order hkeyed huniform hfirst hthrough
  refine ⟨earlier, later, horder, ?_⟩
  have hcount : (Action.emissions (Plan.parts options.mismatch (earlier ++ [source]))).length ≤
      UInt32.size := by
    rw [length_commands_compilation, actions_plan hkeyed huniform hplan, hthrough,
      Plan.parts_append, List.append_assoc, Action.emissions_append, List.length_append] at hroom
    exact Nat.le_trans (Nat.le_add_right _ _) hroom
  have hemission : (emission.1, emission.2) ∈
      Action.emissions (Plan.parts options.mismatch [source]) := by
    simpa [Plan.parts] using hmem
  rw [← Session.size_commands_fresh script.name options] at hcount
  rw [hafter, hbefore]
  rw [Plan.parts_append, Session.perform_append] at hcount ⊢
  exact ((Session.indexed_fresh script.name options).perform _).contents_ne hcount hemission

end Script

-- ---------------------------------------------------------------------------
-- Compilations in two orders
-- ---------------------------------------------------------------------------

/-- Two compilations of the nodes of a script, up to identifiers and order. Blocks
of one name hold the same commands, in the same order if one node supplies them. -/
structure Script.Agree (script : Script) (options : Options) (first second : Compiled) : Prop where
  entry : second.flowchart.blockName? second.entry = first.flowchart.blockName? first.entry
  blocks : (second.flowchart.blocks.map (·.name)).Perm (first.flowchart.blocks.map (·.name))
  vars : (second.flowchart.vars.map fun found => (found.key, found.kind)).Perm
    (first.flowchart.vars.map fun found => (found.key, found.kind))
  diagnostics : second.diagnostics.Perm first.diagnostics
  commands : first.flowchart.Addressable →
    ∀ block ∈ first.flowchart.blocks, ∀ other ∈ second.flowchart.blocks, other.name = block.name →
      ∃ trace again : List NamedCommand,
        block.commands.map first.flowchart.named? = trace.map some ∧
        other.commands.map second.flowchart.named? = again.map some ∧ again.Perm trace ∧
        ((∀ source rival, script.Supplies options source block.name →
          script.Supplies options rival block.name → source = rival) → again = trace)

namespace Script

section

variable {script : Script} {options : Options} {nodes : Table Node} (hkeyed : script.Keyed)
  (huniform : Operands.Uniform script.uses) (hperm : nodes.entries.Perm script.nodes.entries)
include hkeyed huniform hperm

theorem failure_reordered :
    (plan { script with nodes } options).failure = none ↔ (script.plan options).failure = none := by
  have horder := order_perm hkeyed hperm options.entry
  rw [failure_plan_eq_none_iff (hkeyed.reordered hperm) (uniform_reordered huniform hperm),
    failure_plan_eq_none_iff hkeyed huniform]
  refine and_congr ?_ ⟨fun h source hsource => h source (horder.mem_iff.mpr hsource),
    fun h source hsource => h source (horder.mem_iff.mp hsource)⟩
  rw [Table.find?_of_perm hkeyed.keys hperm]

variable (hplan : (script.plan options).failure = none)
include hplan

theorem actions_reordered :
    (plan { script with nodes } options).actions =
      Plan.parts options.mismatch (order { script with nodes } options.entry) ++
        [.finish script.name] :=
  actions_plan (hkeyed.reordered hperm) (uniform_reordered huniform hperm)
    ((failure_reordered hkeyed huniform hperm).mpr hplan)

theorem perm_actions :
    (plan { script with nodes } options).actions.Perm (script.plan options).actions := by
  rw [actions_reordered hkeyed huniform hperm hplan, actions_plan hkeyed huniform hplan]
  exact ((order_perm hkeyed hperm options.entry).flatMap_right _).append_right _

theorem perm_emissions :
    (Action.emissions (plan { script with nodes } options).actions).Perm
      (Action.emissions (script.plan options).actions) :=
  (perm_actions hkeyed huniform hperm hplan).filterMap Action.emission?

theorem perm_blockNames :
    (compilation { script with nodes } options).ledger.host.blockNames.Perm
      (script.compilation options).ledger.host.blockNames := by
  have hmem (name : String) (names : List String) : name ∈ enrollAll id [] names ↔ name ∈ names :=
    mem_enrollAll_iff fun _ _ _ _ h => h
  refine (List.perm_ext_iff_of_nodup (indexed_compilation { script with nodes } options).blockNames
    (script.indexed_compilation options).blockNames).mpr fun name => ?_
  rw [blockNames_compilation, blockNames_compilation, hmem, hmem]
  exact ((perm_actions hkeyed huniform hperm hplan).flatMap_right Action.blocks).mem_iff

theorem perm_declarations :
    (compilation { script with nodes } options).ledger.host.declarations.Perm
      (script.compilation options).ledger.host.declarations := by
  have hdeclared : (Action.declared (plan { script with nodes } options).actions).Perm
      (Action.declared (script.plan options).actions) :=
    (perm_emissions hkeyed huniform hperm hplan).filterMap _
  obtain ⟨entry, hentry⟩ := find?_of_failure_eq_none hplan
  have hsubset : Action.declared (script.plan options).actions ⊆ script.uses := by
    rw [actions_plan hkeyed huniform hplan, Action.declared_append]
    refine List.append_subset.mpr ⟨Plan.declared_parts huniform ?_, List.nil_subset _⟩
    exact fun source hsource => uses_subset hentry hsource
  have hkey : ∀ first ∈ Action.declared (script.plan options).actions,
      ∀ second ∈ Action.declared (script.plan options).actions,
        first.1 = second.1 → first = second := by
    intro first hfirst second hsecond hname
    exact Prod.ext hname (huniform first (hsubset hfirst) second (hsubset hsecond) hname)
  refine (List.perm_ext_iff_of_nodup (indexed_compilation { script with nodes } options).keys.of_map
    (script.indexed_compilation options).keys.of_map).mpr fun pair => ?_
  rw [declarations_compilation, declarations_compilation, mem_enrollAll_iff hkey,
    mem_enrollAll_iff ?_]
  · exact hdeclared.mem_iff
  · intro first hfirst second hsecond hname
    exact hkey first (hdeclared.mem_iff.mp hfirst) second (hdeclared.mem_iff.mp hsecond) hname

theorem perm_diagnostics :
    (compilation { script with nodes } options).diagnostics.toList.Perm
      (script.compilation options).diagnostics.toList := by
  rw [diagnostics_compilation, diagnostics_compilation,
    actions_reordered hkeyed huniform hperm hplan, actions_plan hkeyed huniform hplan,
    Action.diagnostics_finish, Action.diagnostics_finish, Plan.diagnostics_parts,
    Plan.diagnostics_parts]
  exact (order_perm hkeyed hperm options.entry).flatMap_right _

theorem addressable_reordered
    (hsize : (script.compilation options).ledger.host.listing.Addressable) :
    (compilation { script with nodes } options).ledger.host.listing.Addressable := by
  have hbefore := script.indexed_compilation options
  have hafter := indexed_compilation { script with nodes } options
  rw [Flowchart.addressable_listing_iff hbefore.closed hbefore.placed] at hsize
  rw [Flowchart.addressable_listing_iff hafter.closed hafter.placed]
  have hblocks := (perm_blockNames hkeyed huniform hperm hplan).length_eq
  have hvars := (perm_declarations hkeyed huniform hperm hplan).length_eq
  have hcommands := (perm_emissions hkeyed huniform hperm hplan).length_eq
  simp only [Flowchart.blockNames, Flowchart.declarations, List.length_map,
    Array.length_toList] at hblocks hvars
  rw [← Session.size_commands_fresh script.name, ← Session.size_commands_fresh script.name]
    at hcommands
  exact ⟨hblocks ▸ hsize.blocks, hcommands ▸ hsize.commands, hvars ▸ hsize.vars⟩

theorem emissions_reordered
    (hroom : (script.compilation options).ledger.host.listing.commands.length ≤ UInt32.size)
    {name : String}
    (hsingle : ∀ source rival, script.Supplies options source name →
      script.Supplies options rival name → source = rival) :
    (Action.emissions (plan { script with nodes } options).actions).filter (·.1 = name) =
      (Action.emissions (script.plan options).actions).filter (·.1 = name) := by
  have hparts (order : List Node) :
      (Action.emissions (Plan.parts options.mismatch order ++ [.finish script.name])).filter
        (·.1 = name) =
        order.flatMap fun source =>
          (Action.emissions (Plan.alone options.mismatch source).actions).filter (·.1 = name) := by
    rw [Action.emissions_append, Action.emissions_finish, Action.emissions_nil, List.append_nil]
    simp [Plan.parts, Action.emissions, List.filterMap_flatMap, List.filter_flatMap]
  have hsupplies : ∀ source ∈ script.order options.entry,
      (Action.emissions (Plan.alone options.mismatch source).actions).filter (·.1 = name) ≠ [] →
        script.Supplies options source name := by
    intro source hsource hne
    obtain ⟨emission, hemission⟩ := List.exists_mem_of_ne_nil _ hne
    obtain ⟨hmem, hname⟩ := List.mem_filter.mp hemission
    have hsupply := supplies_of_emission hkeyed huniform hplan hroom hsource hmem
    rwa [of_decide_eq_true hname] at hsupply
  rw [actions_reordered hkeyed huniform hperm hplan, actions_plan hkeyed huniform hplan, hparts,
    hparts]
  refine (flatMap_eq_of_perm (order_perm hkeyed hperm options.entry).symm ?_).symm
  intro source hsource rival hrival hfirst hsecond
  exact hsingle source rival (hsupplies source hsource hfirst) (hsupplies rival hrival hsecond)

theorem agree_reordered :
    script.Agree options
      ⟨⟨0⟩, (script.compilation options).ledger.host.listing,
        (script.compilation options).diagnostics.toList⟩
      ⟨⟨0⟩, (compilation { script with nodes } options).ledger.host.listing,
        (compilation { script with nodes } options).diagnostics.toList⟩ where
  entry := by
    have hentry := blockNames_entry hkeyed hplan
    have hentry' := blockNames_entry (hkeyed.reordered hperm)
      ((failure_reordered hkeyed huniform hperm).mpr hplan)
    rw [← Flowchart.map_listing_blocks, List.getElem?_map] at hentry hentry'
    exact hentry'.trans hentry.symm
  blocks := by
    rw [Flowchart.map_listing_blocks, Flowchart.map_listing_blocks]
    exact perm_blockNames hkeyed huniform hperm hplan
  vars := perm_declarations hkeyed huniform hperm hplan
  diagnostics := perm_diagnostics hkeyed huniform hperm hplan
  commands := by
    intro hsize block hblock other hother hname
    have hsize' := addressable_reordered hkeyed huniform hperm hplan hsize
    refine ⟨((Action.emissions (script.plan options).actions).filter (·.1 = block.name)).map
        Prod.snd, ((Action.emissions (plan { script with nodes } options).actions).filter
        (·.1 = block.name)).map Prod.snd, ?_, ?_, ?_, fun hsingle => ?_⟩
    · rw [named?_commands_compilation hsize hblock, List.map_map]
      rfl
    · rw [named?_commands_compilation hsize' hother, hname, List.map_map]
      rfl
    · exact ((perm_emissions hkeyed huniform hperm hplan).filter _).map Prod.snd
    · rw [emissions_reordered hkeyed huniform hperm hplan hsize.commands hsingle]

end

/-- Where every variable is used with one kind, the order of the nodes decides
nothing but identifiers and the order in which nodes come to a block. -/
theorem compile_reordered {script : Script} {options : Options} {nodes : Table Node}
    (hkeyed : script.Keyed) (huniform : Operands.Uniform script.uses)
    (hperm : nodes.entries.Perm script.nodes.entries) :
    ((∃ compiled, script.compile options = .ok compiled) ↔
        ∃ compiled, compile { script with nodes } options = .ok compiled) ∧
      ∀ first second, script.compile options = .ok first →
        compile { script with nodes } options = .ok second → script.Agree options first second := by
  simp only [compile_eq_ok_iff, exists_and_left, exists_eq, and_true]
  refine ⟨(failure_reordered hkeyed huniform hperm).symm, ?_⟩
  rintro first second ⟨hplan, rfl⟩ ⟨_, rfl⟩
  exact agree_reordered hkeyed huniform hperm hplan

/-- Two nodes after the entry put lines into one block, and each declares a variable. -/
def fair : Script := .ofNodes "fair" [
  ⟨"Start", [.choices [.mk "Gate" [.line "Knock."]]]⟩,
  ⟨"Gate", [
    .line "Who is there?",
    .branch [.mk (some ⟨"EqualTo", "guest", .bool true⟩) [.jump "Road"]]]⟩,
  ⟨"Stall", [
    .assign "Haggle" "price" (.string "low"),
    .branch [.mk (some ⟨"NotEqualTo", "fruit", .string "pear"⟩) [.line "Pears!"]],
    .choices [.mk "Gate" [.line "Back again?"]]]⟩]

def fairCompiled : Compiled where
  entry := ⟨0⟩
  flowchart := {
    name := "fair"
    blocks := [
      ⟨"Start", [.menu "Gate" ⟨1⟩]⟩,
      ⟨"Gate", [.say "Knock.", .say "Who is there?", .ifThen ⟨.equals, ⟨0⟩, .bool true⟩,
        .call ⟨2⟩, .endIf, .say "Back again?"]⟩,
      ⟨"Road", []⟩,
      ⟨"Stall", [.ifThen ⟨.notEquals, ⟨1⟩, .string "pear"⟩, .say "Pears!", .endIf,
        .menu "Gate" ⟨1⟩]⟩]
    vars := [⟨"guest", .bool, .everywhere, .bool false⟩,
      ⟨"fruit", .string, .everywhere, .string ""⟩] }
  diagnostics := [⟨"Stall", "unknown operator: Haggle"⟩]

def fairTurned : Compiled where
  entry := ⟨0⟩
  flowchart := {
    name := "fair"
    blocks := [
      ⟨"Start", [.menu "Gate" ⟨1⟩]⟩,
      ⟨"Gate", [.say "Knock.", .say "Back again?", .say "Who is there?",
        .ifThen ⟨.equals, ⟨1⟩, .bool true⟩, .call ⟨3⟩, .endIf]⟩,
      ⟨"Stall", [.ifThen ⟨.notEquals, ⟨0⟩, .string "pear"⟩, .say "Pears!", .endIf,
        .menu "Gate" ⟨1⟩]⟩,
      ⟨"Road", []⟩]
    vars := [⟨"fruit", .string, .everywhere, .string ""⟩,
      ⟨"guest", .bool, .everywhere, .bool false⟩] }
  diagnostics := [⟨"Stall", "unknown operator: Haggle"⟩]

theorem compile_reordered_fair :
    Operands.Uniform fair.uses ∧ fair.compile {} = .ok fairCompiled ∧
      compile { fair with nodes := ⟨fair.nodes.entries.reverse⟩ } {} = .ok fairTurned ∧
      fair.Agree {} fairCompiled fairTurned := by
  have hkeyed : fair.Keyed := keyed_ofNodes "fair" _
  have huniform : Operands.Uniform fair.uses := by decide +kernel
  have hcompile : fair.compile {} = .ok fairCompiled := by decide +kernel
  have hturned : compile { fair with nodes := ⟨fair.nodes.entries.reverse⟩ } {} =
      .ok fairTurned := by decide +kernel
  have hperm : (⟨fair.nodes.entries.reverse⟩ : Table Node).entries.Perm fair.nodes.entries :=
    List.reverse_perm _
  have hagree := (compile_reordered hkeyed huniform hperm).2 _ _ hcompile hturned
  exact ⟨huniform, hcompile, hturned, hagree⟩

end Script

end Dialogue
