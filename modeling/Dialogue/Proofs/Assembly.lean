import Dialogue.Proofs.Allocation
import Dialogue.Proofs.Containers
import Dialogue.Proofs.Memoisation
import Dialogue.Script.Reader

/-!
# Two ways to make a script

A script is made of nodes that are known by their own names, or of the members of an object,
where the keys are the names. Either way a name stands where it comes first and has the node
that comes last, and compiling the script lowers every node that it has kept just once
(`Script.assembled_alike`).
-/

namespace Dialogue

-- ---------------------------------------------------------------------------
-- Tables made of lists
-- ---------------------------------------------------------------------------

namespace Table

variable {α : Type}

theorem ofList_append_singleton (entries : List (String × α)) (entry : String × α) :
    ofList (entries ++ [entry]) = (ofList entries).insert entry.1 entry.2 := by
  simp [ofList, List.foldl_append]

theorem keys_ofList (entries : List (String × α)) :
    (ofList entries).keys = (entries.map Prod.fst).eraseDups := by
  rw [← enrollAll_eq_eraseDups]
  induction entries using List.reverseRecOn with
  | nil => rfl
  | append_singleton entries entry ih =>
    rw [ofList_append_singleton, keys_insert, ih, List.map_append, enrollAll_append]
    show _ = enroll id (enrollAll id [] (entries.map Prod.fst)) entry.1
    unfold enroll
    rw [List.map_id]
    congr

theorem find?_ofList (entries : List (String × α)) (name : String) :
    (ofList entries).find? name = ((entries.filter (·.1 = name)).getLast?).map Prod.snd := by
  induction entries using List.reverseRecOn with
  | nil => rfl
  | append_singleton entries entry ih =>
    rw [ofList_append_singleton, find?_insert, ih, List.filter_append]
    by_cases h : entry.1 = name <;> simp [h]

theorem entries_perm {table : Table α} (hkeys : table.keys.Nodup)
    (h : table.find? name = some value) :
    ((name, value) :: table.entries.filter fun entry => entry.1 ≠ name).Perm table.entries := by
  have hentries : table.entries.Nodup := .of_map Prod.fst hkeys
  have hfirst : (name, value) ∉ table.entries.filter fun entry => entry.1 ≠ name := by simp
  rw [List.perm_ext_iff_of_nodup (List.nodup_cons.mpr ⟨hfirst, hentries.filter _⟩) hentries]
  intro entry
  have hmem : (name, value) ∈ table.entries := mem_of_find? h
  obtain ⟨key, other⟩ := entry
  by_cases hkey : key = name
  · subst hkey
    constructor
    · intro hentry
      simp at hentry
      exact hentry ▸ hmem
    · intro hentry
      have hsame := (find?_of_mem hkeys hentry).symm.trans h
      simp at hsame
      simp [hsame]
  · simp [hkey]

end Table

-- ---------------------------------------------------------------------------
-- Nodes in turn
-- ---------------------------------------------------------------------------

namespace Lowering

variable {σ : Type} [Host σ]

def anew (source : Node) : Lowering σ BlockId := do
  let target ← blockFor source.name
  start source
  statements target source.statements
  pure target

/-- Lowers the nodes of a script in turn, and none for a second time by itself. -/
def inTurn (script : String) (first : Node) (others : List Node) : Lowering σ BlockId := do
  let target ← anew first
  forM others fun source => discard (anew source)
  let session ← get
  note (.compiledScript script session.blocks.size session.vars.size session.diagnostics.size)
  pure target

theorem node_eq_anew {session : Session σ} (h : source.name ∉ session.started) :
    node source session = anew source session := by
  have hblock : blockFor source.name session =
      .ok (session.blockOf source.name) (session.withBlock source.name) := rfl
  have hget : (get : Lowering σ (Session σ)) (session.withBlock source.name) =
      .ok (session.withBlock source.name) (session.withBlock source.name) := rfl
  unfold node anew
  rw [bind_ok hblock, bind_ok hblock, bind_ok hget]
  exact congrFun (if_neg h) _

theorem nodesExcept_eq_forM (entry : String) (entries : List (String × Node)) :
    nodesExcept entry entries =
      (forM ((entries.filter fun pair => pair.1 ≠ entry).map Prod.snd) fun source =>
        discard (node source) : Lowering σ Unit) := by
  induction entries with
  | nil => rfl
  | cons pair rest ih =>
    obtain ⟨key, source⟩ := pair
    by_cases hkey : key = entry <;> simp [nodesExcept, hkey, ih]

theorem node_bind_eq_anew_bind {session : Session σ} (h : source.name ∉ session.started)
    {next other : BlockId → Lowering σ α}
    (hnext : ∀ block after,
      (∀ name ∈ after.started, name ∈ session.started ∨ name = source.name) →
        next block after = other block after) :
    (node source >>= next) session = (anew source >>= other) session := by
  have hother : (node source >>= other) session = (anew source >>= other) session :=
    bind_congr_run (node_eq_anew h)
  rw [← hother]
  cases hnode : node source session with
  | error error failed => rw [bind_error hnode, bind_error hnode]
  | ok block after =>
    rw [bind_ok hnode, bind_ok hnode]
    obtain ⟨_, rfl⟩ := Session.node_eq_ok_cases hnode
    refine hnext block _ fun name hname => ?_
    simpa using (session.mem_started_visits [source]).mp hname

theorem forM_node_eq_anew {sources : List Node} (hnames : (sources.map (·.name)).Nodup)
    {session : Session σ} (hnew : ∀ source ∈ sources, source.name ∉ session.started) :
    (forM sources fun source => discard (node source) : Lowering σ Unit) session =
      (forM sources fun source => discard (anew source) : Lowering σ Unit) session := by
  induction sources generalizing session with
  | nil => rfl
  | cons source rest ih =>
    obtain ⟨hfirst, hrest⟩ := List.forall_mem_cons.mp hnew
    obtain ⟨hother, hnames⟩ := List.nodup_cons.mp hnames
    have hdiscard (lowering : Lowering σ BlockId) (next : Lowering σ Unit) :
        (do discard lowering; next) = (do let _ ← lowering; next) :=
      bind_assoc lowering (fun _ => pure ()) fun _ => next
    rw [List.forM_cons, List.forM_cons, hdiscard, hdiscard]
    refine node_bind_eq_anew_bind hfirst fun _ after hafter => ih hnames ?_
    intro later hlater hstarted
    rcases hafter later.name hstarted with hold | hname
    · exact hrest later hlater hold
    · exact hother (List.mem_map.mpr ⟨later, hlater, hname⟩)

theorem script_eq_inTurn {source : Script} (hkeyed : source.Keyed) (host : σ) {options : Options}
    (hfirst : source.nodes.find? options.entry = some first) :
    script source (.fresh host options) =
      inTurn source.name first (source.others options.entry) (.fresh host options) := by
  have hget : (get : Lowering σ (Session σ)) (.fresh host options) =
      .ok (.fresh host options) (.fresh host options) := rfl
  obtain ⟨hother, hnames⟩ := List.nodup_cons.mp (hkeyed.nodup_order hfirst)
  have hentry : source.nodes.find? (Session.fresh host options).options.entry = some first := hfirst
  unfold script inTurn
  rw [bind_ok hget, hentry]
  refine node_bind_eq_anew_bind List.not_mem_nil fun block after hafter => ?_
  refine bind_congr_run ?_
  rw [nodesExcept_eq_forM]
  refine forM_node_eq_anew hnames fun later hlater hstarted => ?_
  rcases hafter later.name hstarted with hold | hname
  · cases hold
  · exact hother (List.mem_map.mpr ⟨later, hlater, hname⟩)

end Lowering

-- ---------------------------------------------------------------------------
-- Scripts
-- ---------------------------------------------------------------------------

namespace Script

/-- What becomes of nodes under keys that are given one after another. -/
structure Assembled (script : Script) (members : List (String × Node)) : Prop where
  /-- A key stands where it comes first. -/
  keys : script.nodes.keys = (members.map Prod.fst).eraseDups
  /-- It has the statements that it is given last, under its own name. -/
  latest : ∀ key, script.nodes.find? key =
    ((members.filter (·.1 = key)).getLast?).map fun member => ⟨key, member.2.statements⟩
  names : ∀ entry ∈ script.nodes.entries, entry.2.name = entry.1
  /-- Compiling the script lowers the entry node and then the others, which together are all
  the nodes it has. -/
  lowered : ∀ {σ : Type} [Host σ] (host : σ) (options : Options) (first : Node),
    script.nodes.find? options.entry = some first →
      (first :: script.others options.entry).Perm script.nodes.values ∧
        Lowering.script script (.fresh host options) =
          Lowering.inTurn script.name first (script.others options.entry) (.fresh host options)

theorem Keyed.perm_values {script : Script} (h : script.Keyed)
    (hfirst : script.nodes.find? entry = some first) :
    (first :: script.others entry).Perm script.nodes.values :=
  (Table.entries_perm h.keys hfirst).map Prod.snd

theorem Keyed.assembled {script : Script} (h : script.Keyed) {members : List (String × Node)}
    (hnodes : script.nodes = Node.tableOf members) : script.Assembled members where
  keys := by
    rw [hnodes, Node.tableOf, Table.keys_ofList, List.map_map]
    rfl
  latest key := by
    rw [hnodes, Node.tableOf, Table.find?_ofList, List.filter_map, List.getLast?_map,
      Option.map_map]
    show Option.map _ (members.filter (·.1 = key)).getLast? = _
    cases hlast : (members.filter (·.1 = key)).getLast? with
    | none => rfl
    | some member =>
      have hkey := (List.mem_filter.mp (List.mem_of_getLast? hlast)).2
      simp only [decide_eq_true_eq] at hkey
      simp [← hkey]
  names := h.names
  lowered host options first hfirst :=
    ⟨h.perm_values hfirst, Lowering.script_eq_inTurn h host hfirst⟩

theorem tableOf_eq_ofNodes {members : List (String × Node)} {nodes : List Node} (name : String)
    (h : members.map (fun member => (member.1, member.2.statements)) =
      nodes.map fun node => (node.name, node.statements)) :
    Node.tableOf members = (ofNodes name nodes).nodes := by
  have hnamed := congrArg (List.map fun pair => (pair.1, (⟨pair.1, pair.2⟩ : Node))) h
  rw [List.map_map, List.map_map] at hnamed
  exact congrArg Table.ofList hnamed

/-- Both ways of making a script keep the last node of every name, in the order in which
the names come first. -/
theorem assembled_alike :
    (∀ (name : String) (nodes : List Node),
      (ofNodes name nodes).Assembled (nodes.map fun node => (node.name, node)) ∧
        ∀ key, (ofNodes name nodes).nodes.find? key = (nodes.filter (·.name = key)).getLast?) ∧
    ∀ (depth : Nat) (text inner rest : List Char) (members : List (String × Node)),
      Json.Reader.peek.run text = .ok ('\x7b', '\x7b' :: inner) →
      Json.Reader.HasMembers .keep (Reader.node depth) inner members rest →
        ∃ table, (Reader.nodes (depth + 1)).run text = .ok (table, rest) ∧
          ∀ name, Assembled ⟨name, table⟩ members ∧
            ∀ nodes : List Node, members.map (fun member => (member.1, member.2.statements)) =
              nodes.map (fun node => (node.name, node.statements)) →
                table = (ofNodes name nodes).nodes := by
  constructor
  · intro name nodes
    have htable : Node.tableOf (nodes.map fun node => (node.name, node)) =
        (ofNodes name nodes).nodes := tableOf_eq_ofNodes name (List.map_map ..)
    refine ⟨(keyed_ofNodes name nodes).assembled htable.symm, ?_⟩
    intro key
    rw [ofNodes, Table.find?_ofList, List.filter_map, List.getLast?_map, Option.map_map]
    exact Option.map_id'
  · intro depth text inner rest members hpeek hmembers
    refine ⟨Node.tableOf members, ?_, fun name => ⟨?_, ?_⟩⟩
    · have hlist := Json.Reader.memberList_eq_ok_iff.mpr hmembers
      unfold Reader.nodes
      rw [Json.Reader.bind_of_ok hpeek, if_pos rfl]
      show (Node.tableOf <$> Json.Reader.memberList .keep (Reader.node depth)).run inner = _
      exact Json.Reader.bind_of_ok hlist _
    · exact (keyed_tableOf name members).assembled rfl
    · intro nodes hsame
      exact tableOf_eq_ofNodes name hsame

/-- An object in which the inn is given twice, the first time with the name of another node. -/
def twoInns : List Char :=
  ("\x7b\"Inn\":[\"Start\",[[\"line\",\"Closed.\"]]],\"Start\":[\"\",[[\"option\",\"Inn\"]]]," ++
    "\"Inn\":[\"Inn\"]\x7d").toList

theorem assembled_alike_twoInns :
    ∃ members table, Json.Reader.HasMembers .keep (Reader.node 9) twoInns.tail members [] ∧
      members.map (fun member => (member.1, member.2.name, member.2.statements.length)) =
        [("Inn", "Start", 1), ("Start", "", 1), ("Inn", "Inn", 0)] ∧
      (Reader.nodes 10).run twoInns = .ok (table, []) ∧ table.keys = ["Inn", "Start"] ∧
      table.find? "Inn" = some ⟨"Inn", []⟩ ∧
      table = (ofNodes "inns" (members.map fun member => ⟨member.1, member.2.statements⟩)).nodes ∧
      ∃ first, table.find? "Start" = some first ∧
        Lowering.script ⟨"inns", table⟩ (.fresh ({} : Flowchart) {}) =
          Lowering.inTurn "inns" first (others ⟨"inns", table⟩ "Start")
            (.fresh ({} : Flowchart) {}) := by
  have hrun : ((Json.Reader.memberList .keep (Reader.node 9)).run twoInns.tail).toOption.map
      (fun found => (found.1.map fun member =>
        (member.1, member.2.name, member.2.statements.length), found.2)) =
        some ([("Inn", "Start", 1), ("Start", "", 1), ("Inn", "Inn", 0)], []) := by
    decide +kernel
  cases hfound : (Json.Reader.memberList .keep (Reader.node 9)).run twoInns.tail with
  | error fault => simp [hfound, Except.toOption] at hrun
  | ok found =>
    obtain ⟨members, rest⟩ := found
    simp only [hfound, Except.toOption, Option.map_some, Option.some.injEq, Prod.mk.injEq] at hrun
    obtain ⟨hnames, rfl⟩ := hrun
    have hmembers := Json.Reader.memberList_eq_ok_iff.mp hfound
    obtain ⟨table, htable, hname⟩ := assembled_alike.2 9 twoInns _ _ _ rfl hmembers
    obtain ⟨hassembled, hsame⟩ := hname "inns"
    have hkeys : table.keys = ["Inn", "Start"] := by
      have hfirst := congrArg (List.map Prod.fst) hnames
      rw [List.map_map] at hfirst
      have hmap : members.map Prod.fst = ["Inn", "Start", "Inn"] := hfirst
      rw [hassembled.keys, hmap]
      decide
    have hstart : "Start" ∈ table.keys := by simp [hkeys]
    obtain ⟨first, hfirst⟩ := Table.exists_find?_of_mem_keys hstart
    refine ⟨members, table, hmembers, hnames, htable, hkeys, ?_, ?_, first, hfirst, ?_⟩
    · obtain ⟨closed, _, rfl, hclosed, hmore⟩ := List.map_eq_cons_iff.mp hnames
      obtain ⟨start, _, rfl, hstart, hmore⟩ := List.map_eq_cons_iff.mp hmore
      obtain ⟨last, _, rfl, hlast, hmore⟩ := List.map_eq_cons_iff.mp hmore
      simp only [Prod.mk.injEq, List.map_eq_nil_iff, List.length_eq_zero_iff]
        at hclosed hstart hlast hmore
      rw [hassembled.latest]
      simp [hclosed, hstart, hlast, hmore]
    · exact hsame _ (by simp)
    · exact (hassembled.lowered ({} : Flowchart) {} first hfirst).2

end Script

end Dialogue
