import Dialogue.Proofs.Memoisation
import Dialogue.Proofs.Tenancy

/-!
# Registries that share a flowchart

A session may work on a flowchart on which someone else works too, with registries of
their own. Names are not shared: each side has its own block and its own variable for
a name, and neither touches those of the other. So a session compiles its nodes as it
would alone, whatever is asked of the other registries in between, and what these have
created stays as it was created (`Shared.isolated_serveAll`).
-/

namespace Dialogue

-- ---------------------------------------------------------------------------
-- Requests
-- ---------------------------------------------------------------------------

inductive Request
  /-- Asks the session for a node. -/
  | compile (source : Node)
  /-- Asks the registries for the block of a name. -/
  | block (name : String)
  /-- Asks the registries for the variable of a name. -/
  | var (name : String) (kind : Kind)
  /-- Asks the registries for the variable of a name for use with a literal. -/
  | bind (name : String) (policy : MismatchPolicy) (literal : Literal)

def Request.source? : Request → Option Node
  | .compile source => some source
  | _ => none

def Request.sources (requests : List Request) : List Node := requests.filterMap source?

theorem Request.sources_append (first rest : List Request) :
    sources (first ++ rest) = sources first ++ sources rest :=
  List.filterMap_append

/-- A session, and registries of someone else for the same flowchart. -/
structure Shared where
  session : Session Flowchart
  blocks : BlockRegistry := {}
  vars : VariableRegistry := {}

namespace Shared

def chart (shared : Shared) : Flowchart := shared.session.ledger.host

def serve (shared : Shared) : Request → Shared
  | .compile source => { shared with session := shared.session.visit source }
  | .block name =>
    let (_, blocks, ledger) := shared.blocks.resolve name shared.session.ledger
    { shared with session := { shared.session with ledger }, blocks }
  | .var name kind =>
    let (_, vars, ledger) := shared.vars.resolve name kind shared.session.ledger
    { shared with session := { shared.session with ledger }, vars }
  | .bind name policy literal =>
    match shared.vars.bind name policy literal shared.session.ledger with
    | .ok (_, vars, ledger) => { shared with session := { shared.session with ledger }, vars }
    | .error _ => shared

def serveAll (shared : Shared) (requests : List Request) : Shared := requests.foldl serve shared

def fresh (base : Flowchart) (options : Options) : Shared := { session := .fresh base options }

end Shared

namespace Session

/-- How a session answers when it is asked for a node: with the name of a block, or with
an error. -/
def reply (session : Session Flowchart) (source : Node) : Except CompileError (Option String) :=
  match Lowering.node source session with
  | .ok block after => .ok (after.ledger.host.listing.blockName? block)
  | .error error _ => .error error

def replies (session : Session Flowchart) : List Node → List (Except CompileError (Option String))
  | [] => []
  | source :: rest => session.reply source :: (session.visit source).replies rest

end Session

def Shared.replies (shared : Shared) :
    List Request → List (Except CompileError (Option String))
  | [] => []
  | .compile source :: rest =>
    shared.session.reply source :: (shared.serve (.compile source)).replies rest
  | request :: rest => (shared.serve request).replies rest

namespace Session

/-- The blocks that a session goes by, in the order of their creation, with their commands
by name. -/
structure Holds (contents : List (String × List NamedCommand)) (session : Session Flowchart) :
    Prop where
  names : session.blocks.keys = contents.map Prod.fst
  commands : ∀ entry ∈ contents, ∃ id, session.blocks.find? entry.1 = some id ∧
    session.ledger.host.listing.blockName? id = some entry.1 ∧
    (session.ledger.host.commandsOf id).map session.ledger.host.listing.named? =
      entry.2.map some

variable {session : Session Flowchart}

theorem Housed.holds (h : session.Housed emitted) :
    session.Holds (session.blocks.keys.map fun name => (name, Action.addressed name emitted)) where
  names := by
    rw [List.map_map]
    exact (List.map_id _).symm
  commands := by
    intro entry hentry
    obtain ⟨name, hname, rfl⟩ := List.mem_map.mp hentry
    obtain ⟨id, hfind⟩ := Table.exists_find?_of_mem_keys hname
    refine ⟨id, hfind, h.blocks name id hfind, ?_⟩
    exact Flowchart.map_named?_commandsOf (h.contents name id hfind)

theorem reply_eq (hlocated : (session.visit source).Located) :
    session.reply source =
      match (Plan.node session.options.mismatch session.kinds session.started source).failure with
      | none => .ok (some source.name)
      | some error => .error error := by
  unfold reply
  cases hfailure : (Plan.node session.options.mismatch session.kinds session.started
      source).failure with
  | none =>
    have hknown := (begun_visit session source).known
    simp only [node_of_failure_eq_none hfailure, hlocated.blocks _ _ hknown]
  | some error => simp only [node_eq_error hfailure]

end Session

-- ---------------------------------------------------------------------------
-- The other registries
-- ---------------------------------------------------------------------------

namespace Shared

variable {shared : Shared}

theorem serveAll_append (shared : Shared) (first rest : List Request) :
    shared.serveAll (first ++ rest) = (shared.serveAll first).serveAll rest :=
  List.foldl_append

def guest (shared : Shared) : Session Flowchart :=
  { shared.session with blocks := shared.blocks, vars := shared.vars }

theorem serve_block (shared : Shared) (name : String) :
    shared.serve (.block name) =
      { shared with
        session := { shared.session with ledger := (shared.guest.withBlock name).ledger }
        blocks := (shared.guest.withBlock name).blocks } := rfl

theorem serve_var (shared : Shared) (name : String) (kind : Kind) :
    shared.serve (.var name kind) =
      { shared with
        session := { shared.session with ledger := (shared.guest.withVariable name kind).ledger }
        vars := (shared.guest.withVariable name kind).vars } := rfl

/-- A literal that does not fit changes nothing. -/
theorem serve_bind_cases (shared : Shared) (name : String) (policy : MismatchPolicy)
    (literal : Literal) :
    shared.serve (.bind name policy literal) = shared ∨
      ∃ kind, shared.serve (.bind name policy literal) = shared.serve (.var name kind) := by
  cases hfit : conform name (shared.vars.kind? name) policy literal with
  | error error =>
    refine .inl ?_
    simp only [serve, VariableRegistry.bind, hfit]
    rfl
  | ok fitted =>
    refine .inr ⟨fitted.kind, ?_⟩
    simp only [serve, VariableRegistry.bind, hfit]
    rfl

theorem grows_serve (request : Request)
    (hsize : (shared.serve request).chart.vars.size ≤ UInt32.size) :
    shared.chart.Grows (shared.serve request).chart := by
  have hvar {name : String} {kind : Kind}
      (h : (shared.guest.withVariable name kind).ledger.host.vars.size ≤ UInt32.size) :
      shared.chart.Grows (shared.serve (.var name kind)).chart := Session.grows_withVariable h
  cases request with
  | compile source =>
    simp only [chart, serve, shared.session.visit_eq source] at hsize ⊢
    exact Session.grows_perform _ hsize
  | block name => exact shared.guest.grows_withBlock name
  | var name kind => exact hvar hsize
  | bind name policy literal =>
    obtain hsame | ⟨kind, hkind⟩ := shared.serve_bind_cases name policy literal
    · rw [hsame]
      exact .refl _
    · rw [hkind] at hsize ⊢
      exact hvar hsize

theorem grows_serveAll (requests : List Request)
    (hsize : (shared.serveAll requests).chart.vars.size ≤ UInt32.size) :
    shared.chart.Grows (shared.serveAll requests).chart := by
  induction requests generalizing shared with
  | nil => exact .refl _
  | cons request rest ih =>
    have hrest := ih hsize
    exact (grows_serve request (Nat.le_trans hrest.size_vars_le hsize)).trans hrest

theorem find?_serve (h : shared.guest.blocks.find? name = some block) (request : Request) :
    (shared.serve request).blocks.find? name = some block := by
  cases request with
  | block other => exact Session.find?_withBlock_of_find? h other
  | bind other policy literal =>
    obtain hsame | ⟨kind, hkind⟩ := shared.serve_bind_cases other policy literal
    · rwa [hsame]
    · rw [hkind]
      exact h
  | _ => exact h

theorem vars_find?_serve (h : shared.guest.vars.find? name = some found) (request : Request) :
    (shared.serve request).vars.find? name = some found := by
  cases request with
  | var other kind => exact Session.vars_find?_withVariable h other kind
  | bind other policy literal =>
    obtain hsame | ⟨kind, hkind⟩ := shared.serve_bind_cases other policy literal
    · rwa [hsame]
    · rw [hkind]
      exact Session.vars_find?_withVariable h other kind
  | _ => exact h

theorem find?_serveAll (h : shared.blocks.find? name = some block) (requests : List Request) :
    (shared.serveAll requests).blocks.find? name = some block := by
  induction requests generalizing shared with
  | nil => exact h
  | cons request rest ih => exact ih (find?_serve h request)

theorem vars_find?_serveAll (h : shared.vars.find? name = some found) (requests : List Request) :
    (shared.serveAll requests).vars.find? name = some found := by
  induction requests generalizing shared with
  | nil => exact h
  | cons request rest ih => exact ih (vars_find?_serve h request)

-- ---------------------------------------------------------------------------
-- Side by side
-- ---------------------------------------------------------------------------

/-- The session is where it would be alone, and what the other registries have created is
as they created it. -/
structure Beside (alone : Session Flowchart) (shared : Shared) : Prop where
  mirrors : alone.Mirrors shared.session
  housed : ∃ emitted, alone.Housed emitted ∧ shared.session.Housed emitted
  blocks : ∀ name id, shared.blocks.find? name = some id →
    shared.session.Spares id.index.toNat { name }
  vars : ∀ name found, shared.vars.find? name = some found →
    shared.chart.variableAt? found.id = some (.declared (name, found.kind))

namespace Beside

variable {alone : Session Flowchart}

theorem compile (h : shared.Beside alone) (source : Node)
    (hsize : (shared.serve (.compile source)).chart.Addressable) :
    (shared.serve (.compile source)).Beside (alone.visit source) := by
  obtain ⟨emitted, halone, hshared⟩ := h.housed
  let actions := (Plan.node shared.session.options.mismatch shared.session.kinds
    shared.session.started source).actions
  have hvisit : shared.session.visit source = shared.session.perform actions :=
    shared.session.visit_eq source
  have hvisitAlone : alone.visit source = alone.perform actions := by
    rw [alone.visit_eq source, h.mirrors.options, h.mirrors.kinds, h.mirrors.started]
  have hmirrors := h.mirrors.perform actions
  have hroom : (shared.session.perform actions).ledger.host.Addressable := hvisit ▸ hsize
  have hgrows := Session.grows_perform actions hroom.vars
  simp only [serve, hvisit, hvisitAlone]
  refine ⟨hmirrors, ⟨emitted ++ Action.emissions actions, ?_, ?_⟩, ?_, ?_⟩
  · exact halone.perform actions (hmirrors.size.addressable hroom)
  · exact hshared.perform actions hroom
  · intro name id hfind
    exact (h.blocks name id hfind).perform actions hroom
  · intro name found hfind
    exact hgrows.variableAt? (h.vars name found hfind)

/-- Whoever adds to the flowchart and leaves the blocks as they are does not disturb the
session. -/
theorem undisturbed (h : shared.Beside alone) {ledger : Ledger Flowchart}
    (hgrows : shared.chart.Grows ledger.host)
    (hids : ∀ position, ledger.host.idsAt position = shared.chart.idsAt position) :
    alone.Mirrors { shared.session with ledger } ∧
      ∃ emitted, alone.Housed emitted ∧ Session.Housed emitted { shared.session with ledger } := by
  obtain ⟨emitted, halone, hshared⟩ := h.housed
  refine ⟨?_, emitted, halone, hshared.of_grows rfl rfl hgrows hids⟩
  exact { h.mirrors with size := h.mirrors.size.trans hgrows.fitsIn }

theorem block (h : shared.Beside alone) (name : String)
    (hsize : (shared.serve (.block name)).chart.Addressable) :
    (shared.serve (.block name)).Beside alone := by
  rw [serve_block] at hsize ⊢
  have hgrows := shared.guest.grows_withBlock name
  obtain ⟨hmirrors, hhoused⟩ := h.undisturbed hgrows (shared.guest.idsAt_withBlock name)
  refine ⟨hmirrors, hhoused, ?_, ?_⟩
  · intro other id hother
    have hkeep (hold : shared.blocks.find? other = some id) :
        Session.Spares id.index.toNat { name := other }
          { shared.session with ledger := (shared.guest.withBlock name).ledger } := by
      have hspares := h.blocks other id hold
      have hguest : shared.guest.ledger.host.blocks[id.index.toNat]? = some { name := other } :=
        hspares.there
      exact ⟨Session.blocks_withBlock hguest name, hspares.other⟩
    cases hfind : shared.guest.blocks.find? name with
    | some block =>
      rw [Session.withBlock_of_find? hfind] at hother
      exact hkeep hother
    | none =>
      rw [Session.find?_withBlock] at hother
      split at hother
      -- The new block stands behind all that the session goes by.
      · rename_i hname
        subst hname
        cases hother
        have hplace := Session.index_blockOf_of_new hfind hsize.blocks
        obtain ⟨emitted, -, hshared⟩ := h.housed
        refine ⟨?_, ?_⟩
        · rw [hplace]
          show (shared.guest.withBlock name).ledger.host.blocks[_]? = _
          rw [Session.host_withBlock hfind]
          exact Array.getElem?_push_size
        · intro mine id hmine
          have hlt := Flowchart.index_lt_of_blockName? (hshared.blocks mine id hmine)
          rw [hplace]
          exact Nat.ne_of_lt hlt
      · exact hkeep hother
  · intro other found hother
    exact hgrows.variableAt? (h.vars other found hother)

theorem var (h : shared.Beside alone) (name : String) (kind : Kind)
    (hsize : (shared.serve (.var name kind)).chart.Addressable) :
    (shared.serve (.var name kind)).Beside alone := by
  rw [serve_var] at hsize ⊢
  have hgrows : shared.guest.ledger.host.Grows _ := Session.grows_withVariable hsize.vars
  obtain ⟨hmirrors, hhoused⟩ := h.undisturbed hgrows (shared.guest.idsAt_withVariable name kind)
  refine ⟨hmirrors, hhoused, ?_, ?_⟩
  · intro other id hother
    have hspares := h.blocks other id hother
    refine ⟨?_, hspares.other⟩
    show (shared.guest.withVariable name kind).ledger.host.blocks[_]? = _
    rw [Session.blocks_withVariable]
    exact hspares.there
  · intro other found hother
    cases hfind : shared.guest.vars.find? name with
    | some declared =>
      rw [Session.withVariable_of_find? hfind] at hother
      exact hgrows.variableAt? (h.vars other found hother)
    | none =>
      rw [Session.find?_withVariable] at hother
      split at hother
      · rename_i hname
        subst hname
        cases hother
        exact Session.variableAt?_of_new hfind kind hsize.vars
      · exact hgrows.variableAt? (h.vars other found hother)

theorem serve (h : shared.Beside alone) (request : Request)
    (hsize : (shared.serve request).chart.Addressable) :
    (shared.serve request).Beside (alone.visits (Request.sources [request])) := by
  cases request with
  | compile source => exact h.compile source hsize
  | block name => exact h.block name hsize
  | var name kind => exact h.var name kind hsize
  | bind name policy literal =>
    obtain hsame | ⟨kind, hkind⟩ := shared.serve_bind_cases name policy literal
    · rw [hsame]
      exact h
    · rw [hkind] at hsize ⊢
      exact h.var name kind hsize

theorem serveAll (h : shared.Beside alone) (requests : List Request)
    (hsize : (shared.serveAll requests).chart.Addressable) :
    (shared.serveAll requests).Beside (alone.visits (Request.sources requests)) := by
  induction requests generalizing shared alone with
  | nil => exact h
  | cons request rest ih =>
    have hnext := (grows_serveAll rest hsize.vars).fitsIn.addressable hsize
    have hrest := ih (h.serve request hnext) hsize
    rwa [← Session.visits_append, ← Request.sources_append] at hrest

theorem replies_eq (h : shared.Beside alone) (requests : List Request)
    (hsize : (shared.serveAll requests).chart.Addressable) :
    shared.replies requests = alone.replies (Request.sources requests) := by
  induction requests generalizing shared alone with
  | nil => rfl
  | cons request rest ih =>
    have hnext := (grows_serveAll rest hsize.vars).fitsIn.addressable hsize
    have hrest := ih (h.serve request hnext) hsize
    cases request with
    | compile source =>
      obtain ⟨emitted, halone, hshared⟩ := (h.compile source hnext).housed
      have hreply : shared.session.reply source = alone.reply source := by
        rw [Session.reply_eq hshared.toLocated, Session.reply_eq halone.toLocated,
          h.mirrors.options, h.mirrors.kinds, h.mirrors.started]
      exact congrArg₂ List.cons hreply hrest
    | _ => exact hrest

end Beside

theorem beside_fresh (base : Flowchart) (options : Options) :
    (fresh base options).Beside (.fresh base options) where
  mirrors := ⟨rfl, rfl, rfl, rfl, rfl, rfl, ⟨Nat.le_refl _, Nat.le_refl _, Nat.le_refl _⟩⟩
  housed := by
    have hfresh : (Session.fresh base options).Housed [] := ⟨⟨nofun, nofun⟩, nofun, nofun⟩
    exact ⟨[], hfresh, hfresh⟩
  blocks := nofun
  vars := nofun

/-- The session does what it would do alone, and what has been created for others stays
as it was created: a block has its name and no command, and a variable its key, its kind
and the zero of that kind. -/
structure Isolated (start : Shared) (requests : List Request) : Prop where
  replies : start.replies requests = start.session.replies (Request.sources requests)
  diagnostics : (start.serveAll requests).session.diagnostics =
    (start.session.visits (Request.sources requests)).diagnostics
  contents : ∃ contents, (start.serveAll requests).session.Holds contents ∧
    (start.session.visits (Request.sources requests)).Holds contents
  blocks : ∀ earlier later, requests = earlier ++ later → ∀ name id,
    (start.serveAll earlier).blocks.find? name = some id →
      (start.serveAll requests).chart.blockAt? id = some { name }
  vars : ∀ earlier later, requests = earlier ++ later → ∀ name found,
    (start.serveAll earlier).vars.find? name = some found →
      (start.serveAll requests).chart.variableAt? found.id =
        some ⟨name, found.kind, .everywhere, .zero found.kind⟩

/-- A session and the registries of someone else may take turns on any flowchart, in any
order and with any names. -/
theorem isolated_serveAll (base : Flowchart) (options : Options) (requests : List Request)
    (hsize : ((fresh base options).serveAll requests).chart.Addressable) :
    (fresh base options).Isolated requests := by
  have hfresh := beside_fresh base options
  have hbeside := hfresh.serveAll requests hsize
  refine ⟨hfresh.replies_eq requests hsize, hbeside.mirrors.diagnostics.symm, ?_, ?_, ?_⟩
  · obtain ⟨emitted, halone, hshared⟩ := hbeside.housed
    refine ⟨_, hshared.holds, ?_⟩
    rw [← hbeside.mirrors.keys]
    exact halone.holds
  · rintro earlier later rfl name id hfind
    refine (hbeside.blocks name id ?_).there
    rw [serveAll_append]
    exact find?_serveAll hfind later
  · rintro earlier later rfl name found hfind
    refine hbeside.vars name found ?_
    rw [serveAll_append]
    exact vars_find?_serveAll hfind later

def stall : Flowchart where
  blocks := #[⟨"Start", #[⟨0⟩]⟩]
  commands := #[.say "Fish!"]
  vars := #[⟨"gold", .string, .everywhere, .string "none"⟩]

/-- Both sides go by the same names, with kinds of their own. The second node of the
session gives up an assignment and then fails. -/
def haggling : List Request := [
  .block "Inn",
  .compile ⟨"Start", [.jump "Inn", .assign "EqualToOrAssign" "gold" (.number .one)]⟩,
  .bind "gold" .reject (.bool true),
  .bind "gold" .reject (.string "much"),
  .block "Start",
  .compile ⟨"Inn", [
    .assign "EqualToOrAssign" "gold" (.bool true),
    .line "Come in.",
    .directive "wait"]⟩,
  .var "fish" .number,
  .compile ⟨"Inn", []⟩]

theorem isolated_serveAll_haggling :
    ((fresh stall {}).serveAll haggling).chart =
        { blocks := #[⟨"Start", #[⟨0⟩]⟩, ⟨"Inn", #[]⟩, ⟨"Start", #[⟨1⟩, ⟨2⟩]⟩, ⟨"Inn", #[⟨3⟩]⟩,
            ⟨"Start", #[]⟩]
          commands := #[.say "Fish!", .call ⟨3⟩, .set .assign ⟨1⟩ (.number .one), .say "Come in."]
          vars := #[⟨"gold", .string, .everywhere, .string "none"⟩,
            ⟨"gold", .number, .everywhere, .zero .number⟩,
            ⟨"gold", .bool, .everywhere, .bool false⟩,
            ⟨"fish", .number, .everywhere, .zero .number⟩] } ∧
      (fresh stall {}).replies haggling =
        [.ok (some "Start"), .error (.malformedDirective "wait" .missingDuration),
          .ok (some "Inn")] ∧
      (fresh stall {}).Isolated haggling := by
  refine ⟨by decide +kernel, by decide +kernel, isolated_serveAll stall {} haggling ?_⟩
  constructor <;> decide +kernel

end Shared

end Dialogue
