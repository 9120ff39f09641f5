import Dialogue.Proofs.Charting
import Dialogue.Proofs.Visits

/-!
# What a session asks of its host

Whatever the host answers and whether its nodes compile or fail, a session asks
for a block at most once a name and for a variable at most once a name, gives
every new variable its zero at once, puts every new command into a block at once,
and speaks of no block and no variable that it has not been given
(`Session.orderly_calls`). The calls that the ledger holds are those that have
made the host what it is: `HostCall.Transcript` replays them.
-/

namespace Dialogue

def Command.target? : Command → Option BlockId
  | .menu _ target | .call target => some target
  | _ => none

def Command.subject? : Command → Option VariableId
  | .set _ subject _ => some subject
  | .ifThen condition | .elseIf condition => some condition.subject
  | _ => none

namespace HostCall

-- ---------------------------------------------------------------------------
-- Calls in order
-- ---------------------------------------------------------------------------

/-- What a call may be, between the calls before it and the calls after it. -/
def Allowed (earlier later : List HostCall) : HostCall → Prop
  | .createBlock name _ => ∀ id, .createBlock name id ∉ earlier
  | .createCommand command id =>
    (∃ block name rest, later = .appendCommand block id :: rest ∧
      .createBlock name block ∈ earlier) ∧
    (∀ block ∈ command.target?, ∃ name, .createBlock name block ∈ earlier) ∧
    ∀ subject ∈ command.subject?, ∃ name kind, .createVariable name kind subject ∈ earlier
  | .appendCommand _ id => ∃ before command, earlier = before ++ [.createCommand command id]
  | .createVariable name kind id =>
    (∀ other id, .createVariable name other id ∉ earlier) ∧
      ∃ rest, later = .setValue id (.zero kind) :: rest
  | .setValue id value =>
    ∃ before name kind, earlier = before ++ [.createVariable name kind id] ∧ value = .zero kind

/-- Calls that follow on earlier ones, each of them allowed where it stands. -/
def Orderly (earlier calls : List HostCall) : Prop :=
  ∀ before call after, calls = before ++ call :: after → call.Allowed (earlier ++ before) after

theorem Allowed.more {call : HostCall} (h : call.Allowed earlier later) (more : List HostCall) :
    call.Allowed earlier (later ++ more) := by
  cases call with
  | createCommand command id =>
    obtain ⟨⟨block, name, rest, rfl, hblock⟩, htarget, hsubject⟩ := h
    exact ⟨⟨block, name, rest ++ more, rfl, hblock⟩, htarget, hsubject⟩
  | createVariable name kind id =>
    obtain ⟨hnew, rest, rfl⟩ := h
    exact ⟨hnew, rest ++ more, rfl⟩
  | _ => exact h

namespace Orderly

theorem nil : Orderly earlier [] := by
  rintro before call after h
  simp at h

theorem cons {call : HostCall} (hcall : call.Allowed earlier calls)
    (hrest : Orderly (earlier ++ [call]) calls) : Orderly earlier (call :: calls) := by
  intro before other after h
  cases before with
  | nil =>
    obtain ⟨rfl, rfl⟩ := List.cons.inj h
    simpa using hcall
  | cons first more =>
    obtain ⟨rfl, rfl⟩ := List.cons.inj h
    simpa using hrest more other after rfl

theorem append (hfirst : Orderly earlier first) (hrest : Orderly (earlier ++ first) rest) :
    Orderly earlier (first ++ rest) := by
  intro before call after h
  rcases List.append_eq_append_iff.mp h with ⟨skipped, rfl, hcut⟩ | ⟨left, rfl, hcut⟩
  · rw [← List.append_assoc]
    exact hrest skipped call after hcut
  · cases left with
    | nil => simpa using hrest [] call after hcut.symm
    | cons head tail =>
      obtain ⟨rfl, rfl⟩ := List.cons.inj hcut
      exact (hfirst before call tail rfl).more rest

end Orderly

-- ---------------------------------------------------------------------------
-- Calls and answers
-- ---------------------------------------------------------------------------

/-- The calls, with the identifiers that the host has answered, lead from one
state of the host to another. -/
inductive Transcript {σ : Type} [Host σ] (start : σ) : List HostCall → σ → Prop
  | nil : Transcript start [] start
  | createBlock (name : String) : Transcript start calls host →
    Transcript start (calls ++ [.createBlock name (Host.createBlock host name).1])
      (Host.createBlock host name).2
  | createCommand (command : Command) : Transcript start calls host →
    Transcript start (calls ++ [.createCommand command (Host.createCommand host command).1])
      (Host.createCommand host command).2
  | appendCommand (block : BlockId) (command : CommandId) : Transcript start calls host →
    Transcript start (calls ++ [.appendCommand block command])
      (Host.appendCommand host block command)
  | createVariable (name : String) (kind : Kind) : Transcript start calls host →
    Transcript start (calls ++ [.createVariable name kind (Host.createVariable host name kind).1])
      (Host.createVariable host name kind).2
  | setValue (id : VariableId) (value : Literal) : Transcript start calls host →
    Transcript start (calls ++ [.setValue id value]) (Host.setValue host id value)

end HostCall

-- ---------------------------------------------------------------------------
-- Sessions whose calls are in order
-- ---------------------------------------------------------------------------

variable {σ : Type} [Host σ] {start : σ}

namespace NamedCommand

variable {session : Session σ}

theorem find?_of_target? (command : NamedCommand)
    (h : block ∈ (command.resolve session).target?) :
    ∃ name, (command.declare session).blocks.find? name = some block := by
  cases command with
  | menu text target =>
    cases h
    exact ⟨target, Session.find?_withBlock_self session target⟩
  | call target =>
    cases h
    exact ⟨target, Session.find?_withBlock_self session target⟩
  | _ => cases h

theorem find?_of_subject? (command : NamedCommand)
    (h : subject ∈ (command.resolve session).subject?) :
    ∃ name kind, (command.declare session).vars.find? name = some ⟨subject, kind⟩ := by
  have hfind (name : String) (kind : Kind) :
      (session.withVariable name kind).vars.find? name = some (session.variableOf name kind) :=
    Session.find?_withVariable_self session name kind
  cases command with
  | set operator name value =>
    cases h
    exact ⟨name, _, hfind name value.kind⟩
  | ifThen check =>
    cases h
    exact ⟨check.name, _, hfind check.name check.value.kind⟩
  | elseIf check =>
    cases h
    exact ⟨check.name, _, hfind check.name check.value.kind⟩
  | _ => cases h

end NamedCommand

namespace Session

def calls (session : Session σ) : List HostCall := session.ledger.calls.toList

/-- The calls of a session are in order, and they have made its host what it is. -/
structure Lawful (start : σ) (session : Session σ) : Prop where
  orderly : HostCall.Orderly [] session.calls
  transcript : HostCall.Transcript start session.calls session.ledger.host

structure Recorded (start : σ) (session : Session σ) : Prop extends Lawful start session where
  blocks : ∀ name id, session.blocks.find? name = some id ↔ .createBlock name id ∈ session.calls
  vars : ∀ name id kind, session.vars.find? name = some ⟨id, kind⟩ ↔
    .createVariable name kind id ∈ session.calls

theorem recorded_fresh (start : σ) (options : Options) : Recorded start (.fresh start options) where
  orderly := .nil
  transcript := .nil
  blocks := by
    intro name id
    simp [fresh, calls, Table.find?, Table.findIn]
  vars := by
    intro name id kind
    simp [fresh, calls, Table.find?, Table.findIn]

theorem withBlock_of_new {session : Session σ} (h : session.blocks.find? name = none) :
    session.blockOf name = (Host.createBlock session.ledger.host name).1 ∧
      (session.withBlock name).ledger.host = (Host.createBlock session.ledger.host name).2 ∧
      (session.withBlock name).calls = session.calls ++
        [.createBlock name (Host.createBlock session.ledger.host name).1] := by
  simp only [calls, withBlock, blockOf, BlockRegistry.resolve, h]
  exact ⟨rfl, rfl, Array.toList_push⟩

theorem withVariable_of_new {session : Session σ} (h : session.vars.find? name = none)
    (kind : Kind) :
    session.variableOf name kind =
        ⟨(Host.createVariable session.ledger.host name kind).1, kind⟩ ∧
      (session.withVariable name kind).ledger.host =
        Host.setValue (Host.createVariable session.ledger.host name kind).2
          (Host.createVariable session.ledger.host name kind).1 (.zero kind) ∧
      (session.withVariable name kind).calls = session.calls ++
        [.createVariable name kind (Host.createVariable session.ledger.host name kind).1,
          .setValue (Host.createVariable session.ledger.host name kind).1 (.zero kind)] := by
  simp only [calls, withVariable, variableOf, VariableRegistry.resolve, h]
  refine ⟨rfl, rfl, ?_⟩
  simp [Ledger.createVariable, Ledger.setValue, Ledger.note]

theorem calls_withCommand (session : Session σ) (block : BlockId) (command : Command) :
    (session.withCommand block command).calls = session.calls ++
      [.createCommand command (Host.createCommand session.ledger.host command).1,
        .appendCommand block (Host.createCommand session.ledger.host command).1] := by
  simp [calls, withCommand, Ledger.emit, Ledger.createCommand, Ledger.appendCommand]

namespace Recorded

variable {session : Session σ}

theorem withBlock (h : session.Recorded start) (name : String) :
    (session.withBlock name).Recorded start := by
  cases hfind : session.blocks.find? name with
  | some block => rwa [withBlock_of_find? hfind]
  | none =>
    have hnew : ∀ id, .createBlock name id ∉ session.calls := by
      intro id hmem
      rw [← h.blocks, hfind] at hmem
      cases hmem
    obtain ⟨hid, hhost, hcalls⟩ := withBlock_of_new hfind
    refine ⟨⟨?_, ?_⟩, ?_, ?_⟩
    · rw [hcalls]
      exact h.orderly.append (.cons hnew .nil)
    · rw [hcalls, hhost]
      exact h.transcript.createBlock name
    · intro other id
      rw [hcalls, find?_withBlock, hid, List.mem_append, ← h.blocks]
      by_cases hname : name = other
      · subst hname
        simp [hfind, eq_comm]
      · simp [hname, Ne.symm hname]
    · intro other id kind
      rw [hcalls, List.mem_append, ← h.vars]
      simp [Session.withBlock]

theorem withVariable (h : session.Recorded start) (name : String) (kind : Kind) :
    (session.withVariable name kind).Recorded start := by
  cases hfind : session.vars.find? name with
  | some found => rwa [withVariable_of_find? hfind]
  | none =>
    have hnew : ∀ other id, .createVariable name other id ∉ session.calls := by
      intro other id hmem
      rw [← h.vars, hfind] at hmem
      cases hmem
    obtain ⟨hid, hhost, hcalls⟩ := withVariable_of_new hfind kind
    refine ⟨⟨?_, ?_⟩, ?_, ?_⟩
    · rw [hcalls]
      exact h.orderly.append (.cons ⟨hnew, [], rfl⟩ (.cons ⟨_, name, kind, rfl, rfl⟩ .nil))
    · rw [hcalls, hhost, ← List.singleton_append, ← List.append_assoc]
      exact (h.transcript.createVariable name kind).setValue _ (.zero kind)
    · intro other id
      rw [hcalls, List.mem_append, ← h.blocks]
      simp [Session.withVariable]
    · intro other id found
      rw [hcalls, find?_withVariable, hid, List.mem_append, ← h.vars]
      by_cases hname : name = other
      · subst hname
        simp [hfind, and_comm, eq_comm]
      · simp [hname, Ne.symm hname]

/-- A command may be put into a block that the registry knows, if the registries
know what it speaks of. -/
theorem withCommand (h : session.Recorded start) {command : Command}
    (hblock : session.blocks.find? name = some block)
    (htarget : ∀ target ∈ command.target?, ∃ name, session.blocks.find? name = some target)
    (hsubject : ∀ subject ∈ command.subject?,
      ∃ name kind, session.vars.find? name = some ⟨subject, kind⟩) :
    (session.withCommand block command).Recorded start := by
  have hcalls := calls_withCommand session block command
  simp only [h.blocks] at hblock htarget
  simp only [h.vars] at hsubject
  refine ⟨⟨?_, ?_⟩, ?_, ?_⟩
  · rw [hcalls]
    refine h.orderly.append (.cons ?_ (.cons ⟨_, command, rfl⟩ .nil))
    exact ⟨⟨block, name, [], rfl, hblock⟩, htarget, hsubject⟩
  · rw [hcalls, ← List.singleton_append, ← List.append_assoc]
    exact (h.transcript.createCommand command).appendCommand block _
  · intro other id
    rw [hcalls, List.mem_append, ← h.blocks]
    simp [Session.withCommand]
  · intro other id kind
    rw [hcalls, List.mem_append, ← h.vars]
    simp [Session.withCommand]

theorem declare (h : session.Recorded start) (command : NamedCommand) :
    (command.declare session).Recorded start := by
  obtain hsame | ⟨name, hblock⟩ | ⟨name, kind, hvar⟩ := command.declare_cases session
  · rwa [hsame]
  · rw [hblock]
    exact h.withBlock name
  · rw [hvar]
    exact h.withVariable name kind

theorem action (h : session.Recorded start) (action : Action) :
    (action.perform session).Recorded start := by
  cases action with
  | mention name => exact h.withBlock name
  | emit target command =>
    refine ((h.withBlock target).declare command).withCommand (find?_emit session target command)
      ?_ ?_
    · intro block hblock
      exact command.find?_of_target? hblock
    · intro subject hsubject
      exact command.find?_of_subject? hsubject
  | _ => exact ⟨⟨h.orderly, h.transcript⟩, h.blocks, h.vars⟩

theorem perform (h : session.Recorded start) (actions : List Action) :
    (session.perform actions).Recorded start := by
  induction actions generalizing session with
  | nil => exact h
  | cons action rest ih => exact ih (h.action action)

end Recorded

/-- Nodes that are compiled one after another, and a script after them, ask the
host in order, whatever it answers and wherever they fail. -/
theorem orderly_calls (host : σ) (options : Options) (sources : List Node) (script : Script) :
    Lawful host ((fresh host options).visits sources) ∧
      Lawful host (((fresh host options).visits sources).after (Lowering.script script)) := by
  have hnodes : Recorded host ((fresh host options).visits sources) := by
    rw [visits_eq]
    exact (recorded_fresh host options).perform _
  have hscript : Recorded host
      (((fresh host options).visits sources).after (Lowering.script script)) := by
    rw [after_script]
    exact hnodes.perform _
  exact ⟨hnodes.toLawful, hscript.toLawful⟩

end Session

end Dialogue
