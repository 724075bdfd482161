import Qcg.Contract.Graph
import Qcg.Engine.Types
import Qcg.Journal.Stamp
import Qcg.Library.Procedure

/-!
# The live run

The environment a run executes in, the state that `run_inner` carries through its loop,
and the primitive steps on it. Everything outside the scheduler (executors, clocks,
cancellation, the interleaving of parallel tasks) is a function of the environment,
indexed by the number of times it was asked before.
-/

namespace Qcg

open Json (Value Members)

/-- How a task that reported nothing was joined. -/
inductive JoinError where
  | cancelled
  | panicked (message : Option String)
deriving DecidableEq, Repr

inductive WaveAction where
  /-- The task of a node makes its next attempt. -/
  | attempt (id : String)
  /-- The task of a node is joined; the error counts when it reported nothing. -/
  | join (id : String) (error : JoinError)
  /-- The run's cancellation is observed. -/
  | cancel
deriving DecidableEq, Repr

structure Env where
  api : Api
  stamps : Stamps
  graph : Graph
  runId : String
  contractSha256 : String
  /-- Generator id and version. -/
  generator : String
  contractRoot : String
  retentionDays : Value
  resourceHashes : List Members
  /-- Resolved and canonical admission inputs. -/
  inputs : BTreeMap Value
  /-- Inputs as the executors see them, with file inputs in the workspace. -/
  materialize : BTreeMap Value → BTreeMap Value
  evalExpr : String → ValueBag → Except String Bool
  debugWhen : Option String → String
  answers : BTreeMap Value
  confirmations : BTreeMap Bool
  parallelSafe : String → Bool
  replaySafe : String → Bool
  maxTotalSteps : Nat
  maxSteps : Nat
  maxParallelSteps : Nat
  maxEventCount : Option Nat
  cancelled : Nat → Bool
  schedulerYield : Nat → Bool
  /-- The elapsed limit and the time used, once the limit has expired. -/
  expired : Nat → Option (UInt64 × Duration)
  /-- One attempt of a node: its checkpoint, deadlines and executor. -/
  execute : Nat → NodeDef → ValueBag → Except EngineError StepOutcome
  wave : Nat → List WaveAction
  /-- Why the files of a settled attempt cannot be pinned. -/
  pinFailure : Nat → Option EngineError

namespace Env

variable (env : Env)

def evalBool (vars : ValueBag) : Option String → Except String Bool
  | none => .ok true
  | some expr => env.evalExpr expr vars

/-- The step budget of the run; a zero limit counts as one. -/
def stepLimit : Nat :=
  max 1 (min env.maxTotalSteps env.maxSteps)

def isParallelSafeNode (node : NodeDef) : Bool :=
  node.onFail.isNone && env.parallelSafe node.kind

end Env

/-- The durable records of a run with their fold, as its single writer holds them. -/
structure Journal where
  events : List Value := []
  state : RunState := {}
deriving DecidableEq

namespace Journal

def nextSeq (j : Journal) : Nat :=
  max j.state.lastSeq j.state.auditSeq + 1

/-- Sequence numbers never wrap. -/
def checkOverflow (seq : Nat) : Except JournalError Unit :=
  if 2 ^ 64 ≤ seq then .error (.invalidEvent "journal seq overflowed") else .ok ()

def checkRunId (runId : String) (payload : Members) : Except JournalError Unit :=
  match (Members.get payload "run_id").bind Value.asStr with
  | some id =>
      if id = runId then .ok ()
      else .error (.invalidEvent ("journal event run_id mismatch: expected `" ++ runId ++
        "`, found `" ++ id ++ "`"))
  | none => .ok ()

def checkCount (limit : Option Nat) (events : List Value) : Except JournalError Unit :=
  match limit with
  | some limit =>
      if limit ≤ events.length then .error (.eventCountExceeded (events.length + 1) limit)
      else .ok ()
  | none => .ok ()

/-- Appends a record after typed validation, the fold's own checks and the event limit. -/
def append (env : Env) (j : Journal) (kind : EventKind) (payload : Members) :
    Except JournalError Journal := do
  checkOverflow j.nextSeq
  checkRunId env.runId payload
  let event := env.stamps.stamp env.runId j.nextSeq kind payload
  let _ ← (RunEvent.fromFlat env.api event).mapError .invalidEvent
  let state ← j.state.apply env.api event
  checkCount env.maxEventCount j.events
  return { events := j.events ++ [event], state }

/-- Reopens a journal: its fold, with the identity seeded when it records none. -/
def reopen (env : Env) (events : List Value) : Except JournalError Journal := do
  let state ← RunState.foldValues env.api events
  return { events, state := { state with runId := state.runId.or (some env.runId) } }

end Journal

structure Live where
  states : BTreeMap NodeState := ∅
  vars : ValueBag := {}
  journal : Journal := {}
  executedSteps : Nat := 0
  /-- How often the environment was asked. -/
  tick : Nat := 0
  /-- Node paths handed to their executor, oldest first. -/
  dispatched : List String := []
deriving DecidableEq

abbrev EngineM := EStateM EngineError Live

variable (env : Env)

/-- Journals a record. Observation records go to the audit stream, which never fails a
run and takes no part in the fold. -/
def event (kind : EventKind) (payload : List (String × Value)) : EngineM Unit := fun live =>
  if kind.isObservation then .ok () live
  else
    match live.journal.append env kind (Members.ofList payload) with
    | .ok journal => .ok () { live with journal }
    | .error error => .error (.journal error) live

def setState (id : String) (state : NodeState) : EngineM Unit :=
  modify fun live => { live with states := live.states.insert id state }

def modifyVars (f : ValueBag → ValueBag) : EngineM Unit :=
  modify fun live => { live with vars := f live.vars }

def syncLiveOutcomes : EngineM Unit :=
  modify fun live => { live with vars := live.vars.syncOutcomeMetadata live.journal.state.vars }

def syncSubtree (path : String) : EngineM Unit :=
  modify fun live =>
    { live with vars := live.vars.syncStepOutcomeSubtree live.journal.state.vars path }

/-- Asks the environment, which may answer differently the next time. -/
def ask {α : Type} (question : Nat → α) : EngineM α := fun live =>
  .ok (question live.tick) { live with tick := live.tick + 1 }

def checkCancelled : EngineM Unit := do
  if ← ask env.cancelled then throw .canceled else pure ()

/-- The pins themselves come with the outcome of the attempt. -/
def pinAttemptFiles : EngineM Unit := do
  match ← ask env.pinFailure with
  | some error => throw error
  | none => pure ()

/-- The elapsed limit, reported by the error of the place that checks it. -/
def checkExpired (error : UInt64 → Duration → StepError) : EngineM Unit := do
  match ← ask env.expired with
  | some (limitSecs, used) => throw (.step (error limitSecs used))
  | none => pure ()

def runCheckpoint : EngineM Unit := do
  checkCancelled env
  checkExpired env .elapsedExpiredBeforeStart

/-- Charges one step to the run's budget. -/
def consume (node : String) : EngineM Unit := do
  let live ← get
  if live.executedSteps < env.stepLimit then
    set { live with executedSteps := live.executedSteps + 1 }
  else
    throw (.step (.globalStepBudgetExceeded node (.ofNat live.executedSteps)
      (.ofNat env.stepLimit)))

end Qcg
