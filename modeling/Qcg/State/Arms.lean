import Qcg.State.Types
import Qcg.Policy.Path

/-!
# The arms of the run fold

One function per group of event kinds, each from the folded state and the event to
the next folded state or the refusal of the event. Counters are bounded as the
engine's machine integers are and refuse to wrap.
-/

namespace Qcg

open Json (Value Members)

/-- Addition of a counter of a given bit width; an overflow refuses the event. -/
def checkedAdd (width a b : Nat) (message : String) : Except JournalError Nat :=
  if a + b < 2 ^ width then .ok (a + b) else .error (.invalidEvent message)

/-- A value that must be present, or the event is refused. -/
def required {α : Type} (o : Option α) (message : String) : Except JournalError α :=
  match o with
  | some a => .ok a
  | none => .error (.invalidEvent message)

def failureDetail (event : Value) (defaultCode : FailureCode) (defaultMessage : String) :
    Except JournalError FailureDetail :=
  match event.get "reason" with
  | none => .ok (FailureDetail.new defaultCode defaultMessage)
  | some reason => required (FailureDetail.ofValue reason) "invalid structured failure detail"

def pinsOf (event : Value) (key : String) : Except JournalError (List FilePin) :=
  match event.get key with
  | none => .ok []
  | some v => required (FilePin.listOfValue v) ("invalid " ++ key ++ " pins")

/-- String members of an object, the others left out. -/
def stringMembers (members : Members) : List (String × String) :=
  members.filterMap fun member => member.2.asStr.map fun s => (member.1, s)

/-- The generator id is the text before the version mark. -/
def generatorIdOf (generator : String) : String :=
  String.ofList (generator.toList.takeWhile (· ≠ '@'))

def clampI32 (n : Int) : Int :=
  max (-2 ^ 31) (min n (2 ^ 31 - 1))

namespace FoldState

/-- Projects the first reported suspension as the pending prompt. -/
def projectInteraction (s : FoldState) : FoldState :=
  { s with
    pending := s.pendingInteractions.first?.map Prod.snd
    pendingSeq := s.pendingInteractions.first?.bind fun entry => s.interactionSeqs[entry.1]? }

/-- A terminal report retires only its owner's prompt. -/
def retireInteraction (s : FoldState) (path : String) : FoldState :=
  let retired := s.pendingInteractions[path]?
  let s := { s with pendingInteractions := s.pendingInteractions.erase path }
  let s :=
    match retired, s.pending with
    | some retired, some pending =>
        if pending.responseIdentity = retired.responseIdentity then s.projectInteraction else s
    | _, _ => s
  { s with interactionSeqs := s.interactionSeqs.erase path }

def interactionOf (api : Api) (payload : Value) (confirmation : Bool) : Option Interaction :=
  if confirmation then (api.confirmSpec payload).map .confirmation
  else (api.formSpec payload).map .question

/-- The node that owns a prompt: the event's own, or the one that reported it before. -/
def interactionOwner (s : FoldState) (event : Value) (interaction : Interaction) :
    Option String :=
  match event.getStr "node" with
  | some path => some path
  | none =>
      (s.pendingInteractions.toList.find? fun entry =>
        entry.2.responseIdentity = interaction.responseIdentity).map Prod.fst

/-- Requests and suspended reports install prompts with the sequence that asked. -/
def installInteraction (api : Api) (s : FoldState) (event : Value) (confirmation : Bool) :
    Except JournalError FoldState :=
  match event.get (if confirmation then "confirm" else "question") with
  | none => .ok s
  | some payload => do
      let interaction ← required (interactionOf api payload confirmation)
        "invalid saved interaction"
      let seq := event.getU64 "seq"
      match s.interactionOwner event interaction with
      | some owner =>
          let seqs := s.interactionSeqs.erase owner
          let seqs :=
            match seq with
            | some seq => seqs.insert owner seq
            | none => seqs
          return ({ s with
            interactionSeqs := seqs
            pendingInteractions :=
              s.pendingInteractions.insert owner interaction } : FoldState).projectInteraction
      | none => return { s with pending := some interaction, pendingSeq := seq }

/-- Makes the attempt's revisions the workspace's latest ones. -/
def applyWorkspaceFilePins (s : FoldState) (files : List FilePin) : FoldState :=
  files.foldl
    (fun s pin =>
      { s with
        latestFilePins := s.latestFilePins.insert pin.path pin.sha256
        removedFiles := s.removedFiles.erase pin.path })
    s

/-- Keeps every revision for later verification. -/
def recordHistoricalPins (s : FoldState) (pins : List FilePin) : FoldState :=
  pins.foldl
    (fun s pin =>
      { s with
        historicalFilePins := s.historicalFilePins.insert pin.path
          ((s.historicalFilePins.getD pin.path ∅).insert pin.sha256) })
    s

def recordNodeExecution (s : FoldState) (path : String) : Except JournalError FoldState := do
  let executions ← checkedAdd 64 (s.nodeExecutions.getD path 0) 1
    "node execution generation overflowed"
  return { s with nodeExecutions := s.nodeExecutions.insert path executions }

def succeededStatus (status : String) : Bool :=
  ["success", "repaired", "routed", "answered_on_fail", "regenerated"].contains status

def suspendedStatus (status : String) : Bool :=
  ["needs_user", "needs_confirm"].contains status

def settleTasks (s : FoldState) (path : String) (succeeded : Bool) : FoldState :=
  { s with
    unresolvedTasks := s.unresolvedTasks.filter fun owner fact =>
      owner != path && !(succeeded && (fact.index "node").asStr = some path) }

/-- The output a success publishes: a `null` output counts as none. -/
def stepOutput (event : Value) : Option Value :=
  (event.get "output").filter fun v => !v.isNull

def recordSuccess (s : FoldState) (event : Value) (path : String) (files : List FilePin) :
    Except JournalError FoldState := do
  let stepsSucceeded ← checkedAdd 64 s.budget.stepsSucceeded 1 "succeeded step count overflowed"
  let output := stepOutput event
  let vars :=
    match output with
    | some output => s.vars.setStepOutput ((event.getStr "output_name").getD path) output
    | none => s.vars
  return { s with
    budget := { s.budget with stepsSucceeded }
    vars := vars.setStepOutcome path "success" none
    nodes := s.nodes.insert path (.success output files) }

def recordFailure (s : FoldState) (event : Value) (path status : String) :
    Except JournalError FoldState := do
  let stepsFailed ← checkedAdd 64 s.budget.stepsFailed 1 "failed step count overflowed"
  let reason ← failureDetail event .executionFailed status
  return { s with
    budget := { s.budget with stepsFailed }
    vars := s.vars.setStepOutcome path "failed" (some reason.toValue)
    nodes := s.nodes.insert path (.failed reason) }

/-- A report that ends an execution drops its checkpoint and prompt and is counted. -/
def finishExecution (s : FoldState) (path : String) : Except JournalError FoldState :=
  (({ s with checkpoints := s.checkpoints.erase path } : FoldState).retireInteraction
    path).recordNodeExecution path

def applyStepFinished (api : Api) (s : FoldState) (event : Value) :
    Except JournalError FoldState := do
  let path ← required (event.getStr "node") "step_finished node is required"
  let status ← required (event.getStr "status") "step_finished status is required"
  let files ← pinsOf event "files"
  let failedFiles ← pinsOf event "failed_files"
  let s := s.recordHistoricalPins (files ++ failedFiles)
  let succeeded := succeededStatus status
  let suspended := suspendedStatus status
  let s := s.settleTasks path succeeded
  let s := if succeeded || suspended then s.applyWorkspaceFilePins files else s
  if suspended then
    installInteraction api s event (status = "needs_confirm")
  else if succeeded then
    (← s.recordSuccess event path files).finishExecution path
  else
    (← s.recordFailure event path status).finishExecution path

def applyStepSkipped (s : FoldState) (event : Value) : Except JournalError FoldState := do
  let stepsSkipped ← checkedAdd 64 s.budget.stepsSkipped 1 "skipped step count overflowed"
  let s := { s with budget := { s.budget with stepsSkipped } }
  match event.getStr "node" with
  | none => return s
  | some path =>
      let reason ← failureDetail event .executionFailed "step was skipped"
      let s := ({ s with nodes := s.nodes.insert path (.skipped reason) } : FoldState)
      let s := s.retireInteraction path
      return { s with vars := s.vars.setStepOutcome path "skipped" (some reason.toValue) }

end FoldState

end Qcg
