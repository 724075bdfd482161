import Qcg.Model.Failure

/-!
# Journal events

Event kinds, the typed decoders of the public interface that the engine calls, and
the envelope check `RunEvent::from_flat` that every journal line passes.
-/

namespace Qcg

open Json (Value Members)

/-- The kinds of the public event registry, then the internal journal kinds. -/
inductive EventKind where
  | elapsedAccounted
  | runQueued
  | runStarted
  | runResumed
  | graphResolved
  | resource
  | stepStarted
  | stepRetry
  | stepFinished
  | stepReplayed
  | stepSkipped
  | foreachIteration
  | foreachBudgetExhausted
  | repairAttemptStarted
  | repairAttemptFinished
  | regenerateAttemptStarted
  | regenerateAttemptFinished
  | llmCall
  | llmDelta
  | agentCheckpoint
  | agentFileChanges
  | agentDelegated
  | agentCompleted
  | agentFailed
  | agentHandoff
  | contextCompacted
  | llmValidationFailed
  | llmRouteFailed
  | toolCall
  | mcpCleanupSettled
  | guardrailEvaluated
  | guardrailError
  | guardrailTripwire
  | toolBackendResolved
  | userInteraction
  | outOfContract
  | confirmRequest
  | sideEffect
  | dryRun
  | artifact
  | runWaiting
  | runError
  | runCanceled
  | runInterrupted
  | runFinished
  | lagged
  | auditDegraded
  | budgetCharged
  | elapsedExceeded
  | foreachSiblingDrained
  | foreachIterationSettled
  | foreachSiblingIgnored
  | hookFailed
  | hookReplayed
  | hookSkipped
  | mcpAuthorizationRequired
  | mcpContinuationConsumed
  | mcpContinuationResumed
  | mcpDestinationDecision
  | mcpInputPending
  | operationFinished
  | operationRepeated
  | parallelReplayAuthorized
  | parallelTaskJoined
  | operationStarted
  | runForked
  | runYielded
  | statePatched
  | stepInterrupted
  | stepTimeout
  | userAnswered
  | userCancelRequested
  | userConfirmed
deriving DecidableEq, Repr

namespace EventKind

def name : EventKind → String
  | elapsedAccounted => "elapsed_accounted"
  | runQueued => "run_queued"
  | runStarted => "run_started"
  | runResumed => "run_resumed"
  | graphResolved => "graph_resolved"
  | resource => "resource"
  | stepStarted => "step_started"
  | stepRetry => "step_retry"
  | stepFinished => "step_finished"
  | stepReplayed => "step_replayed"
  | stepSkipped => "step_skipped"
  | foreachIteration => "foreach_iteration"
  | foreachBudgetExhausted => "foreach_budget_exhausted"
  | repairAttemptStarted => "repair_attempt_started"
  | repairAttemptFinished => "repair_attempt_finished"
  | regenerateAttemptStarted => "regenerate_attempt_started"
  | regenerateAttemptFinished => "regenerate_attempt_finished"
  | llmCall => "llm_call"
  | llmDelta => "llm_delta"
  | agentCheckpoint => "agent_checkpoint"
  | agentFileChanges => "agent_file_changes"
  | agentDelegated => "agent_delegated"
  | agentCompleted => "agent_completed"
  | agentFailed => "agent_failed"
  | agentHandoff => "agent_handoff"
  | contextCompacted => "context_compacted"
  | llmValidationFailed => "llm_validation_failed"
  | llmRouteFailed => "llm_route_failed"
  | toolCall => "tool_call"
  | mcpCleanupSettled => "mcp_cleanup_settled"
  | guardrailEvaluated => "guardrail_evaluated"
  | guardrailError => "guardrail_error"
  | guardrailTripwire => "guardrail_tripwire"
  | toolBackendResolved => "tool_backend_resolved"
  | userInteraction => "user_interaction"
  | outOfContract => "out_of_contract"
  | confirmRequest => "confirm_request"
  | sideEffect => "side_effect"
  | dryRun => "dry_run"
  | artifact => "artifact"
  | runWaiting => "run_waiting"
  | runError => "run_error"
  | runCanceled => "run_canceled"
  | runInterrupted => "run_interrupted"
  | runFinished => "run_finished"
  | lagged => "lagged"
  | auditDegraded => "audit_degraded"
  | budgetCharged => "budget_charged"
  | elapsedExceeded => "elapsed_exceeded"
  | foreachSiblingDrained => "foreach_sibling_drained"
  | foreachIterationSettled => "foreach_iteration_settled"
  | foreachSiblingIgnored => "foreach_sibling_ignored"
  | hookFailed => "hook_failed"
  | hookReplayed => "hook_replayed"
  | hookSkipped => "hook_skipped"
  | mcpAuthorizationRequired => "mcp_authorization_required"
  | mcpContinuationConsumed => "mcp_continuation_consumed"
  | mcpContinuationResumed => "mcp_continuation_resumed"
  | mcpDestinationDecision => "mcp_destination_decision"
  | mcpInputPending => "mcp_input_pending"
  | operationFinished => "operation_finished"
  | operationRepeated => "operation_repeated"
  | parallelReplayAuthorized => "parallel_replay_authorized"
  | parallelTaskJoined => "parallel_task_joined"
  | operationStarted => "operation_started"
  | runForked => "run_forked"
  | runYielded => "run_yielded"
  | statePatched => "state_patched"
  | stepInterrupted => "step_interrupted"
  | stepTimeout => "step_timeout"
  | userAnswered => "user_answered"
  | userCancelRequested => "user_cancel_requested"
  | userConfirmed => "user_confirmed"

/-- The kinds with a typed public payload. -/
def publicKinds : List EventKind :=
  [elapsedAccounted, runQueued, runStarted, runResumed, graphResolved, resource, stepStarted,
    stepRetry, stepFinished, stepReplayed, stepSkipped, foreachIteration,
    foreachBudgetExhausted, repairAttemptStarted, repairAttemptFinished,
    regenerateAttemptStarted, regenerateAttemptFinished, llmCall, llmDelta, agentCheckpoint,
    agentFileChanges, agentDelegated, agentCompleted, agentFailed, agentHandoff,
    contextCompacted, llmValidationFailed, llmRouteFailed, toolCall, mcpCleanupSettled,
    guardrailEvaluated, guardrailError, guardrailTripwire, toolBackendResolved,
    userInteraction, outOfContract, confirmRequest, sideEffect, dryRun, artifact, runWaiting,
    runError, runCanceled, runInterrupted, runFinished, lagged]

/-- Streamed journal kinds without a public payload schema. -/
def internalKinds : List EventKind :=
  [auditDegraded, budgetCharged, elapsedExceeded, foreachSiblingDrained,
    foreachIterationSettled, foreachSiblingIgnored, hookFailed, hookReplayed, hookSkipped,
    mcpAuthorizationRequired, mcpContinuationConsumed, mcpContinuationResumed,
    mcpDestinationDecision, mcpInputPending, operationFinished, operationRepeated,
    parallelReplayAuthorized, parallelTaskJoined, operationStarted, runForked, runYielded,
    statePatched, stepInterrupted, stepTimeout, userAnswered, userCancelRequested,
    userConfirmed]

def ofName (s : String) : Option EventKind :=
  (publicKinds ++ internalKinds).find? fun kind => kind.name = s

def isPublic (kind : EventKind) : Bool :=
  publicKinds.contains kind

/-- Kinds that end a run's stream. -/
def isTerminal : EventKind → Bool
  | runFinished | runError | runCanceled | runInterrupted => true
  | _ => false

/-- Kinds that go to the audit stream and take no part in the fold of a run. -/
def isObservation : EventKind → Bool
  | graphResolved | stepRetry | stepReplayed | foreachIteration | foreachBudgetExhausted
  | repairAttemptFinished | regenerateAttemptFinished | llmDelta | agentDelegated
  | agentCompleted | agentFailed | agentHandoff | contextCompacted | llmValidationFailed
  | llmRouteFailed | toolCall | guardrailEvaluated | guardrailError | guardrailTripwire
  | toolBackendResolved | userInteraction | outOfContract | sideEffect | dryRun | artifact => true
  | _ => false

set_option maxRecDepth 4000 in
theorem ofName_name (kind : EventKind) : ofName kind.name = some kind := by
  cases kind <;> decide

variable {s : String}

theorem name_of_ofName {kind : EventKind} (h : ofName s = some kind) : kind.name = s := by
  simpa using List.find?_some h

theorem ofName_eq_some_iff {kind : EventKind} : ofName s = some kind ↔ kind.name = s := by
  constructor
  · exact name_of_ofName
  · rintro rfl
    exact ofName_name kind

end EventKind

/-- A question form; only its id takes part in the fold. -/
structure FormSpec where
  id : String
  body : Value
deriving DecidableEq, Repr

/-- A confirmation request; only its id takes part in the fold. -/
structure ConfirmSpec where
  id : String
  body : Value
deriving DecidableEq, Repr

/-- The decoders of the public interface that the fold calls. The development is
about every such interface: nothing below depends on which payloads it accepts. -/
structure Api where
  /-- Whether the payload of a public kind decodes as that kind's data type. -/
  decodes : EventKind → Value → Bool
  formSpec : Value → Option FormSpec
  confirmSpec : Value → Option ConfirmSpec
  /-- Whether a text is an RFC 3339 timestamp. -/
  rfc3339 : String → Bool

/-- Takes every payload, form and time stamp as it comes. -/
def Api.plain : Api where
  decodes _ _ := true
  formSpec value := (value.getStr "id").map fun id => { id, body := value }
  confirmSpec value := (value.getStr "id").map fun id => { id, body := value }
  rfc3339 _ := true

structure RunEvent where
  seq : Nat
  ts : String
  runId : String
  traceId : String
  spanId : String
  parentSpanId : Option String
  path : Option NodePath
  kind : String
  data : Value
deriving DecidableEq, Repr

namespace RunEvent

/-- The members that every event carries besides its payload. -/
def commonFields : List String :=
  ["seq", "ts", "t", "run_id", "trace_id", "span_id", "parent_span_id", "node"]

def requiredString (members : Members) (field label : String) : Except String String :=
  match (Members.get members field).bind Value.asStr with
  | some s => .ok s
  | none => .error ("run event " ++ label ++ " is required")

def envelope (value : Value) : Except String RunEvent := do
  let members ←
    match value.asObject with
    | some members => .ok members
    | none => .error "run event must be an object"
  let seq ←
    match (Members.get members "seq").bind Value.asU64 with
    | some seq => .ok seq
    | none => .error "run event seq is required"
  let ts ← requiredString members "ts" "ts"
  let kind ← requiredString members "t" "kind"
  let runId ← requiredString members "run_id" "run_id"
  let traceId ← requiredString members "trace_id" "trace_id"
  let spanId ← requiredString members "span_id" "span_id"
  return {
    seq, ts, runId, traceId, spanId, kind
    parentSpanId := (Members.get members "parent_span_id").bind Value.asStr
    path := (Members.get members "node").bind Value.asStr
    data := .obj (members.filter fun member => !commonFields.contains member.1) }

/-- Schema 1 identity events omitted the mode and mean wall-clock accounting. -/
def migrate (kind : EventKind) (data : Value) : Value :=
  match kind, data with
  | .runQueued, .obj members | .runStarted, .obj members =>
      if data.getU64 "schema_version" = some 1 ∧ data.get "elapsed_budget_mode" = none then
        .obj (Members.insert members "elapsed_budget_mode" (.str "wall_clock"))
      else data
  | _, _ => data

/-- Kinds outside the public registry carry opaque payloads. -/
def parseData (api : Api) (kind : String) (data : Value) : Except String Value :=
  match EventKind.ofName kind with
  | some k =>
      if k.isPublic then
        if api.decodes k (migrate k data) then .ok (migrate k data)
        else .error ("invalid " ++ kind ++ " event data")
      else .ok data
  | none => .ok data

def fromFlat (api : Api) (value : Value) : Except String RunEvent := do
  let event ← envelope value
  let data ← parseData api event.kind event.data
  return { event with data }

end RunEvent

structure AgentFileChanges where
  removedFiles : List String
  writtenFiles : List String

namespace AgentFileChanges

def stringsOfValue (v : Value) : Option (List String) := do
  (← v.asArray).mapM Value.asStr

def ofValue (v : Value) : Option AgentFileChanges := do
  let members ← v.asObject
  guard (onlyFields ["removed_files", "written_files"] members)
  let removedFiles ← stringsOfValue (← v.get "removed_files")
  let writtenFiles ← stringsOfValue (← v.get "written_files")
  return { removedFiles, writtenFiles }

end AgentFileChanges

end Qcg
