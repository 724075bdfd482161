import Qcg.State.Arms

/-!
# Applying an event to the run state

`RunState.apply` checks an event against the folded identity, the terminal gate and
the known kinds, and then runs the arm of its kind. `foldValues` folds a whole
journal with the same typed validation.
-/

namespace Qcg

open Json (Value Members)

def journalSchemaVersion : Nat := 2

namespace FoldState

def applyStepStarted (s : FoldState) : Except JournalError FoldState := do
  let stepsExecuted ← checkedAdd 64 s.budget.stepsExecuted 1 "executed step count overflowed"
  return { s with budget := { s.budget with stepsExecuted } }

def applyBudgetCharged (s : FoldState) (event : Value) : Except JournalError FoldState := do
  let amount ←
    match event.get "amount" with
    | none => .ok 1
    | some v => required v.asU64 "budget_charged amount must be a non-negative integer"
  let budgetCharged ← checkedAdd 64 s.budget.budgetCharged amount "budget charge count overflowed"
  return { s with budget := { s.budget with budgetCharged, hasBudgetCharges := true } }

def applyRepairAttemptStarted (s : FoldState) : Except JournalError FoldState := do
  let repairAttempts ← checkedAdd 64 s.budget.repairAttempts 1 "repair attempt count overflowed"
  return { s with budget := { s.budget with repairAttempts } }

def applyRegenerateAttemptStarted (s : FoldState) : Except JournalError FoldState := do
  let regenerateAttempts ← checkedAdd 64 s.budget.regenerateAttempts 1
    "regenerate attempt count overflowed"
  return { s with budget := { s.budget with regenerateAttempts } }

def tokenCounter (tokens : Value) (name : String) : Except JournalError Nat := do
  let v ← required (tokens.get name) ("llm_call event is missing token count " ++ name)
  required v.asU64 ("invalid token count " ++ name)

def addTokens (b : BudgetState) (tokens : Value) : Except JournalError BudgetState := do
  let tokensInput ← checkedAdd 64 b.tokensInput (← tokenCounter tokens "input")
    "input token count overflowed"
  let tokensOutput ← checkedAdd 64 b.tokensOutput (← tokenCounter tokens "output")
    "output token count overflowed"
  let tokensCachedInput ← checkedAdd 64 b.tokensCachedInput (← tokenCounter tokens "cached_input")
    "cached input token count overflowed"
  let creation ←
    match tokens.get "cache_creation_input" with
    | some _ => tokenCounter tokens "cache_creation_input"
    | none => .ok 0
  let tokensCacheCreationInput ← checkedAdd 64 b.tokensCacheCreationInput creation
    "cache creation input token count overflowed"
  return { b with tokensInput, tokensOutput, tokensCachedInput, tokensCacheCreationInput }

def applyLlmCall (s : FoldState) (event : Value) : Except JournalError FoldState := do
  let llmCalls ← checkedAdd 64 s.budget.llmCalls 1 "LLM call count overflowed"
  let budget := { s.budget with llmCalls }
  let budget ←
    match (event.get "tokens").filter Value.isObject with
    | some tokens => addTokens budget tokens
    | none => .ok budget
  let cost ← required (event.get "cost_microusd") "llm_call event is missing cost_microusd"
  let cost ← required cost.asU64 "invalid cost counter"
  let costMicrousd ← checkedAdd 64 budget.costMicrousd cost "cost counter overflowed"
  return { s with budget := { budget with costMicrousd } }

/-- A hosted search without a priced cost leaves the run's liability open. -/
def noteSearchCost (s : FoldState) (kind : EventKind) (event : Value) : FoldState :=
  if kind = .llmCall ∨ kind = .llmRouteFailed then
    let open_ := match (event.get "web_search").filter Value.isObject with
      | some search => (search.getU64 "cost_microusd").isNone
      | none => false
    { s with budget :=
      { s.budget with unresolvedSearchCost := s.budget.unresolvedSearchCost || open_ } }
  else s

/-- The next ledger entry of an `elapsed_accounted` event. -/
def elapsedOf (api : Api) (event : Value) : Except JournalError ElapsedAccounted := do
  let total ← required (event.get "active_nanoseconds") "missing active total"
  let anchor ← required (event.get "active_started_at") "missing active anchor"
  let activeNanoseconds ←
    match total.asU64 with
    | some n => .ok n
    | none => .error .json
  let activeStartedAt ←
    match anchor with
    | .null => .ok none
    | .str s => .ok (some s)
    | _ => .error .json
  match activeStartedAt with
  | some a => if api.rfc3339 a then .ok () else .error (.invalidEvent "invalid active anchor")
  | none => .ok ()
  return { activeNanoseconds, activeStartedAt }

/-- Episodes open without changing the total and close without lowering it. -/
def legalElapsed : Option ElapsedAccounted → ElapsedAccounted → Bool
  | none, _ => false
  | some previous, next =>
      match previous.activeStartedAt, next.activeStartedAt with
      | none, some _ => next.activeNanoseconds = previous.activeNanoseconds
      | some _, none => previous.activeNanoseconds ≤ next.activeNanoseconds
      | _, _ => false

def applyElapsedAccounted (api : Api) (s : FoldState) (runId : Option String) (event : Value) :
    Except JournalError FoldState := do
  if s.budget.elapsedBudgetMode ≠ .activeExecution ∨ runId = none then
    .error (.invalidEvent "active ledger without active identity")
  let next ← elapsedOf api event
  if legalElapsed s.budget.elapsed next then
    return { s with budget := { s.budget with elapsed := some next } }
  else .error (.invalidEvent "illegal active ledger transition")

def applyAgentFileChanges (s : FoldState) (event : Value) : Except JournalError FoldState := do
  let parsed ←
    match RunEvent.envelope event with
    | .ok parsed => .ok parsed
    | .error message => .error (.invalidEvent message)
  let changes ← required (AgentFileChanges.ofValue parsed.data)
    "invalid agent_file_changes event data"
  let _ ← required parsed.path "agent file changes require a node"
  if (changes.removedFiles ++ changes.writtenFiles).any (fun p => !Policy.isSafeRelativePath p) then
    .error (.invalidEvent "unsafe agent file-change path")
  let s := changes.removedFiles.foldl
    (fun (s : FoldState) path =>
      { s with
        latestFilePins := s.latestFilePins.erase path
        removedFiles := s.removedFiles.insert path })
    s
  return changes.writtenFiles.foldl
    (fun (s : FoldState) path => { s with removedFiles := s.removedFiles.erase path }) s

def applyAgentCheckpoint (s : FoldState) (event : Value) : FoldState :=
  match event.getStr "node", event.get "checkpoint" with
  | some path, some checkpoint => { s with checkpoints := s.checkpoints.insert path checkpoint }
  | _, _ => s

def objectField (event : Value) (key : String) : Option Members :=
  (event.get key).bind Value.asObject

def applyStatePatched (s : FoldState) (event : Value) : Except JournalError FoldState := do
  let s :=
    match objectField event "inputs" with
    | some values =>
        { s with
          inputs := s.inputs.map fun inputs => BTreeMap.extend inputs values
          vars := s.vars.patchInputs values }
    | none => s
  let s :=
    match objectField event "step_outputs" with
    | some values => { s with vars := s.vars.patchStepOutputs values }
    | none => s
  match objectField event "step_statuses" with
  | none => return s
  | some values =>
      let statuses ← required
        (values.mapM fun member => member.2.asStr.map fun status => (member.1, status))
        "state patch statuses must be strings"
      return { s with vars := s.vars.patchStepStatuses statuses }

def reportedClass (classification : String) : Bool :=
  ["completed_success", "completed_terminal", "interaction_pending", "task_error",
    "agent_continuation"].contains classification

def resumableReport (event : Value) : Bool :=
  ((event.index "outcome").asStr = some "needs_user" && (event.index "question_id").isString) ||
    ((event.index "outcome").asStr = some "needs_confirm" && (event.index "confirm_id").isString)

def reportFact (event : Value) : Value :=
  match event with
  | .obj members =>
      .obj (members.filter fun member =>
        ! ["t", "ts", "run_id", "trace_id", "span_id", "parent_span_id"].contains member.1)
  | v => v

def applyTaskJoined (s : FoldState) (kind : EventKind) (event : Value) :
    Except JournalError FoldState := do
  let classification := (event.index "classification").asStr.getD ""
  if reportedClass classification then
    if kind = .parallelTaskJoined then return s
    let owner ← required (event.index "iteration").asStr "foreach iteration is required"
    let s := { s with foreachReports := s.foreachReports.insert owner (reportFact event) }
    if event.get "result" = none ∧ (classification = "task_error" ∨
        classification = "completed_terminal" ∧ resumableReport event = false) then
      return { s with unresolvedTasks := s.unresolvedTasks.insert owner event }
    return s
  else
    let owner := if kind = .parallelTaskJoined then event.index "node" else event.index "iteration"
    let owner ← required (owner.asStr.filter fun _ => (event.index "node").isString)
      "unreported task owner is required"
    return { s with unresolvedTasks := s.unresolvedTasks.insert owner event }

/-- A confirmation's pins fold like those of a suspended step. -/
def applyInteractionRequest (api : Api) (s : FoldState) (kind : EventKind) (event : Value) :
    Except JournalError FoldState := do
  let s ←
    match kind, event with
    | .confirmRequest, .obj members =>
        if (event.get "files").isSome ∧ (event.get "node").isSome then
          s.applyStepFinished api (.obj (Members.insert members "status" (.str "needs_confirm")))
        else .ok s
    | _, _ => .ok s
  s.installInteraction api event (kind = .confirmRequest)

def queuedAtOf (event : Value) : Option String :=
  (event.getStr "queued_at").or (event.getStr "ts")

def settles (kind : EventKind) (event : Value) (interaction : Interaction) : Bool :=
  let identity := interaction.responseIdentity
  kind = identity.1 && event.getStr identity.2.1 = some identity.2.2

def applyResponse (s : FoldState) (kind : EventKind) (event : Value) :
    Except JournalError FoldState := do
  let s := { s with queuedAt := queuedAtOf event }
  let idKey := if kind = .userAnswered then "question_id" else "confirmation_id"
  let id ← required (event.getStr idKey) (kind.name ++ " " ++ idKey ++ " is required")
  let s ←
    if kind = .userAnswered then do
      let values ← required (event.get "values") "user_answered values are required"
      pure { s with answers := s.answers.insert id values }
    else do
      let approved ← required ((event.get "approved").bind Value.asBool)
        "user_confirmed approved must be boolean"
      pure { s with confirmations := s.confirmations.insert id approved }
  let pendingInteractions := s.pendingInteractions.filter fun _ i => !settles kind event i
  let s := { s with
    pendingInteractions
    interactionSeqs := s.interactionSeqs.filter fun owner _ => pendingInteractions.contains owner }
  let s := if s.pending.any (settles kind event) then s.projectInteraction else s
  return { s with terminal := none }

def applyCancelRequested (s : FoldState) (event : Value) : FoldState :=
  let s := { s with cancelRequested := true }
  match event.getStr "operation_id" with
  | some id => { s with cancelOperations := s.cancelOperations.insert id }
  | none => s

def applyHookFailed (s : FoldState) (event : Value) : FoldState :=
  match event.getStr "hook" with
  | none => s
  | some hook =>
      let s :=
        if (s.vars.getPath ("steps." ++ hook ++ ".status")).isNone then
          let reason := FailureDetail.new .executionFailed
            ((event.getStr "error").getD "hook execution failed")
          { s with vars := s.vars.setStepOutcome hook "failed" (some reason.toValue) }
        else s
      if event.getStr "policy" = some "warn" then
        { s with hooksSettled := s.hooksSettled.insert hook }
      else s

def applyHookSkipped (s : FoldState) (event : Value) : FoldState :=
  match event.getStr "hook" with
  | none => s
  | some hook =>
      let reason := FailureDetail.new .budgetExceeded
        ((event.getStr "error").getD "hook skipped because the run budget was exhausted")
      { s with
        vars := s.vars.setStepOutcome hook "skipped" (some reason.toValue)
        hooksSettled := s.hooksSettled.insert hook }

/-- The members of a continuation descriptor. -/
def mcpPendingFields : List String :=
  ["node", "question_id", "server", "tool", "alias", "call_id", "arguments", "request_state",
    "input_requests"]

def mcpDescriptor (event : Value) : Value :=
  .obj (mcpPendingFields.foldl
    (fun members field =>
      match event.get field with
      | some v => Members.insert members field v
      | none => members) [])

def applyMcpInputPending (s : FoldState) (event : Value) : FoldState :=
  match event.getStr "pending_key" with
  | some key => { s with mcpPending := s.mcpPending.insert key (mcpDescriptor event) }
  | none => s

def applyMcpContinuationConsumed (s : FoldState) (event : Value) : FoldState :=
  match event.getStr "pending_key" with
  | some key =>
      { s with
        mcpPending := s.mcpPending.erase key
        mcpResumed := s.mcpResumed.erase key
        operationRecords := s.operationRecords.insert ("mcp:" ++ key)
          { digest := "", status := .succeeded, result := none, resultRef := none,
            invocation := "", onIndeterminate := .fail } }
  | none => s

def applyMcpContinuationResumed (s : FoldState) (event : Value) : FoldState :=
  match event.getStr "pending_key", event.getStr "question_id" with
  | some key, some question => { s with mcpResumed := s.mcpResumed.insert key question }
  | _, _ => s

def applyResource (s : FoldState) (event : Value) : FoldState :=
  match event.getStr "name", event.getStr "sha256" with
  | some name, some digest => { s with resourcePins := s.resourcePins.insert name digest }
  | _, _ => s

def terminalOf (kind : EventKind) (status : Option String) : TerminalState :=
  match kind with
  | .runFinished => if status = some "success" then .succeeded else .failed
  | .runCanceled => .canceled
  | .runInterrupted => .interrupted
  | _ => .failed

def applyTerminal (s : FoldState) (kind : EventKind) (event : Value) : FoldState :=
  { s with
    finishedAt := event.getStr "ts"
    pending := none
    pendingSeq := none
    terminal := some (terminalOf kind (event.getStr "status")) }

def onIndeterminateOf (event : Value) : RetryOnIndeterminate :=
  if event.getStr "on_indeterminate" = some "repeat" then .repeat else .fail

/-- A restarted attempt keeps its record; only its status and policy move. -/
def applyOperationStarted (s : FoldState) (event : Value) : Except JournalError FoldState :=
  match event.getStr "operation_id" with
  | none => .ok s
  | some id => do
      let digest ← required (event.getStr "operation_digest")
        "operation_started operation_digest is required"
      let invocation ← required (event.getStr "invocation_id")
        "operation_started invocation_id is required"
      let onIndeterminate := onIndeterminateOf event
      let record := (s.operationRecords[id]?).getD
        { digest, status := .started, result := none, resultRef := none, invocation,
          onIndeterminate }
      let attempts ← checkedAdd 32 (s.operationAttempts.getD id 0) 1
        "operation attempt generation overflowed"
      return { s with
        operationRecords := s.operationRecords.insert id
          { record with status := .started, onIndeterminate }
        operationAttempts := s.operationAttempts.insert id attempts }

/-- Status, inline result and sidecar reference reported by a finished operation. -/
def operationReport (event : Value) : OperationStatus × Option Value × Option String :=
  match event.getStr "status" with
  | some "success" => (.succeeded, event.get "result", event.getStr "result_ref")
  | some "clean" => (.failedClean, none, none)
  | _ => (.failedIndeterminate, none, none)

def applyOperationFinished (s : FoldState) (event : Value) : FoldState :=
  match event.getStr "operation_id" with
  | none => s
  | some id =>
      let (status, result, resultRef) := operationReport event
      let record := (s.operationRecords[id]?).getD
        { digest := "", status, result := none, resultRef := none, invocation := "",
          onIndeterminate := .fail }
      let digest := (event.getStr "operation_digest").getD record.digest
      { s with operationRecords :=
          s.operationRecords.insert id { record with digest, status, result, resultRef } }

/-- The arms that read neither the identity nor the sequence position. -/
def applyRecord (api : Api) (s : FoldState) (kind : EventKind) (event : Value) :
    Except JournalError FoldState :=
  match kind with
  | .runResumed => .ok { s with terminal := none }
  | .stepStarted => s.applyStepStarted
  | .budgetCharged => s.applyBudgetCharged event
  | .llmCall => s.applyLlmCall event
  | .agentFileChanges => s.applyAgentFileChanges event
  | .agentCheckpoint => .ok (s.applyAgentCheckpoint event)
  | .statePatched => s.applyStatePatched event
  | .parallelTaskJoined | .foreachSiblingDrained | .foreachIterationSettled =>
      s.applyTaskJoined kind event
  | .stepFinished => s.applyStepFinished api event
  | .stepSkipped => s.applyStepSkipped event
  | .repairAttemptStarted => s.applyRepairAttemptStarted
  | .regenerateAttemptStarted => s.applyRegenerateAttemptStarted
  | .resource => .ok (s.applyResource event)
  | .confirmRequest | .runWaiting => s.applyInteractionRequest api kind event
  | .userAnswered | .userConfirmed => s.applyResponse kind event
  | .userCancelRequested => .ok (s.applyCancelRequested event)
  | .hookFailed => .ok (s.applyHookFailed event)
  | .hookSkipped => .ok (s.applyHookSkipped event)
  | .mcpInputPending => .ok (s.applyMcpInputPending event)
  | .mcpContinuationConsumed => .ok (s.applyMcpContinuationConsumed event)
  | .mcpContinuationResumed => .ok (s.applyMcpContinuationResumed event)
  | .runFinished | .runError | .runCanceled | .runInterrupted => .ok (s.applyTerminal kind event)
  | .operationStarted => s.applyOperationStarted event
  | .operationFinished => .ok (s.applyOperationFinished event)
  | _ => .ok s

end FoldState

end Qcg
