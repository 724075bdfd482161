import Qcg.State.Steps

/-!
# The part of the fold without prompts and ends

Prompts, the end of a run and the reports of unsettled tasks take no part in what the other
records do: the arms of the fold act on the rest of the state alone.
-/

namespace Qcg

open Json (Value Members)
open Except (Respects respects_of_view map_bind_congr)

namespace FoldState

def carried (s : FoldState) : FoldState :=
  { s with
    unresolvedTasks := ∅
    foreachReports := ∅
    pending := none
    pendingSeq := none
    pendingInteractions := ∅
    interactionSeqs := ∅
    terminal := none
    finishedAt := none }

@[simp] theorem carried_carried (s : FoldState) : s.carried.carried = s.carried := rfl

variable {api : Api} {event : Value} {kind : EventKind} {s t : FoldState}

theorem respects_total {f : FoldState → FoldState}
    (h : ∀ s, (f s).carried = (f s.carried).carried) :
    Respects carried fun s => (.ok (f s) : Except JournalError FoldState) := by
  apply respects_of_view
  intro s
  exact congrArg Except.ok (h s)

theorem carried_retireInteraction (s : FoldState) (path : String) :
    (s.retireInteraction path).carried = s.carried := by
  unfold retireInteraction
  dsimp only
  split
  · split_ifs <;> rfl
  · rfl

/-- A request is refused or not whatever prompts there are. -/
theorem respects_installInteraction (confirmation : Bool) :
    Respects carried fun s => s.installInteraction api event confirmation := by
  apply respects_of_view
  intro s
  unfold installInteraction
  cases event.get (if confirmation then "confirm" else "question") with
  | none => rfl
  | some payload =>
    apply map_bind_congr
    intro interaction
    dsimp only
    cases s.interactionOwner event interaction <;>
      cases s.carried.interactionOwner event interaction <;> rfl

theorem installInteraction_carried {confirmation : Bool}
    (h : s.installInteraction api event confirmation = .ok t) : t.carried = s.carried := by
  unfold installInteraction at h
  split at h
  · cases h
    rfl
  · obtain ⟨interaction, -, h⟩ := Except.bind_eq_ok.mp h
    dsimp only at h
    split at h
    all_goals
      cases h
      rfl

theorem carried_foldl {α : Type} {f : FoldState → α → FoldState}
    (h : ∀ s a, (f s a).carried = f s.carried a) (l : List α) (s : FoldState) :
    (l.foldl f s).carried = l.foldl f s.carried :=
  (List.foldl_hom carried fun s a => (h s a).symm).symm

theorem carried_recordHistoricalPins (s : FoldState) (pins : List FilePin) :
    (s.recordHistoricalPins pins).carried = s.carried.recordHistoricalPins pins :=
  carried_foldl (fun _ _ => rfl) pins s

theorem carried_applyWorkspaceFilePins (s : FoldState) (files : List FilePin) :
    (s.applyWorkspaceFilePins files).carried = s.carried.applyWorkspaceFilePins files :=
  carried_foldl (fun _ _ => rfl) files s

variable (path : String)

theorem respects_recordNodeExecution : Respects carried fun s => s.recordNodeExecution path := by
  apply respects_of_view
  intro s
  apply map_bind_congr
  intro executions
  rfl

theorem respects_finishExecution : Respects carried fun s => s.finishExecution path := by
  apply (respects_recordNodeExecution path).comp
  intro s t h
  rw [carried_retireInteraction, carried_retireInteraction]
  exact congrArg (fun u : FoldState => { u with checkpoints := u.checkpoints.erase path }) h

theorem respects_recordSuccess (files : List FilePin) :
    Respects carried fun s => s.recordSuccess event path files := by
  apply respects_of_view
  intro s
  apply map_bind_congr
  intro stepsSucceeded
  rfl

theorem respects_recordFailure (path status : String) :
    Respects carried fun s => s.recordFailure event path status := by
  apply respects_of_view
  intro s
  apply map_bind_congr
  intro stepsFailed
  apply map_bind_congr
  intro reason
  rfl

def reported (s : FoldState) (files failedFiles : List FilePin) (path status : String) :
    FoldState :=
  let s := s.recordHistoricalPins (files ++ failedFiles)
  let s := s.settleTasks path (succeededStatus status)
  if succeededStatus status || suspendedStatus status then s.applyWorkspaceFilePins files else s

/-- How a report goes on by its status. -/
def concludeStep (api : Api) (s : FoldState) (event : Value) (files : List FilePin)
    (path status : String) : Except JournalError FoldState :=
  if suspendedStatus status then s.installInteraction api event (status = "needs_confirm")
  else if succeededStatus status then do
    (← s.recordSuccess event path files).finishExecution path
  else do
    (← s.recordFailure event path status).finishExecution path

theorem applyStepFinished_conclude (s : FoldState) :
    s.applyStepFinished api event = (do
      let path ← required (event.getStr "node") "step_finished node is required"
      let status ← required (event.getStr "status") "step_finished status is required"
      let files ← pinsOf event "files"
      let failedFiles ← pinsOf event "failed_files"
      (s.reported files failedFiles path status).concludeStep api event files path status) :=
  rfl

theorem carried_reported (s : FoldState) (files failedFiles : List FilePin)
    (path status : String) :
    (s.reported files failedFiles path status).carried =
      if succeededStatus status || suspendedStatus status then
        (s.carried.recordHistoricalPins (files ++ failedFiles)).applyWorkspaceFilePins files
      else s.carried.recordHistoricalPins (files ++ failedFiles) := by
  have hsettled (succeeded : Bool) :
      ((s.recordHistoricalPins (files ++ failedFiles)).settleTasks path succeeded).carried =
        s.carried.recordHistoricalPins (files ++ failedFiles) :=
    carried_recordHistoricalPins s (files ++ failedFiles)
  unfold reported
  split_ifs
  · rw [carried_applyWorkspaceFilePins, hsettled]
  · exact hsettled _

theorem respects_concludeStep (files : List FilePin) (path status : String) :
    Respects carried fun s => s.concludeStep api event files path status := by
  unfold concludeStep
  split_ifs
  · exact respects_installInteraction _
  · exact (respects_recordSuccess path files).bind (respects_finishExecution path)
  · exact (respects_recordFailure path status).bind (respects_finishExecution path)

theorem respects_applyStepFinished : Respects carried fun s => s.applyStepFinished api event := by
  intro s t h
  dsimp only
  rw [applyStepFinished_conclude, applyStepFinished_conclude]
  apply map_bind_congr
  intro path
  apply map_bind_congr
  intro status
  apply map_bind_congr
  intro files
  apply map_bind_congr
  intro failedFiles
  apply respects_concludeStep
  rw [carried_reported, carried_reported, h]

theorem applyStepFinished_waiting {path : String} {files failedFiles : List FilePin}
    (hpath : event.getStr "node" = some path)
    (hstatus : event.getStr "status" = some "needs_confirm")
    (hfiles : pinsOf event "files" = .ok files)
    (hfailed : pinsOf event "failed_files" = .ok failedFiles) :
    s.applyStepFinished api event =
        (s.reported files failedFiles path "needs_confirm").installInteraction api event true ∧
      (s.reported files failedFiles path "needs_confirm").carried =
        (s.carried.recordHistoricalPins (files ++ failedFiles)).applyWorkspaceFilePins files := by
  constructor
  · simp only [applyStepFinished_conclude, hpath, hstatus, hfiles, hfailed, required, bind,
      Except.bind]
    rfl
  · exact carried_reported s files failedFiles path "needs_confirm"

theorem carried_setVars {f : ValueBag → ValueBag} (h : s.carried = t.carried) :
    carried { s with vars := f s.vars } = carried { t with vars := f t.vars } :=
  congrArg (fun u : FoldState => { u with vars := f u.vars }) h

theorem respects_applyStepSkipped : Respects carried fun s => s.applyStepSkipped event := by
  apply respects_of_view
  intro s
  apply map_bind_congr
  intro stepsSkipped
  dsimp only
  cases event.getStr "node" with
  | none => rfl
  | some path =>
    apply map_bind_congr
    intro reason
    apply congrArg Except.ok
    apply carried_setVars (f := fun vars =>
      vars.setStepOutcome path "skipped" (some reason.toValue))
    rw [carried_retireInteraction, carried_retireInteraction]
    rfl

theorem carried_noteSearchCost (s : FoldState) :
    (s.noteSearchCost kind event).carried = s.carried.noteSearchCost kind event := by
  unfold noteSearchCost
  split_ifs <;> rfl

theorem respects_applyStepStarted : Respects carried applyStepStarted := by
  apply respects_of_view
  intro s
  apply map_bind_congr
  intro stepsExecuted
  rfl

theorem respects_applyBudgetCharged : Respects carried fun s => s.applyBudgetCharged event := by
  apply respects_of_view
  intro s
  unfold applyBudgetCharged
  cases event.get "amount"
  all_goals
    apply map_bind_congr
    intro amount
    apply map_bind_congr
    intro budgetCharged
    rfl

theorem respects_applyRepairAttemptStarted : Respects carried applyRepairAttemptStarted := by
  apply respects_of_view
  intro s
  apply map_bind_congr
  intro repairAttempts
  rfl

theorem respects_applyRegenerateAttemptStarted :
    Respects carried applyRegenerateAttemptStarted := by
  apply respects_of_view
  intro s
  apply map_bind_congr
  intro regenerateAttempts
  rfl

theorem respects_applyLlmCall : Respects carried fun s => s.applyLlmCall event := by
  apply respects_of_view
  intro s
  apply map_bind_congr
  intro llmCalls
  dsimp only
  cases (event.get "tokens").filter Value.isObject
  all_goals
    apply map_bind_congr
    intro budget
    apply map_bind_congr
    intro cost
    apply map_bind_congr
    intro cost
    apply map_bind_congr
    intro costMicrousd
    rfl

theorem respects_applyAgentFileChanges :
    Respects carried fun s => s.applyAgentFileChanges event := by
  apply respects_of_view
  intro s
  unfold applyAgentFileChanges
  cases RunEvent.envelope event
  all_goals
    apply map_bind_congr
    intro parsed
    apply map_bind_congr
    intro changes
    apply map_bind_congr
    intro path
    split_ifs
    · rfl
    · apply congrArg Except.ok
      rw [carried_foldl fun _ _ => rfl, carried_foldl fun _ _ => rfl, carried_foldl fun _ _ => rfl,
        carried_foldl fun _ _ => rfl, carried_carried]

theorem respects_applyStatePatched : Respects carried fun s => s.applyStatePatched event := by
  apply respects_of_view
  intro s
  unfold applyStatePatched
  dsimp only
  cases objectField event "inputs" <;> cases objectField event "step_outputs" <;>
    cases objectField event "step_statuses" with
    | none => rfl
    | some values =>
      apply map_bind_congr
      intro statuses
      rfl

theorem respects_applyTaskJoined : Respects carried fun s => s.applyTaskJoined kind event := by
  apply respects_of_view
  intro s
  unfold applyTaskJoined
  dsimp only
  split_ifs
  · rfl
  · apply map_bind_congr
    intro owner
    rfl
  · apply map_bind_congr
    intro owner
    rfl
  · apply map_bind_congr
    intro owner
    rfl
  · apply map_bind_congr
    intro owner
    rfl

theorem respects_applyInteractionRequest :
    Respects carried fun s => s.applyInteractionRequest api kind event := by
  unfold applyInteractionRequest
  split
  · split_ifs
    · exact respects_applyStepFinished.bind (respects_installInteraction _)
    · exact respects_installInteraction _
  · exact respects_installInteraction _

theorem respects_applyResponse : Respects carried fun s => s.applyResponse kind event := by
  apply respects_of_view
  intro s
  apply map_bind_congr
  intro id
  dsimp only
  split_ifs
  all_goals
    apply map_bind_congr
    intro value
    apply congrArg Except.ok
    dsimp only
    split_ifs <;> rfl

theorem respects_applyOperationStarted :
    Respects carried fun s => s.applyOperationStarted event := by
  apply respects_of_view
  intro s
  unfold applyOperationStarted
  cases event.getStr "operation_id" with
  | none => rfl
  | some id =>
    apply map_bind_congr
    intro digest
    apply map_bind_congr
    intro invocation
    apply map_bind_congr
    intro attempts
    rfl

theorem carried_applyHookFailed (s : FoldState) :
    (s.applyHookFailed event).carried = (s.carried.applyHookFailed event).carried := by
  unfold applyHookFailed
  cases event.getStr "hook" with
  | none => rfl
  | some hook =>
    have hvars : s.carried.vars = s.vars := rfl
    dsimp only
    rw [hvars]
    by_cases hstatus : (s.vars.getPath ("steps." ++ hook ++ ".status")).isNone = true
    · rw [if_pos hstatus, if_pos hstatus]
      split_ifs <;> rfl
    · rw [if_neg hstatus, if_neg hstatus]
      split_ifs <;> rfl

theorem respects_applyRecord : Respects carried fun s => s.applyRecord api kind event := by
  cases kind
  case stepStarted => exact respects_applyStepStarted
  case budgetCharged => exact respects_applyBudgetCharged
  case llmCall => exact respects_applyLlmCall
  case agentFileChanges => exact respects_applyAgentFileChanges
  case statePatched => exact respects_applyStatePatched
  case parallelTaskJoined => exact respects_applyTaskJoined
  case foreachSiblingDrained => exact respects_applyTaskJoined
  case foreachIterationSettled => exact respects_applyTaskJoined
  case stepFinished => exact respects_applyStepFinished
  case stepSkipped => exact respects_applyStepSkipped
  case repairAttemptStarted => exact respects_applyRepairAttemptStarted
  case regenerateAttemptStarted => exact respects_applyRegenerateAttemptStarted
  case confirmRequest => exact respects_applyInteractionRequest
  case runWaiting => exact @respects_applyInteractionRequest api event .runWaiting
  case userAnswered => exact respects_applyResponse
  case userConfirmed => exact respects_applyResponse
  case hookFailed => exact respects_total carried_applyHookFailed
  case operationStarted => exact respects_applyOperationStarted
  case agentCheckpoint =>
    apply respects_total
    intro s
    unfold applyAgentCheckpoint
    split <;> rfl
  case resource =>
    apply respects_total
    intro s
    unfold applyResource
    split <;> rfl
  case userCancelRequested =>
    apply respects_total
    intro s
    unfold applyCancelRequested
    split <;> rfl
  case hookSkipped =>
    apply respects_total
    intro s
    unfold applyHookSkipped
    split <;> rfl
  case mcpInputPending =>
    apply respects_total
    intro s
    unfold applyMcpInputPending
    split <;> rfl
  case mcpContinuationConsumed =>
    apply respects_total
    intro s
    unfold applyMcpContinuationConsumed
    split <;> rfl
  case mcpContinuationResumed =>
    apply respects_total
    intro s
    unfold applyMcpContinuationResumed
    split <;> rfl
  case operationFinished =>
    apply respects_total
    intro s
    unfold applyOperationFinished
    split <;> rfl
  all_goals exact respects_total fun _ => rfl

end FoldState

end Qcg
