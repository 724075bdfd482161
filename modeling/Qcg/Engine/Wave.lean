import Qcg.Engine.Execute

/-!
# Parallel waves

A wave starts every ready node as a task, joins the tasks in the order the runtime
picks, aborts the rest after the first terminal report, and settles the nodes in their
own order once all tasks are joined. The environment chooses the interleaving.
-/

namespace Qcg

open Json (Value)

/-- What a spawned task has still to do. -/
inductive TaskState where
  | running (maxAttempts left : Nat)
  | reported (result : Except EngineError StepOutcome)
deriving DecidableEq

structure Task where
  node : NodeDef
  state : TaskState
deriving DecidableEq

/-- Why the tasks of a wave are being joined. -/
inductive WaveMode where
  | open
  | parentCancelled
  | startFailed (cause : String)
deriving DecidableEq

structure Wave where
  tasks : List Task := []
  outcomes : BTreeMap (Except EngineError StepOutcome) := ∅
  joinErrors : List EngineError := []
  abortOnSettle : Bool := false
  mode : WaveMode := .open
  /-- The first join record that could not be journaled. -/
  factResult : Option EngineError := none

namespace Wave

/-- The drain cause and the abort cause of a join record. -/
def causes (w : Wave) : String × String :=
  match w.mode with
  | .open => if w.abortOnSettle then ("fail_fast", "fail_fast") else ("none", "none")
  | .parentCancelled =>
      ("parent_cancellation", if w.abortOnSettle then "fail_fast" else "parent_cancellation")
  | .startFailed cause => (cause, cause)

/-- Whether unfinished tasks have been told to stop. -/
def aborted (w : Wave) : Bool :=
  w.abortOnSettle || w.mode ≠ .open

end Wave

abbrev JoinResult := Except JoinError (Except EngineError StepOutcome)

def outcomeMembers : StepOutcome → List (String × Value)
  | .success _ _ => [("outcome", .str "success")]
  | .checkFailed _ _ _ => [("outcome", .str "check_failed")]
  | .needsUser question _ => [("outcome", .str "needs_user"), ("question_id", .str question.id)]
  | .needsConfirm confirm _ =>
      [("outcome", .str "needs_confirm"), ("confirm_id", .str confirm.id)]

def errorMembers : EngineError → List (String × Value) × String
  | .needsUser question => ([("question_id", .str question.id)], "interaction_pending")
  | .needsConfirm confirm => ([("confirm_id", .str confirm.id)], "interaction_pending")
  | error =>
      let code := [("code", Value.str (failureDetailForError error).code.asStr)]
      let owner :=
        if error.isResumableAgent then [("continuation_owner", Value.str "agent")] else []
      if error.isCanceled then
        (code ++ owner ++ [("cancellation_cause", .str "reported_by_task")], "task_canceled")
      else (code ++ owner, "task_error")

def classifyJoin (abortCause : String) : JoinResult → List (String × Value) × String
  | .ok (.ok outcome) =>
      (outcomeMembers outcome,
        if outcome.isSuccess then "completed_success" else "completed_terminal")
  | .ok (.error error) => errorMembers error
  | .error .cancelled =>
      ([("cancellation_cause", .str abortCause)],
        if abortCause = "parent_cancellation" then "parent_canceled"
        else if abortCause = "none" then "task_canceled"
        else "scheduler_abort")
  | .error (.panicked _) => ([], "task_panic")

def joinPayload (id : String) (causes : String × String) (result : JoinResult) :
    List (String × Value) :=
  let classified := classifyJoin causes.2 result
  [("node", .str id), ("drain_cause", .str causes.1)] ++ classified.1 ++
    [("classification", .str classified.2)]

def joinTaskError (message : Option String) : EngineError :=
  .step (.failed "scheduler"
    (match message with
      | some message => "parallel task panicked: " ++ message
      | none => "parallel task panicked with a non-string payload"))

def unrequestedCancel : EngineError :=
  .step (.refused "scheduler" "parallel task cancellation had no parent or fail-fast cause")

/-- Join errors together; the first interaction takes precedence. -/
def combineTerminalErrors (errors : List EngineError) : Except EngineError Unit :=
  match errors with
  | [] => .ok ()
  | first :: rest =>
      match errors.find? EngineError.isInteraction with
      | some interaction => .error interaction
      | none =>
          if rest.isEmpty then .error first
          else
            let combined := EngineError.failed ("; ".intercalate (errors.map EngineError.display))
            .error (if errors.any EngineError.isResumableAgent then .resumableAgent combined
              else combined)

variable (env : Env)

def spawn (node : NodeDef) : Task :=
  match retryAttempts node with
  | .ok maxAttempts => { node, state := .running maxAttempts (maxAttempts - 1) }
  | .error error => { node, state := .reported (.error error) }

def taskAttempt (node : NodeDef) : TaskState → EngineM TaskState
  | .reported result => pure (.reported result)
  | .running maxAttempts left => do
      match ← EStateM.observe (attemptOnce env node) with
      | .error error => return .reported (.error error)
      | .ok (.ok outcome) => return .reported (.ok outcome)
      | .ok (.error error) =>
          if left = 0 ∨ error.isRetryable = false then return .reported (.error error)
          else
            match ← EStateM.observe (repeatAttempt env node
              (maxAttempts - left) maxAttempts error) with
            | .error error => return .reported (.error error)
            | .ok _ => return .running maxAttempts (left - 1)

def finishTask (node : NodeDef) : TaskState → EngineM TaskState
  | .reported result => pure (.reported result)
  | .running maxAttempts left => do
      return .reported (← EStateM.observe (attempts env node maxAttempts left))

def joinResult (state : TaskState) (error : JoinError) : JoinResult :=
  match state with
  | .reported result => .ok result
  | .running _ _ => .error error

/-- What a joined result changes in the wave, and whether it is terminal. -/
def absorbJoin (w : Wave) (id : String) : JoinResult → Wave × Bool
  | .ok result =>
      ({ w with outcomes := w.outcomes.insert id result },
        !(result.toOption.any StepOutcome.isSuccess))
  | .error error =>
      -- Only an open wave asks why a task vanished; a drain expects it.
      if w.mode ≠ .open then (w, false)
      else
        match error with
        | .cancelled =>
            if w.abortOnSettle then (w, false)
            else ({ w with joinErrors := w.joinErrors ++ [unrequestedCancel] }, true)
        | .panicked message =>
            ({ w with joinErrors := w.joinErrors ++ [joinTaskError message] }, true)

def joinTask (w : Wave) (id : String) (error : JoinError) : EngineM Wave := do
  match w.tasks.find? fun task => task.node.id = id with
  | none => return w
  | some task =>
      let result := joinResult task.state error
      let fact ← EStateM.observe (event env .parallelTaskJoined (joinPayload id w.causes result))
      let factResult := w.factResult.or (match fact with
        | .error error => some error
        | .ok _ => none)
      let w := { w with
        tasks := w.tasks.filter fun task => task.node.id ≠ id
        factResult }
      let (w, terminal) := absorbJoin w id result
      return { w with abortOnSettle := w.abortOnSettle || (terminal && w.mode = .open) }

def updateTask (tasks : List Task) (id : String) (state : TaskState) : List Task :=
  tasks.map fun task => if task.node.id = id then { task with state } else task

def waveAction (w : Wave) : WaveAction → EngineM Wave
  | .attempt id => do
      match w.tasks.find? fun task => task.node.id = id with
      | none => return w
      | some task =>
          let state ← taskAttempt env task.node task.state
          return { w with tasks := updateTask w.tasks id state }
  | .join id error => joinTask env w id error
  -- Cancellation is only watched while tasks are left and no start has failed.
  | .cancel =>
      return if w.mode = .open ∧ w.tasks ≠ [] then { w with mode := .parentCancelled } else w

/-- Joins a task that the interleaving left over: a stopped one as it is, any other
after it has run to its report. -/
def drainTask (w : Wave) (task : Task) : EngineM Wave := do
  if w.aborted then joinTask env w task.node.id .cancelled
  else
    let state ← finishTask env task.node task.state
    joinTask env { w with tasks := updateTask w.tasks task.node.id state } task.node.id .cancelled

def drain (w : Wave) : EngineM Wave := do
  let actions ← ask env.wave
  let w ← actions.foldlM (waveAction env) w
  w.tasks.foldlM (drainTask env) w

def startTask (node : NodeDef) : EngineM Unit := do
  runCheckpoint env
  setState node.id .running
  event env .stepStarted (startedPayload node 1 ++ parallelMember)

/-- Starts the nodes in order. A failed start stops the wave: the tasks before it drain. -/
def startWave : List NodeDef → Wave → EngineM (Wave × Option EngineError)
  | [], w => pure (w, none)
  | node :: rest, w => do
      match ← EStateM.observe (startTask env node) with
      | .error error =>
          setState node.id .pending
          let cause :=
            if error.isCanceled then "parent_cancellation" else "wave_start_failure"
          return ({ w with mode := .startFailed cause }, some error)
      | .ok _ => startWave rest { w with tasks := w.tasks ++ [spawn node] }

def interrupt (id reason : String) : EngineM Unit := do
  setState id .pending
  event env .stepInterrupted
    ([("node", .str id), ("reason", .str reason)] ++ parallelMember)

def settleWaveOutcome (node : NodeDef) (outcome : StepOutcome) : EngineM (List EngineError) := do
  pinAttemptFiles env
  match outcome with
  | .success output files =>
      modifyVars fun vars => vars.publishStepOutput node.id node.output output none
      setState node.id .success
      event env .stepFinished (successPayload node.id "success" output (outputNameFor node) ++
        filesMember files ++ parallelMember)
      return []
  | .checkFailed findings output files =>
      let reason := failureFromFindings findings .checkFailed
      setState node.id (.failed reason)
      event env .stepFinished (withFailedEvidence
        (failurePayload node.id "check_failed" reason ++ findingsMember findings ++
          parallelMember) output files)
      return []
  | .needsUser question files =>
      event env .stepFinished (withFailedEvidence
        (questionPayload node.id question ++ filesMember files ++ parallelMember) none [])
      return [.needsUser question]
  | .needsConfirm confirm files =>
      event env .confirmRequest (confirmPayload node.id confirm files ++ parallelMember)
      return [.needsConfirm confirm]

def settleWaveError (hitlPending : Bool) (node : NodeDef) (error : EngineError) :
    EngineM (List EngineError) := do
  if hitlPending && error.isCanceled then
    interrupt env node.id "parallel sibling canceled for user input; will resume"
    return []
  else if error.isResumableAgent then
    interrupt env node.id "agent failure defers to sequential re-entry; will resume"
    return [error]
  else
    let reason := failureDetailForError error
    setState node.id (.failed reason)
    event env .stepFinished (failurePayload node.id "failed" reason ++ parallelMember)
    return [error]

def settleWaveReport (hitlPending : Bool) (node : NodeDef) :
    Option (Except EngineError StepOutcome) → EngineM (List EngineError)
  | none => do
      interrupt env node.id "parallel task did not report an outcome; effects unknown"
      return []
  | some (.error error) => settleWaveError env hitlPending node error
  | some (.ok outcome) => settleWaveOutcome env node outcome

def settleWaveNode (w : Wave) (hitlPending : Bool) (errors : List EngineError)
    (node : NodeDef) : EngineM (List EngineError) := do
  return errors ++ (← settleWaveReport env hitlPending node w.outcomes[node.id]?)

def hitlPending (outcomes : BTreeMap (Except EngineError StepOutcome)) : Bool :=
  outcomes.values.any fun result => result.toOption.any StepOutcome.isInteraction

/-- The nodes whose tasks were spawned before a failed start. -/
def startedNodes (nodes : List NodeDef) (w : Wave) : List NodeDef :=
  nodes.take w.tasks.length

/-- The end of a settled wave: cancellation first, then a failed start, then the rest. -/
def waveResult (w : Wave) (startError : Option EngineError) (errors : List EngineError) :
    Except EngineError Unit :=
  if w.mode = .parentCancelled then .error .canceled
  else
    match startError with
    | some error => .error error
    | none => combineTerminalErrors errors

def executeParallelWave (nodes : List NodeDef) : EngineM Unit := do
  let (started, startError) ← startWave env nodes {}
  let w ← drain env started
  match w.factResult with
  | some error => throw error
  | none =>
      let errors ← (startedNodes nodes started).foldlM
        (settleWaveNode env w (hitlPending w.outcomes)) w.joinErrors
      match waveResult w startError errors with
      | .error error => throw error
      | .ok _ => pure ()

end Qcg
