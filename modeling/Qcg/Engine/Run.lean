import Qcg.Engine.Repair
import Qcg.Engine.Wave

/-!
# The run loop

`enter` rebuilds the live state from the journal, for a fresh run and for a resume alike.
A pass scans the graph in order, skips, replays or collects every pending node, and then
dispatches what is ready: a parallel wave, or the first ready node alone.
-/

namespace Qcg

open Json (Value Members)

variable (env : Env)

/-- An operation that started under the fail policy and never finished blocks re-entry. -/
def ensureNoFailClosedInflightOperations (s : FoldState) : EngineM Unit :=
  match s.operationRecords.toList.find? fun entry =>
      entry.2.status = .started && entry.2.onIndeterminate = .fail with
  | some (id, _) =>
      throw (.failed ("unresolved external operation `" ++ id ++ "` remains Started; preserve " ++
        "the run journal and reconcile the external outcome before recovery or deletion; qcg " ++
        "has not proved that the effect stopped"))
  | none => pure ()

def checkRunId (runId : Option String) : EngineM Unit :=
  match runId with
  | some existing =>
      if existing = env.runId then pure ()
      else throw (.failed ("run id mismatch: journal has `" ++ existing ++
        "`, driver requested `" ++ env.runId ++ "`"))
  | none => pure ()

def checkContract (contractSha256 : Option String) : EngineM Unit :=
  match contractSha256 with
  | some expected =>
      if expected = env.contractSha256 then pure ()
      else throw (.failed ("contract changed while resuming run `" ++ env.runId ++
        "`: expected " ++ expected ++ ", got " ++ env.contractSha256))
  | none => pure ()

/-- Durable inputs win; admission inputs serve only a journal that executed nothing. -/
def canonicalInputs (s : FoldState) : EngineM (BTreeMap Value) :=
  match s.inputs with
  | some inputs => pure inputs
  | none =>
      if s.executionStarted || !(replayedSteps s.nodes).isEmpty then
        throw (.failed ("cannot safely resume run `" ++ env.runId ++
          "`: journal has no durable inputs"))
      else pure env.inputs

def runStartedPayload (s : FoldState) (inputs : BTreeMap Value) : List (String × Value) :=
  [("run_id", .str env.runId), ("generator", .str env.generator),
    ("generator_path", .str (s.generatorPath.getD env.contractRoot)),
    ("package_sha256", Finding.optionValue s.packageSha256),
    ("contract_sha256", .str env.contractSha256), ("inputs", .obj inputs.toList),
    ("resource_hashes", .arr (env.resourceHashes.map .obj)),
    ("schema_version", .num journalSchemaVersion), ("elapsed_budget_mode", .str "wall_clock"),
    ("retention_days", env.retentionDays), ("parallel_compatibility", .str "fail_fast"),
    ("parallel_compatibility_origin", .str "deployment_policy")]

def startRun (s : FoldState) (inputs : BTreeMap Value) : EngineM Unit := do
  event env .runStarted (runStartedPayload env s inputs)
  env.resourceHashes.forM (event env .resource)
  event env .graphResolved [("nodes", .arr (env.graph.order.map .str))]

/-- A prompt without a response suspends the run again before any work. -/
def checkPending : Interaction → EngineM Unit
  | .question question =>
      if env.answers.contains question.id then pure () else throw (.needsUser question)
  | .confirmation confirm =>
      if env.confirmations.contains confirm.id then pure () else throw (.needsConfirm confirm)

def seedState (nodes : BTreeMap NodeOutcome) (id : String) : NodeState :=
  match (nodes[id]? : Option NodeOutcome) with
  | some (.skipped reason) => .skipped reason
  | some (.failed reason) => .failed reason
  | some (.success _ _) | none => .pending

def seedStates (nodes : BTreeMap NodeOutcome) : BTreeMap NodeState :=
  env.graph.nodes.map fun id _ => seedState nodes id

/-- Whether the report of an iteration waits for a response that has been given. -/
def answeredReport (fact : Value) : Bool :=
  ((fact.index "question_id").asStr.any fun id => env.answers.contains id) ||
    ((fact.index "confirm_id").asStr.any fun id => env.confirmations.contains id)

/-- Re-enters the foreach owner of an answered report, never its settled siblings. -/
def reenterForeach (states : BTreeMap NodeState) (fact : Value) : BTreeMap NodeState :=
  match (fact.index "node").asStr with
  | some parent =>
      if answeredReport env fact then
        states.map fun id state =>
          if parent = id ∨ (id ++ "[").toList.isPrefixOf parent.toList then .pending else state
      else states
  | none => states

/-- Only a direct owner with a replay-safe executor may run again after an interruption. -/
def authorizeReplay (owner : String) (fact : Value) : Except EngineError NodeDef :=
  let node : Option NodeDef :=
    ((fact.index "node").asStr.filter fun id => id = owner).bind fun id => env.graph.nodes[id]?
  match node.filter fun node => env.replaySafe node.kind with
  | some node => .ok node
  | none =>
      .error (.step (.refused owner ("unreported task `" ++ owner ++
        "` has unknown effects; guarded replay is not attributable to this owner")))

def replayAuthorized (owner : String) (fact : Value) (node : NodeDef) : EngineM Unit :=
  event env .parallelReplayAuthorized
    [("node", fact.index "node"), ("owner", .str owner), ("scope", .str "interrupted_task"),
      ("authorization", .str "StepExecutor.replay_safe_after_interruption"),
      ("executor", .str node.kind), ("unresolved_seq", fact.index "seq")]

/-- Checks every owner before the first authorization is journaled. -/
def authorizeAll (tasks : List (String × Value)) : EngineM Unit :=
  match tasks.mapM fun task => (authorizeReplay env task.1 task.2).map fun node =>
      (task.1, task.2, node) with
  | .error error => throw error
  | .ok authorized =>
    authorized.forM fun (owner, fact, node) => replayAuthorized env owner fact node

/-- A fresh run journals its start before any prompt is checked, a resume its marker after. -/
def openRun (s : FoldState) (inputs : BTreeMap Value) : EngineM Unit :=
  if s.executionStarted then do
    s.pendingInteractions.values.forM (checkPending env)
    event env .runResumed [("run_id", .str env.runId)]
  else do
    startRun env s inputs
    s.pendingInteractions.values.forM (checkPending env)

/-- The step count a resumed budget starts from. -/
def chargedSteps (budget : BudgetState) : Nat :=
  if budget.hasBudgetCharges then budget.budgetCharged else budget.stepsExecuted

def seedLive (s : FoldState) (materialized : BTreeMap Value) (live : Live) : Live :=
  { live with
    vars :=
      if s.executionStarted then s.vars.setInputs materialized
      else ValueBag.withInputs materialized
    executedSteps := chargedSteps s.budget
    states := s.foreachReports.values.foldl (reenterForeach env) (seedStates env s.nodes) }

def enter : EngineM (BTreeMap ReplayedStep) := do
  let s := (← get).journal.state
  ensureNoFailClosedInflightOperations s.toFoldState
  checkRunId env s.runId
  checkContract env s.contractSha256
  let inputs ← canonicalInputs env s.toFoldState
  openRun env s.toFoldState inputs
  modify fun live => seedLive env s.toFoldState (env.materialize inputs) live
  authorizeAll env s.unresolvedTasks.toList
  return replayedSteps s.nodes

variable (replay : BTreeMap ReplayedStep)

structure Scan where
  progressed : Bool := false
  ready : List NodeDef := []

def whenFalse (node : NodeDef) : FailureDetail :=
  FailureDetail.new .whenFalse ("when expression evaluated false: " ++ env.debugWhen node.when_)

def skipNode (id : String) (reason : FailureDetail) : EngineM Unit := do
  setState id (.skipped reason)
  event env .stepSkipped [("node", .str id), ("reason", reason.toValue)]

/-- A success of the reopened journal counts again without being executed. -/
def replayNode (node : NodeDef) (step : ReplayedStep) : EngineM Unit := do
  modifyVars fun vars => vars.publishStepOutput node.id node.output step.output none
  setState node.id .success
  event env .stepReplayed [("node", .str node.id), ("status", .str "success")]

/-- The decision for a node whose dependencies allow it to run. -/
def visitRunnable (node : NodeDef) (scan : Scan) : EngineM Scan := do
  syncLiveOutcomes
  match env.evalBool (← get).vars node.when_ with
  | .error message => throw (.expr node.id message)
  | .ok false =>
      skipNode env node.id (whenFalse env node)
      return { scan with progressed := true }
  | .ok true =>
      match (replay[node.id]? : Option ReplayedStep) with
      | some step =>
          replayNode env node step
          return { scan with progressed := true }
      | none => return { scan with ready := scan.ready ++ [node] }

def visitPending (node : NodeDef) (scan : Scan) : EngineM Scan := do
  let states := (← get).states
  match Graph.shouldSkipByDependencies node states with
  | some reason =>
      skipNode env node.id reason
      return { scan with progressed := true }
  | none =>
      if Graph.needsSatisfied node states then visitRunnable env replay node scan
      else return scan

def visit (scan : Scan) (id : String) : EngineM Scan := do
  if (← get).states[id]? = some NodeState.pending then
    match (env.graph.nodes[id]? : Option NodeDef) with
    | none => throw (.step (.failed "scheduler" ("node `" ++ id ++ "` disappeared")))
    | some node => visitPending env replay node scan
  else return scan

def settleSuccess (node : NodeDef) (output : Option Value) (payload : List (String × Value)) :
    EngineM Unit := do
  modifyVars fun vars => vars.publishStepOutput node.id node.output output none
  setState node.id .success
  event env .stepFinished payload

def settleFailure (node : NodeDef) (reason : FailureDetail) (payload : List (String × Value)) :
    EngineM Unit := do
  setState node.id (.failed reason)
  event env .stepFinished payload

def suspend (node : NodeDef) : StepOutcome → EngineM Unit
  | .needsUser question files => do
      event env .stepFinished (withFailedEvidence
        (questionPayload node.id question ++ filesMember files) none [])
      throw (.needsUser question)
  | .needsConfirm confirm files => do
      event env .confirmRequest (confirmPayload node.id confirm files)
      throw (.needsConfirm confirm)
  | .success _ _ | .checkFailed _ _ _ => pure ()

/-- The failed revision that a settlement reports as evidence. -/
structure Evidence where
  output : Option Value
  files : List FilePin

def settleRepairCycle (node : NodeDef) (evidence : Evidence) :
    RepairCycleOutcome → EngineM Unit
  | .repaired output =>
      settleSuccess env node output (withFailedEvidence
        (successPayload node.id "repaired" output (outputNameFor node))
        evidence.output evidence.files)
  | .routed target output =>
      settleSuccess env node (some output) (withFailedEvidence
        (successPayload node.id "routed" (some output) (outputNameFor node) ++
          [("to", .str target)]) evidence.output evidence.files)
  | .answered output =>
      settleSuccess env node (some output) (withFailedEvidence
        (successPayload node.id "answered_on_fail" (some output) (outputNameFor node))
        evidence.output evidence.files)
  | .failed reason =>
      settleFailure env node reason (withFailedEvidence
        (failurePayload node.id "repair_exhausted" reason) evidence.output evidence.files)

def routeOutput (target : String) (findings : List Finding) (evidence : Evidence) : Value :=
  .obj [("failed_files", FilePin.listToValue evidence.files),
    ("failed_output", outputValue evidence.output), ("findings", Finding.listToValue findings),
    ("routed_to", .str target)]

/-- A check failure handed to the user: an answer settles it, otherwise the run waits. -/
def settleAskUser (node : NodeDef) (findings : List Finding) (evidence : Evidence) :
    EngineM Unit := do
  let question := onFailQuestion node
  match (env.answers[question.id]? : Option Value) with
  | some answer =>
      let output : Value :=
        .obj [("answer", answer), ("findings", Finding.listToValue findings)]
      settleSuccess env node (some output) (withFailedEvidence
        (successPayload node.id "answered_on_fail" (some output) (outputNameFor node) ++
          [("answer", answer)]) evidence.output evidence.files)
  | none =>
      event env .stepFinished (withFailedEvidence
        (questionPayload node.id question ++ findingsMember findings)
        evidence.output evidence.files)
      throw (.needsUser question)

def settleRegenerateExhausted (node : NodeDef) (findings : List Finding) (evidence : Evidence) :
    ExhaustedAction → EngineM Unit
  | .fail =>
      let reason := failureFromFindings findings .checkFailed
      settleFailure env node reason (withFailedEvidence
        (failurePayload node.id "regenerate_exhausted" reason ++ findingsMember findings)
        evidence.output evidence.files)
  | .route target =>
      let output : Value := .obj [("findings", Finding.listToValue findings),
        ("routed_to", .str target), ("status", .str "regenerate_exhausted")]
      settleSuccess env node (some output) (withFailedEvidence
        (successPayload node.id "routed" (some output) (outputNameFor node) ++
          [("to", .str target)]) evidence.output evidence.files)
  | .askUser title fields => do
      let question := exhaustedQuestion node "regenerate" title fields
      match (env.answers[question.id]? : Option Value) with
      | some answer =>
          let output : Value := .obj [("answer", answer),
            ("findings", Finding.listToValue findings),
            ("status", .str "regenerate_exhausted_answered")]
          settleSuccess env node (some output) (withFailedEvidence
            (successPayload node.id "answered_on_fail" (some output) (outputNameFor node) ++
              [("answer", answer)]) evidence.output evidence.files)
      | none =>
          event env .stepFinished (withFailedEvidence
            (questionPayload node.id question ++ findingsMember findings)
            evidence.output evidence.files)
          throw (.needsUser question)

def settleRegenerate (node : NodeDef) (onExhausted : ExhaustedAction) (outcome : StepOutcome) :
    EngineM Unit := do
  pinAttemptFiles env
  match outcome with
  | .success output files =>
      settleSuccess env node output
        (successPayload node.id "regenerated" output (outputNameFor node) ++ filesMember files)
  | .checkFailed findings output files =>
      settleRegenerateExhausted env node findings { output, files } onExhausted
  | outcome => suspend env node outcome

/-- A failed check follows the node's `on_fail` policy. -/
def settleCheckFailed (node : NodeDef) (findings : List Finding) (evidence : Evidence) :
    EngineM Unit := do
  match node.onFail with
  | some (.repair repair recheck maxAttempts onExhausted) =>
      settleRepairCycle env node evidence
        (← executeRepairCycle env replay node
          { repair, recheck, maxAttempts, onExhausted } findings)
  | some (.route target) =>
      let output := routeOutput target findings evidence
      settleSuccess env node (some output) (withFailedEvidence
        (successPayload node.id "routed" (some output) (outputNameFor node) ++
          [("to", .str target)] ++ findingsMember findings) evidence.output evidence.files)
  | some .askUser => settleAskUser env node findings evidence
  | some (.regenerate maxAttempts onExhausted) =>
      settleRegenerate env node onExhausted (← executeRegenerate env node maxAttempts findings)
  | some .fail | none =>
      let reason := failureFromFindings findings .checkFailed
      settleFailure env node reason (withFailedEvidence
        (failurePayload node.id "check_failed" reason ++ findingsMember findings)
        evidence.output evidence.files)

/-- Settles what a single node reported. A plain success publishes after its record. -/
def settleOutcome (node : NodeDef) (outcome : StepOutcome) : EngineM Unit := do
  pinAttemptFiles env
  match outcome with
  | .success output files =>
      setState node.id .success
      event env .stepFinished
        (successPayload node.id "success" output (outputNameFor node) ++ filesMember files)
      modifyVars fun vars => vars.publishStepOutput node.id node.output output none
      syncLiveOutcomes
  | .checkFailed findings output files =>
      settleCheckFailed env replay node findings { output, files }
  | outcome => suspend env node outcome

inductive Flow where
  /-- A limit is exhausted: no further scheduling. -/
  | stop
  /-- A failed node is recorded; the next pass starts at once. -/
  | again
  | ran
  | idle
deriving DecidableEq

def startNode (node : NodeDef) : EngineM Unit := do
  runCheckpoint env
  syncLiveOutcomes
  setState node.id .running
  event env .stepStarted (startedPayload node 1)

def runNode (node : NodeDef) : EngineM Flow := do
  startNode env node
  match ← EStateM.observe (executeNodeWithRetry env node) with
  | .ok outcome =>
      settleOutcome env replay node outcome
      return .ran
  | .error error =>
      if error.propagates then throw error
      else
        let reason := failureDetailForError error
        settleFailure env node reason (failurePayload node.id "failed" reason)
        return if error.isExhaustion then .stop else .again

/-- Runs a wave. Its ordinary errors are settled per node, so the run goes on. -/
def runWave (ready : List NodeDef) : EngineM Flow := do
  syncLiveOutcomes
  match ← EStateM.observe (executeParallelWave env ready) with
  | .ok _ => return .ran
  | .error error =>
      let unresolved := (← get).journal.state.unresolvedTasks
      if !unresolved.isEmpty || error.propagates then throw error
      else return if error.isExhaustion then .stop else .ran

def isWave (ready : List NodeDef) : Bool :=
  1 < ready.length && ready.length ≤ max 1 env.maxParallelSteps &&
    ready.all env.isParallelSafeNode

def dispatch (ready : List NodeDef) : EngineM Flow :=
  if isWave env ready then runWave env ready
  else
    match ready with
    | node :: _ => runNode env replay node
    | [] => pure .idle

def allTerminal (states : BTreeMap NodeState) : Bool :=
  states.values.all NodeState.isTerminal

def stalled : EngineError :=
  .step (.failed "scheduler" "no runnable node remains")

/-- The end of a pass: done, stalled, or another one. -/
def conclude (progressed : Bool) : Flow → EngineM Bool
  | .stop => pure true
  | .again => pure false
  | flow => do
      if allTerminal (← get).states then return true
      else if progressed || flow = .ran then return false
      else throw stalled

def passGate : EngineM Unit := do
  checkCancelled env
  if ← ask env.schedulerYield then
    runCheckpoint env
    event env .runYielded []
    throw .yielded
  else pure ()

def scanPass : EngineM Scan := do
  passGate env
  env.graph.order.foldlM (visit env replay) {}

def pass : EngineM Bool := do
  let scan ← scanPass env replay
  let flow ← dispatch env replay scan.ready
  conclude scan.progressed flow

/-- Passes until the loop ends; `false` when the passes allowed did not suffice. -/
def runLoop : Nat → EngineM Bool
  | 0 => pure false
  | passes + 1 => do
      if ← pass env replay then return true
      else runLoop passes

/-- A run on a journal, from entry to the end of its loop. -/
def run (passes : Nat) : EngineM Bool := do
  let replay ← enter env
  runLoop env replay passes

def Stamps.plain : Stamps where
  now _ := "now"
  traceIdForRun runId := runId
  spanIdForSeq seq := toString seq
  spanIdForScope runId scope := runId ++ ":" ++ scope

/-- Without limits, prompts or interruptions; every step succeeds with its own id. -/
def Env.plain (graph : Graph) : Env where
  api := .plain
  stamps := .plain
  graph
  runId := "run"
  contractSha256 := "contract"
  generator := "generator@1"
  contractRoot := "/contract"
  retentionDays := .null
  resourceHashes := []
  inputs := ∅
  materialize inputs := inputs
  evalExpr _ _ := .ok true
  debugWhen _ := ""
  answers := ∅
  confirmations := ∅
  parallelSafe _ := true
  replaySafe _ := true
  maxTotalSteps := 100
  maxSteps := 100
  maxParallelSteps := 1
  maxEventCount := none
  cancelled _ := false
  schedulerYield _ := false
  expired _ := none
  execute _ node _ := .ok (.success (some (.str node.id)) [])
  wave _ := []
  pinFailure _ := none

end Qcg
