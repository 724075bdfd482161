import Qcg.Engine.Execute

/-!
# Repair and regeneration

The repair cycle runs a repair and a recheck node in the place of a node whose check
failed. It writes their scheduler states under their graph ids, but journals their
executions under the owner's repair path. Regeneration repeats the failed node itself.
-/

namespace Qcg

open Json (Value)

structure ReplayedStep where
  output : Option Value
  files : List FilePin
deriving DecidableEq

/-- The successes of a reopened journal, by node path. -/
def replayedSteps (nodes : BTreeMap NodeOutcome) : BTreeMap ReplayedStep :=
  nodes.filterMap fun _ outcome =>
    match outcome with
    | .success output files => some { output, files }
    | .skipped _ | .failed _ => none

def requiredInputField (id kind : String) (label description : Option String) : Value :=
  .obj (Json.Members.ofList
    ([("id", .str id), ("type", .str kind), ("required", .bool true), ("default", .null),
      ("pattern", .null), ("options", .arr []), ("min_items", .null), ("item_type", .null)] ++
      (label.toList.map fun text => ("label", Value.str text)) ++
      (description.toList.map fun text => ("description", Value.str text))))

def formSpec (id title : String) (fields : List Value) : FormSpec :=
  { id, body := .obj [("fields", .arr fields), ("id", .str id), ("title", .str title)] }

def exhaustedQuestion (node : NodeDef) (phase : String) (title : Option String)
    (fields : List Value) : FormSpec :=
  formSpec (node.id ++ ":" ++ phase ++ "_exhausted")
    (title.getD ("Resolve exhausted " ++ phase ++ " for node `" ++ node.id ++ "`"))
    (if fields.isEmpty then
      [requiredInputField "answer" "text" (some "Resolution")
        (some ("Provide the resolution after " ++ phase ++ " attempts were exhausted"))]
    else fields)

/-- The question asked when a check failure is handed to the user. -/
def onFailQuestion (node : NodeDef) : FormSpec :=
  formSpec (node.id ++ ":on_fail") ("Resolve check failure for node `" ++ node.id ++ "`")
    [requiredInputField "answer" "string" none none]

def checkFailedOutput (findings : List Finding) : Value :=
  .obj [("findings", Finding.listToValue findings), ("status", .str "check_failed")]

variable (env : Env) (replay : BTreeMap ReplayedStep)

def settleNamedNode (node : NodeDef) (graphNodeId : String) (outcome : StepOutcome) :
    EngineM Unit := do
  pinAttemptFiles env
  match outcome with
  | .success output files =>
      setState graphNodeId .success
      event env .stepFinished
        (successPayload node.id "success" output (outputNameFor node) ++ filesMember files)
      modifyVars fun vars =>
        vars.publishStepOutput node.id node.output output (some graphNodeId)
      syncSubtree node.id
  | .checkFailed findings output files =>
      let reason := failureFromFindings findings .checkFailed
      setState graphNodeId (.failed reason)
      event env .stepFinished (withFailedEvidence
        (failurePayload node.id "check_failed" reason ++ findingsMember findings) output files)
      syncSubtree node.id
  | .needsUser question files =>
      event env .stepFinished (withFailedEvidence
        (questionPayload node.id question ++ filesMember files) none [])
  | .needsConfirm confirm files =>
      event env .confirmRequest (confirmPayload node.id confirm files)

/-- A success that the journal already holds for a named node is not executed again. -/
def replayNamedNode (path graphNodeId : String) (step : ReplayedStep) :
    EngineM StepOutcome := do
  modifyVars fun vars =>
    match step.output with
    | some output => (vars.setStepOutput path output).setStepOutput graphNodeId output
    | none => vars
  setState graphNodeId .success
  event env .stepReplayed [("node", .str path), ("status", .str "success")]
  syncSubtree path
  return .success step.output step.files

/-- An ordinary error settles the named node and then ends the cycle. -/
def failNamedNode (path graphNodeId : String) (error : EngineError) : EngineM StepOutcome := do
  let reason := failureDetailForError error
  setState graphNodeId (.failed reason)
  event env .stepFinished (failurePayload path "failed" reason)
  syncSubtree path
  throw error

def executeNamedNode (owner nodeId : String) (attempt : Nat) : EngineM StepOutcome := do
  match (env.graph.nodes[nodeId]? : Option NodeDef) with
  | none => throw (.step (.failed nodeId "referenced node was not found"))
  | some found =>
      let path := NodePath.repairChild owner attempt found.id
      let node : NodeDef := { found with id := path, output := none }
      match (replay[path]? : Option ReplayedStep) with
      | some step => replayNamedNode env path found.id step
      | none =>
          setState found.id .running
          event env .stepStarted (startedPayload node attempt)
          match ← EStateM.observe (executeNodeWithRetry env node) with
          | .ok outcome =>
              settleNamedNode env node found.id outcome
              return outcome
          | .error error =>
              if error.propagates then throw error
              else failNamedNode env path found.id error

inductive RepairCycleOutcome where
  | repaired (output : Option Value)
  | routed (target : String) (output : Value)
  | answered (output : Value)
  | failed (reason : FailureDetail)
deriving DecidableEq

structure RepairPlan where
  repair : String
  recheck : String
  maxAttempts : Nat
  onExhausted : ExhaustedAction

def repairAttemptStarted (owner : String) (plan : RepairPlan) (attempt : Nat) : EngineM Unit :=
  event env .repairAttemptStarted [("node", .str owner), ("repair", .str plan.repair),
    ("recheck", .str plan.recheck), ("attempt", .num attempt),
    ("max_attempts", .num plan.maxAttempts)]

def repairAttemptFinished (owner : String) (attempt : Nat) (status : String)
    (detail : List (String × Value)) : EngineM Unit :=
  event env .repairAttemptFinished ([("node", .str owner), ("attempt", .num attempt),
    ("status", .str status)] ++ detail)

/-- How one attempt of a cycle ended: repaired with the recheck's output, or not yet. -/
inductive AttemptOutcome where
  | repaired (recheck : Option Value)
  | unrepaired (reason : FailureDetail)

/-- Interactions of a repair or recheck node suspend the run like those of any node. -/
def suspendAttempt (owner : String) (attempt : Nat) : StepOutcome → EngineM AttemptOutcome
  | .needsUser question _ => do
      repairAttemptFinished env owner attempt "needs_user" [("question", question.body)]
      throw (.needsUser question)
  | .needsConfirm confirm _ => do
      repairAttemptFinished env owner attempt "needs_confirm" [("confirm", confirm.body)]
      throw (.needsConfirm confirm)
  | .success _ _ | .checkFailed _ _ _ => throw (.failed "repair recheck unexpectedly succeeded")

def recheckAttempt (owner : String) (plan : RepairPlan) (attempt : Nat) :
    EngineM AttemptOutcome := do
  match ← executeNamedNode env replay owner plan.recheck attempt with
  | .success output _ => do
      repairAttemptFinished env owner attempt "repaired" []
      return .repaired output
  | .checkFailed findings _ _ => do
      modifyVars fun vars => vars.setStepOutput owner (checkFailedOutput findings)
      repairAttemptFinished env owner attempt "recheck_failed" (findingsMember findings)
      return .unrepaired (failureFromFindings findings .checkFailed)
  | outcome => suspendAttempt env owner attempt outcome

def repairAttempt (owner : String) (plan : RepairPlan) (attempt : Nat) :
    EngineM AttemptOutcome := do
  runCheckpoint env
  repairAttemptStarted env owner plan attempt
  match ← executeNamedNode env replay owner plan.repair attempt with
  | .success _ _ => recheckAttempt env replay owner plan attempt
  | .checkFailed findings _ _ => do
      let reason := failureFromFindings findings .checkFailed
      repairAttemptFinished env owner attempt "repair_failed" [("reason", reason.toValue)]
      return .unrepaired reason
  | outcome => suspendAttempt env owner attempt outcome

/-- The attempts of a cycle from `attempt` on, `left` of them still allowed. A repair ends
it with the number of the attempt that succeeded. -/
def repairAttempts (owner : String) (plan : RepairPlan) :
    (left attempt : Nat) → FailureDetail → EngineM ((Nat × Option Value) ⊕ FailureDetail)
  | 0, _, lastReason => pure (.inr lastReason)
  | left + 1, attempt, _ => do
      match ← repairAttempt env replay owner plan attempt with
      | .repaired recheck => return .inl (attempt, recheck)
      | .unrepaired reason => repairAttempts owner plan left (attempt + 1) reason

/-- The reason under which an exhausted cycle leaves its two nodes. -/
def cycleExhausted : FailureDetail :=
  FailureDetail.new .executionFailed "repair cycle exhausted"

/-- An exhausted cycle skips both of its nodes and then takes the declared action. -/
def exhaustRepair (owner : NodeDef) (plan : RepairPlan) (lastReason : FailureDetail) :
    EngineM RepairCycleOutcome := do
  setState plan.repair (.skipped cycleExhausted)
  setState plan.recheck (.skipped cycleExhausted)
  match plan.onExhausted with
  | .route target =>
      return .routed target (.obj [("attempts", .num plan.maxAttempts),
        ("reason", lastReason.toValue), ("routed_to", .str target),
        ("status", .str "repair_exhausted")])
  | .askUser title fields =>
      let question := exhaustedQuestion owner "repair" title fields
      match (env.answers[question.id]? : Option Value) with
      | some answer =>
          return .answered (.obj [("answer", answer), ("attempts", .num plan.maxAttempts),
            ("reason", lastReason.toValue), ("status", .str "repair_exhausted_answered")])
      | none => throw (.needsUser question)
  | .fail =>
      return .failed (FailureDetail.new .repairExhausted
        ("repair cycle exhausted after " ++ toString plan.maxAttempts ++ " attempt(s): " ++
          lastReason.message))

def executeRepairCycle (owner : NodeDef) (plan : RepairPlan) (findings : List Finding) :
    EngineM RepairCycleOutcome := do
  if plan.maxAttempts = 0 then
    return .failed (FailureDetail.new .repairExhausted
      "repair max_attempts must be greater than 0")
  else
    modifyVars fun vars => vars.setStepOutput owner.id (checkFailedOutput findings)
    match ← repairAttempts env replay owner.id plan plan.maxAttempts 1
        (failureFromFindings findings .checkFailed) with
    | .inl (attempt, recheck) =>
        return .repaired (some (.obj [("attempts", .num attempt),
          ("recheck", outputValue recheck), ("status", .str "repaired")]))
    | .inr lastReason => exhaustRepair env owner plan lastReason

/-- The last failed revision that regeneration produced. -/
structure FailedRevision where
  findings : List Finding
  output : Option Value
  files : List FilePin

def regenerateAttempts (node : NodeDef) (maxAttempts : Nat) :
    (left attempt : Nat) → FailedRevision → EngineM StepOutcome
  | 0, _, last => pure (.checkFailed last.findings last.output last.files)
  | left + 1, attempt, _ => do
      event env .regenerateAttemptStarted [("node", .str node.id), ("attempt", .num attempt),
        ("max_attempts", .num maxAttempts)]
      runCheckpoint env
      match ← executeNodeWithRetry env node with
      | .checkFailed findings output files =>
          modifyVars fun vars => vars.setStepOutput node.id (checkFailedOutput findings)
          event env .regenerateAttemptFinished [("node", .str node.id), ("attempt", .num attempt),
            ("status", .str "check_failed"), ("findings", Finding.listToValue findings)]
          regenerateAttempts node maxAttempts left (attempt + 1) { findings, output, files }
      | .success output files =>
          event env .regenerateAttemptFinished [("node", .str node.id), ("attempt", .num attempt),
            ("status", .str "success")]
          return .success output files
      | outcome => return outcome

def executeRegenerate (node : NodeDef) (maxAttempts : Nat) (findings : List Finding) :
    EngineM StepOutcome := do
  if maxAttempts = 0 then return .checkFailed findings none []
  else
    modifyVars fun vars => vars.setStepOutput node.id (checkFailedOutput findings)
    regenerateAttempts env node maxAttempts maxAttempts 1 { findings, output := none, files := [] }

end Qcg
