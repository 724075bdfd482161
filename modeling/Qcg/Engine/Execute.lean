import Qcg.Engine.Live

/-!
# Executing one node

Charged attempts under a retry policy. Only execution failures are repeated; every
other error, and every reported outcome, ends the node's execution at once.
-/

namespace Qcg

open Json (Value)

def maxRetryAttempts : Nat := 16

variable (env : Env)

/-- One charged attempt; what the executor reports, errors included, is its value. -/
def attemptOnce (node : NodeDef) : EngineM (Except EngineError StepOutcome) := do
  consume env node.id
  event env .budgetCharged [("node", .str node.id), ("amount", .num 1)]
  modify fun live => { live with dispatched := live.dispatched ++ [node.id] }
  let vars := (← get).vars
  ask fun tick => env.execute tick node vars

/-- The pause before a repeated attempt ends early on cancellation or the elapsed limit. -/
def backoff (node : NodeDef) : EngineM Unit := do
  checkCancelled env
  checkExpired env (.elapsedExceeded node.id)

def stepRetry (node : NodeDef) (attempt maxAttempts : Nat) (error : EngineError) :
    EngineM Unit :=
  event env .stepRetry [("node", .str node.id), ("attempt", .num attempt),
    ("max_attempts", .num maxAttempts), ("error", .str error.display)]

/-- Between two attempts: the observation of the retry, then the pause. -/
def repeatAttempt (node : NodeDef) (attempt maxAttempts : Nat) (error : EngineError) :
    EngineM Unit := do
  stepRetry env node attempt maxAttempts error
  backoff env node

/-- Attempts with `left` repetitions still allowed. -/
def attempts (node : NodeDef) (maxAttempts : Nat) : Nat → EngineM StepOutcome
  | 0 => do
      match ← attemptOnce env node with
      | .ok outcome => pure outcome
      | .error error => throw error
  | left + 1 => do
      match ← attemptOnce env node with
      | .ok outcome => pure outcome
      | .error error =>
          if error.isRetryable then do
            repeatAttempt env node (maxAttempts - (left + 1)) maxAttempts error
            attempts node maxAttempts left
          else throw error

/-- The retry bounds are refused, never adjusted. -/
def retryAttempts (node : NodeDef) : Except EngineError Nat :=
  let maxAttempts := (node.retry.getD {}).maxAttempts
  if maxAttempts = 0 ∨ maxRetryAttempts < maxAttempts then
    .error (.failed ("node `" ++ node.id ++ "` retry.max_attempts must be between 1 and " ++
      toString maxRetryAttempts))
  else .ok maxAttempts

def executeNodeWithRetry (node : NodeDef) : EngineM StepOutcome := do
  match retryAttempts node with
  | .error error => throw error
  | .ok maxAttempts => attempts env node maxAttempts (maxAttempts - 1)

def outputValue (output : Option Value) : Value :=
  output.getD .null

/-- Failed evidence: the rejected output and its pins, never under the success keys. -/
def withFailedEvidence (payload : List (String × Value)) (failedOutput : Option Value)
    (failedFiles : List FilePin) : List (String × Value) :=
  payload ++ [("failed_output", outputValue failedOutput),
    ("failed_files", FilePin.listToValue failedFiles)]

def successPayload (id status : String) (output : Option Value) (outputName : String) :
    List (String × Value) :=
  [("node", .str id), ("status", .str status), ("output", outputValue output),
    ("output_name", .str outputName)]

def failurePayload (id status : String) (reason : FailureDetail) : List (String × Value) :=
  [("node", .str id), ("status", .str status), ("reason", reason.toValue)]

def questionPayload (id : String) (question : FormSpec) : List (String × Value) :=
  [("node", .str id), ("status", .str "needs_user"), ("question", question.body)]

def confirmPayload (id : String) (confirm : ConfirmSpec) (files : List FilePin) :
    List (String × Value) :=
  [("node", .str id), ("confirm", confirm.body), ("files", FilePin.listToValue files)]

def filesMember (files : List FilePin) : List (String × Value) :=
  [("files", FilePin.listToValue files)]

def findingsMember (findings : List Finding) : List (String × Value) :=
  [("findings", Finding.listToValue findings)]

def parallelMember : List (String × Value) :=
  [("parallel", .bool true)]

def startedPayload (node : NodeDef) (attempt : Nat) : List (String × Value) :=
  [("node", .str node.id), ("type", .str node.kind), ("attempt", .num attempt)]

end Qcg
