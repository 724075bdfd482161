import Qcg.State.Event
import Qcg.Contract.ValueBag

/-!
# The folded run state

The record that folding the journal produces. `FoldState` is the part every event
arm may touch; `RunState` adds the identity and the two sequence positions, which
only the identity arms and the writer read.
-/

namespace Qcg

open Json (Value)

inductive JournalError where
  | io (message : String)
  | json
  | invalidLine (line : Nat)
  | invalidPayload
  | invalidEvent (message : String)
  | preconditionFailed (message : String)
  | limitExceeded (resource : String) (actual limit : Nat)
  | eventCountExceeded (actual limit : Nat)
  | invalidLimit (resource : String)
deriving DecidableEq, Repr

inductive TerminalState where
  | succeeded
  | failed
  | canceled
  | interrupted
deriving DecidableEq, Repr

namespace TerminalState

/-- An interrupted run may still be resumed; the other three are final. -/
def isFinal : TerminalState → Bool
  | interrupted => false
  | _ => true

end TerminalState

inductive Interaction where
  | question (question : FormSpec)
  | confirmation (confirm : ConfirmSpec)
deriving DecidableEq, Repr

namespace Interaction

def responseIdentity : Interaction → EventKind × String × String
  | question spec => (.userAnswered, "question_id", spec.id)
  | confirmation spec => (.userConfirmed, "confirmation_id", spec.id)

end Interaction

structure FilePin where
  path : String
  sha256 : String
deriving DecidableEq, Repr

namespace FilePin

def ofValue (v : Value) : Option FilePin := do
  let path ← v.getStr "path"
  let sha256 ← v.getStr "sha256"
  return { path, sha256 }

def toValue (pin : FilePin) : Value :=
  .obj [("path", .str pin.path), ("sha256", .str pin.sha256)]

def listOfValue (v : Value) : Option (List FilePin) := do
  (← v.asArray).mapM ofValue

def listToValue (pins : List FilePin) : Value :=
  .arr (pins.map toValue)

end FilePin

inductive NodeOutcome where
  | success (output : Option Value) (files : List FilePin)
  | skipped (reason : FailureDetail)
  | failed (reason : FailureDetail)
deriving DecidableEq

inductive ElapsedBudgetMode where
  | wallClock
  | activeExecution
deriving DecidableEq, Repr

namespace ElapsedBudgetMode

def ofValue : Value → Option ElapsedBudgetMode
  | .str "wall_clock" => some wallClock
  | .str "active_execution" => some activeExecution
  | _ => none

end ElapsedBudgetMode

/-- The durable ledger of active execution time. -/
structure ElapsedAccounted where
  activeNanoseconds : Nat
  activeStartedAt : Option String
deriving DecidableEq, Repr

structure BudgetState where
  elapsedBudgetMode : ElapsedBudgetMode := .wallClock
  elapsed : Option ElapsedAccounted := none
  stepsExecuted : Nat := 0
  budgetCharged : Nat := 0
  hasBudgetCharges : Bool := false
  stepsSucceeded : Nat := 0
  stepsFailed : Nat := 0
  stepsSkipped : Nat := 0
  repairAttempts : Nat := 0
  regenerateAttempts : Nat := 0
  llmCalls : Nat := 0
  tokensInput : Nat := 0
  tokensOutput : Nat := 0
  tokensCachedInput : Nat := 0
  tokensCacheCreationInput : Nat := 0
  costMicrousd : Nat := 0
  unresolvedSearchCost : Bool := false
  startedAt : Option String := none
deriving DecidableEq, Repr

inductive OperationStatus where
  | started
  | succeeded
  | failedClean
  | failedIndeterminate
deriving DecidableEq, Repr

/-- What a resume does with an operation whose outcome is unknown. -/
inductive RetryOnIndeterminate where
  | fail
  | repeat
deriving DecidableEq, Repr

structure OperationRecord where
  digest : String
  status : OperationStatus
  result : Option Value
  resultRef : Option String
  invocation : String
  onIndeterminate : RetryOnIndeterminate
deriving DecidableEq

/-- Everything the fold keeps except the run identity and the sequence positions. -/
structure FoldState where
  contractSha256 : Option String := none
  packageSha256 : Option String := none
  generatorPath : Option String := none
  generatorId : Option String := none
  labels : BTreeMap String := ∅
  inputs : Option (BTreeMap Value) := none
  vars : ValueBag := {}
  nodes : BTreeMap NodeOutcome := ∅
  checkpoints : BTreeMap Value := ∅
  unresolvedTasks : BTreeMap Value := ∅
  foreachReports : BTreeMap Value := ∅
  removedFiles : BTreeSet := ∅
  budget : BudgetState := {}
  resourcePins : BTreeMap String := ∅
  latestFilePins : BTreeMap String := ∅
  nodeExecutions : BTreeMap Nat := ∅
  historicalFilePins : BTreeMap BTreeSet := ∅
  pending : Option Interaction := none
  pendingSeq : Option Nat := none
  pendingInteractions : BTreeMap Interaction := ∅
  interactionSeqs : BTreeMap Nat := ∅
  terminal : Option TerminalState := none
  executionStarted : Bool := false
  finishedAt : Option String := none
  priority : Int := 0
  parentRunId : Option String := none
  queuedAt : Option String := none
  operationRecords : BTreeMap OperationRecord := ∅
  operationAttempts : BTreeMap Nat := ∅
  answers : BTreeMap Value := ∅
  confirmations : BTreeMap Bool := ∅
  cancelRequested : Bool := false
  cancelOperations : BTreeSet := ∅
  mcpPending : BTreeMap Value := ∅
  mcpResumed : BTreeMap String := ∅
  hooksSettled : BTreeSet := ∅
deriving DecidableEq

structure RunState extends FoldState where
  runId : Option String := none
  lastSeq : Nat := 0
  auditSeq : Nat := 0
deriving DecidableEq

end Qcg
