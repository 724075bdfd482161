import Qcg.Contract.Manifest

/-!
# Outcomes and errors of the engine

What an executor may report for one attempt, the errors that end an attempt, a node
or a run, and the failure detail under which an error is journaled.
-/

namespace Qcg

open Json (Value)

/-- Time used by a run, as reported beside an expired limit. -/
structure Duration where
  secs : UInt64
  subsecNanos : UInt32
deriving DecidableEq, Repr

inductive StepError where
  | failed (node message : String)
  | io (message : String)
  | json (message : String)
  | cancelled
  | budgetExceeded (resource : String) (used limit : UInt64)
  | globalStepBudgetExceeded (node : String) (used allowed : UInt64)
  | providerContextExhausted (node : String)
  | agentIterationsExhausted (node message resource : String) (used allowed : UInt64)
      (validation : Option String)
  | localResourceExhausted (node message resource : String) (used allowed : UInt64)
  | refused (node message : String)
  | mcpAuthorizationRequired (node server : String)
  | timedOut (node : String) (timeoutSecs : UInt64)
  | elapsedExceeded (node : String) (limitSecs : UInt64) (used : Duration)
  | elapsedExpiredBeforeStart (limitSecs : UInt64) (used : Duration)
deriving DecidableEq, Repr

namespace StepError

def isCancelled : StepError → Bool
  | cancelled => true
  | _ => false

def isRetryable : StepError → Bool
  | failed _ _ | timedOut _ _ | agentIterationsExhausted _ _ _ _ _ _
  | localResourceExhausted _ _ _ _ _ => true
  | _ => false

def display : StepError → String
  | failed node message => "step `" ++ node ++ "` failed: " ++ message
  | io message | json message => message
  | cancelled => "step execution was canceled"
  | budgetExceeded resource used limit =>
      "run budget `" ++ resource ++ "` exceeded: " ++ toString used ++ " > " ++ toString limit
  | globalStepBudgetExceeded node used allowed =>
      "step `" ++ node ++ "` failed: global step budget exceeded: " ++ toString used ++ " >= " ++
        toString allowed
  | providerContextExhausted node =>
      "step `" ++ node ++
        "` exhausted the provider context window (model_context_window_exceeded)"
  | agentIterationsExhausted node message _ _ _ _ | localResourceExhausted node message _ _ _ =>
      "step `" ++ node ++ "` failed: " ++ message
  | refused node message => "step `" ++ node ++ "` refused: " ++ message
  | mcpAuthorizationRequired node server =>
      "step `" ++ node ++ "` requires MCP authorization for `" ++ server ++ "`"
  | timedOut node timeoutSecs =>
      "step `" ++ node ++ "` timed out after " ++ toString timeoutSecs ++ "s"
  | elapsedExceeded node limitSecs _ =>
      "step `" ++ node ++ "` exceeded the run elapsed limit of " ++ toString limitSecs ++ "s"
  | elapsedExpiredBeforeStart limitSecs _ =>
      "run elapsed limit of " ++ toString limitSecs ++
        "s expired before the next step could start"

end StepError

namespace JournalError

def display : JournalError → String
  | io message => message
  | json => "invalid JSON"
  | invalidLine line => "invalid journal JSON at line " ++ toString line
  | invalidPayload => "journal event payload must serialize to an object"
  | invalidEvent message => "invalid run event: " ++ message
  | preconditionFailed message => "journal precondition failed: " ++ message
  | limitExceeded resource actual limit =>
      "journal " ++ resource ++ " exceeds " ++ toString limit ++ " bytes (attempted " ++
        toString actual ++ ")"
  | eventCountExceeded actual limit =>
      "journal event count exceeds " ++ toString limit ++ " (attempted " ++ toString actual ++ ")"
  | invalidLimit resource => "invalid journal limit: " ++ resource ++ " must be greater than zero"

end JournalError

inductive EngineError where
  | contract (message : String)
  | step (error : StepError)
  /-- A resume re-enters the agent's continuation instead of settling this error. -/
  | resumableAgent (error : EngineError)
  | settled (detail : FailureDetail)
  | gatewayCanceled
  | gateway (message : String)
  | io (message : String)
  | journal (error : JournalError)
  | expr (node message : String)
  | failed (message : String)
  | rewound (message : String)
  | canceled
  | yielded
  | needsUser (question : FormSpec)
  | needsConfirm (confirm : ConfirmSpec)
deriving DecidableEq

namespace EngineError

def isResumableAgent : EngineError → Bool
  | resumableAgent _ => true
  | _ => false

def isCanceled : EngineError → Bool
  | canceled | gatewayCanceled => true
  | step error => error.isCancelled
  | _ => false

/-- The run waits for a user. -/
def isInteraction : EngineError → Bool
  | needsUser _ | needsConfirm _ => true
  | _ => false

/-- Errors that leave the run without settling the node. -/
def propagates (error : EngineError) : Bool :=
  error.isCanceled || error.isResumableAgent || error.isInteraction

def isBudgetExhaustion : EngineError → Bool
  | step (.budgetExceeded _ _ _) | step (.globalStepBudgetExceeded _ _ _) => true
  | _ => false

def isElapsedExhaustion : EngineError → Bool
  | step (.elapsedExceeded _ _ _) | step (.elapsedExpiredBeforeStart _ _) => true
  | _ => false

/-- Exhausted limits stop scheduling. -/
def isExhaustion (error : EngineError) : Bool :=
  error.isBudgetExhaustion || error.isElapsedExhaustion

def isRetryable : EngineError → Bool
  | step error => error.isRetryable
  | _ => false

def display : EngineError → String
  | contract message | gateway message | io message => message
  | step error => error.display
  | resumableAgent error => error.display
  | settled detail => detail.message
  | gatewayCanceled => "execution was canceled"
  | journal error => error.display
  | expr node message => "expression error in node `" ++ node ++ "`: " ++ message
  | failed message => "run failed: " ++ message
  | rewound message => "run workspace was rewound: " ++ message
  | canceled => "run was canceled"
  | yielded => "run yielded at a scheduler boundary"
  | needsUser question => "run is waiting for user input: " ++ question.id
  | needsConfirm confirm => "run is waiting for side-effect confirmation: " ++ confirm.id

end EngineError

namespace BudgetExhaustion

def elapsed (used : Duration) (allowed : UInt64) : BudgetExhaustion :=
  { resource := "elapsed_seconds", used := used.secs, allowed,
    usedSubsecNanoseconds := some used.subsecNanos }

def ofCounts (resource : String) (used allowed : UInt64) : BudgetExhaustion :=
  { resource, used, allowed, usedSubsecNanoseconds := none }

end BudgetExhaustion

def StepError.classify : StepError → FailureCode × Option BudgetExhaustion
  | .elapsedExceeded _ limitSecs used | .elapsedExpiredBeforeStart limitSecs used =>
      (.elapsedExceeded, some (.elapsed used limitSecs))
  | .timedOut _ _ => (.timedOut, none)
  | .budgetExceeded resource used limit =>
      (.budgetExceeded, some (.ofCounts resource used limit))
  | .localResourceExhausted _ _ resource used allowed =>
      (.executionFailed, some (.ofCounts resource used allowed))
  | .globalStepBudgetExceeded _ used allowed =>
      (.budgetExceeded, some (.ofCounts "steps" used allowed))
  | .providerContextExhausted _ => (.providerContextExhausted, none)
  | .refused _ _ => (.refused, none)
  | .mcpAuthorizationRequired _ _ => (.mcpAuthorizationRequired, none)
  | .cancelled => (.canceled, none)
  | .failed _ _ | .io _ | .json _ | .agentIterationsExhausted _ _ _ _ _ _ =>
      (.executionFailed, none)

def failureDetailForError : EngineError → FailureDetail
  | .resumableAgent error => failureDetailForError error
  | .settled detail => detail
  | .step error =>
      { FailureDetail.new error.classify.1 error.display with exhaustion := error.classify.2 }
  | error =>
      FailureDetail.new (if error.isCanceled then .canceled else .executionFailed) error.display

inductive Severity where
  | info
  | warning
  | error
deriving DecidableEq, Repr

structure Finding where
  severity : Severity := .error
  message : String
  location : Option String := none
  rawOutput : Option String := none
deriving DecidableEq, Repr

namespace Finding

def severityStr : Severity → String
  | .info => "info"
  | .warning => "warning"
  | .error => "error"

def optionValue : Option String → Value
  | some s => .str s
  | none => .null

def toValue (finding : Finding) : Value :=
  .obj [("location", optionValue finding.location), ("message", .str finding.message),
    ("raw_output", optionValue finding.rawOutput),
    ("severity", .str (severityStr finding.severity))]

def listToValue (findings : List Finding) : Value :=
  .arr (findings.map toValue)

end Finding

/-- What one attempt of a node reports. The files it produced appear as their pins. -/
inductive StepOutcome where
  | success (output : Option Value) (files : List FilePin)
  | checkFailed (findings : List Finding) (output : Option Value) (files : List FilePin)
  | needsUser (question : FormSpec) (files : List FilePin)
  | needsConfirm (confirm : ConfirmSpec) (files : List FilePin)
deriving DecidableEq

namespace StepOutcome

def isSuccess : StepOutcome → Bool
  | success _ _ => true
  | _ => false

def isInteraction : StepOutcome → Bool
  | needsUser _ _ | needsConfirm _ _ => true
  | _ => false

end StepOutcome

def failureFromFindings (findings : List Finding) (code : FailureCode) : FailureDetail :=
  let message := "; ".intercalate ((findings.map Finding.message).filter fun m => m ≠ "")
  FailureDetail.new code (if message = "" then "check failed" else message)

/-- A declared alias names the output, otherwise the node id does. -/
def outputNameFor (node : NodeDef) : String :=
  node.output.getD node.id

end Qcg
