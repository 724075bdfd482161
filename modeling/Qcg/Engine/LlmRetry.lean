import Qcg.Contract.Inputs

/-!
# Decisions on failed LLM calls

What a provider's retry policy makes of a failed attempt, and whether the error of a route allows
the next route to be tried.
-/

namespace Qcg

namespace Llm

inductive LlmErrorKind where
  | httpStatus (status : UInt16)
  | timedOut
  | network
  | emptyResponse
  | invalidResponse
  | partialStream
  | canceled
  | circuitOpen
  | other
deriving DecidableEq, Repr

inductive TransportPhase where
  | connect
  | response
  | unknown
deriving DecidableEq, Repr

inductive RequestDispatch where
  | notSent
  | sent
  | unknown
deriving DecidableEq, Repr

structure TransportFacts where
  phase : TransportPhase := .unknown
  dispatch : RequestDispatch := .unknown
deriving DecidableEq, Repr

inductive RetryAction where
  | failFast
  | retry
  | nextRoute
deriving DecidableEq, Repr

inductive RetryGuard where
  | attemptLimit
  | streamEmitted
  | terminalError
  | circuitOpen
deriving DecidableEq, Repr

structure RetryDecision where
  kind : LlmErrorKind
  facts : TransportFacts
  attempt : Option Nat
  stream : Bool
  requested : RetryAction
  action : RetryAction
  source : String
  guard : Option RetryGuard
  providerCode : Option String
  retryAfterObservedSecs : Option Nat
  retryAfterSecs : Option Nat
  retryAfterApplied : Bool
deriving DecidableEq, Repr

structure LlmError where
  message : String
  kind : LlmErrorKind := .other
  facts : TransportFacts := {}
  decisions : List RetryDecision := []
  providerCode : Option String := none
  retryAfterSecs : Option Nat := none
deriving DecidableEq, Repr

def maxProviderErrorCodeLen : Nat := 64

def sanitizeProviderErrorCode (raw : String) : Option String :=
  let code := ((raw.toList.dropWhile Splitting.isWhitespace).reverse.dropWhile
    Splitting.isWhitespace).reverse
  if !code.isEmpty && code.length ≤ maxProviderErrorCodeLen &&
      code.all fun c => c.isAlphanum || c = '.' || c = '_' || c = '-' then
    some (String.ofList code)
  else none

structure RetryRule where
  kind : Option LlmErrorKind
  phase : Option TransportPhase
  dispatch : Option RequestDispatch
  stream : Option Bool
  attemptFrom : Option Nat
  attemptThrough : Option Nat
  providerCode : Option String
  useRetryAfter : Bool
  action : RetryAction
  onExhausted : RetryAction
deriving DecidableEq, Repr

structure RetryPolicy where
  maxRetryAfterSecs : Nat := 60
  rules : List RetryRule := []

def isTerminalErrorKind : LlmErrorKind → Bool
  | .canceled | .partialStream | .other => true
  | _ => false

def LlmError.isRetryable (error : LlmError) : Bool :=
  match error.kind with
  | .timedOut | .emptyResponse | .circuitOpen => true
  | .httpStatus status => status = 429 || (500 ≤ status && status ≤ 599)
  | _ => false

def RetryRule.matches (rule : RetryRule) (error : LlmError) (providerCode : Option String)
    (attempt : Nat) (stream : Bool) : Bool :=
  rule.kind.all (· = error.kind) && rule.phase.all (· = error.facts.phase) &&
    rule.dispatch.all (· = error.facts.dispatch) && rule.stream.all (· = stream) &&
    rule.attemptFrom.all (· ≤ attempt) && rule.attemptThrough.all (attempt ≤ ·) &&
    rule.providerCode.all (providerCode = some ·)

def RetryPolicy.decide (policy : RetryPolicy) (error : LlmError) (attempt maxAttempts : Nat)
    (stream emitted : Bool) : RetryDecision :=
  let providerCode := error.providerCode.bind sanitizeProviderErrorCode
  let matched := policy.rules.zipIdx.find? fun entry =>
    entry.1.matches error providerCode attempt stream
  let asked : RetryAction × RetryAction × String :=
    match matched with
    | some (rule, index) => (rule.action, rule.onExhausted, "rule:" ++ toString index)
    | none =>
      if error.isRetryable then (.retry, .nextRoute, "default")
      else (.failFast, .failFast, "default")
  let requested := asked.1
  let exhausted := if asked.2.1 = .retry then .failFast else asked.2.1
  let settled : RetryAction × Option RetryGuard :=
    if emitted then (.failFast, some .streamEmitted)
    else if isTerminalErrorKind error.kind then (.failFast, some .terminalError)
    else if error.kind = .circuitOpen ∧ requested = .retry then (exhausted, some .circuitOpen)
    else if requested = .retry ∧ maxAttempts ≤ attempt then (exhausted, some .attemptLimit)
    else (requested, none)
  let retryAfterSecs := error.retryAfterSecs.map (min · policy.maxRetryAfterSecs)
  { kind := error.kind, facts := error.facts, attempt := some attempt, stream, requested
    action := settled.1
    source := asked.2.2
    guard := settled.2
    providerCode
    retryAfterObservedSecs := error.retryAfterSecs
    retryAfterSecs
    retryAfterApplied := settled.1 = .retry && matched.any (·.1.useRetryAfter) &&
      retryAfterSecs.isSome }

def LlmError.allowsNextRoute (error : LlmError) : Bool :=
  if isTerminalErrorKind error.kind then false
  else
    match error.decisions.getLast? with
    | some decision => decision.action = .nextRoute
    | none => (RetryPolicy.decide {} error 1 1 false false).action = .nextRoute

/-- `RetryTrace::finish_error`: the decisions the router has reported go with the error, and one
is added when the last of them is not about this kind of error. -/
def finishError (reported : List RetryDecision) (policy : RetryPolicy) (error : LlmError)
    (stream : Bool) : LlmError :=
  let error := if reported.isEmpty then error else { error with decisions := reported }
  if error.decisions.getLast?.all (·.kind ≠ error.kind) then
    let attempt := error.decisions.length + 1
    let decision := policy.decide error attempt attempt stream (error.kind = .partialStream)
    let decision :=
      match error.kind with
      | .canceled => { decision with attempt := none, source := "gateway" }
      | .partialStream =>
        { decision with
          attempt := error.decisions.getLast?.bind (·.attempt)
          source := "gateway"
          facts := { phase := .response, dispatch := .sent } }
      | _ => decision
    { error with decisions := error.decisions ++ [decision] }
  else error

theorem kind_finishError (reported : List RetryDecision) (policy : RetryPolicy) (error : LlmError)
    (stream : Bool) : (finishError reported policy error stream).kind = error.kind := by
  rw [finishError]
  split <;> split <;> rfl

/-- The end of a call or of a stream that has begun is final, whatever the policy of the provider
has decided. -/
theorem allowsNextRoute_of_terminal {error : LlmError} (h : isTerminalErrorKind error.kind = true) :
    error.allowsNextRoute = false := by
  rw [LlmError.allowsNextRoute, if_pos h]

end Llm

end Qcg
