import Qcg.Journal.Append

/-!
# Answers and confirmations

`answer` and `confirm` of services that share a run directory. A request looks at the memory of
its process and at the durable prompt, observes the generation of the prompt, and is then
accepted by one conditional append under the journal lock. Between these steps other services
and the engine may append what they like.
-/

namespace Qcg

open List
open Json (Value Members)

/-- The prompt that may be answered: in active accounting only between two episodes. -/
def FoldState.settledPending (s : FoldState) : Option Interaction :=
  if s.budget.elapsedBudgetMode = .activeExecution ∧
      s.budget.elapsed.all (·.activeStartedAt.isSome) then none
  else s.pending

inductive RunStatus where
  | queued
  | running
  | waiting
  | confirming
  | cancelRequested
  | succeeded
  | failed
  | canceled
  | interrupted
deriving DecidableEq, Repr

/-- What a request wants to record. -/
inductive Response where
  | answer (questionId : String) (values : Value)
  | decision (confirmationId : String) (approved : Bool)
deriving DecidableEq

namespace Response

def kind : Response → EventKind
  | answer _ _ => .userAnswered
  | decision _ _ => .userConfirmed

def idKey : Response → String
  | answer _ _ => "question_id"
  | decision _ _ => "confirmation_id"

def id : Response → String
  | answer questionId _ => questionId
  | decision confirmationId _ => confirmationId

def key (response : Response) : EventKind × String × String :=
  (response.kind, response.idKey, response.id)

def valueKey : Response → String
  | answer _ _ => "values"
  | decision _ _ => "approved"

def value : Response → Value
  | answer _ values => values
  | decision _ approved => .bool approved

def payload (response : Response) (queuedAt : String) : Members :=
  Members.ofList [(response.idKey, .str response.id), (response.valueKey, response.value),
    ("queued_at", .str queuedAt)]

/-- Whether a response to the same prompt was folded before. -/
def taken (response : Response) (s : FoldState) : Bool :=
  match response with
  | answer questionId _ => s.answers.contains questionId
  | decision confirmationId _ => s.confirmations.contains confirmationId

def notWaiting : Response → String
  | answer _ _ => "run is not waiting for this question"
  | decision _ _ => "run is not waiting for this confirmation"

def alreadyTaken : Response → String
  | answer _ _ => "question was already answered"
  | decision _ _ => "confirmation was already decided"

def isAsked (response : Response) (pending : Option Interaction) : Bool :=
  pending.any fun interaction => interaction.responseIdentity = response.key

def check (response : Response) (cancelControls : Bool) (generation : Option Nat)
    (state : RunState) : Except JournalError Unit :=
  if state.terminal.isSome then .error (.preconditionFailed "run is already terminal")
  else if state.cancelRequested || cancelControls then
    .error (.preconditionFailed "a cancel was accepted")
  else if !response.isAsked state.settledPending then
    .error (.preconditionFailed response.notWaiting)
  else if generation.isNone || state.pendingSeq ≠ generation then
    .error (.preconditionFailed "pending prompt generation changed; refresh and retry")
  else if response.taken state.toFoldState then
    .error (.preconditionFailed response.alreadyTaken)
  else .ok ()

/-- The generation that a request observes; none for another prompt. -/
def observe (response : Response) (state : RunState) : Option Nat :=
  if response.isAsked state.pending then state.pendingSeq else none

end Response

/-- The memory a service keeps of a run. -/
structure RunRecord where
  answers : BTreeMap Value
  confirmations : BTreeMap Bool
  status : RunStatus
  question : Option FormSpec
  confirm : Option ConfirmSpec

namespace RunRecord

def clearPrompt (record : RunRecord) : RunRecord :=
  { record with question := none, confirm := none }

def accept (record : RunRecord) : Response → RunRecord
  | .answer questionId values =>
    { record.clearPrompt with
      answers := record.answers.insert questionId values
      status := .queued }
  | .decision confirmationId true =>
    { record with
      confirmations := record.confirmations.insert confirmationId true
      status := .queued
      confirm := none }
  | .decision confirmationId false =>
    { record.clearPrompt with
      confirmations := record.confirmations.insert confirmationId false
      status := .queued }

end RunRecord

/-- The reply to a request; a denial that was accepted before is settled again. -/
inductive Reply where
  | ok
  | reconcile
  | conflict (detail : String)
  | invalid (detail : String)
  | notFound (detail : String)
  | rejected (error : JournalError)
deriving DecidableEq

/-- The parts of a service that do not depend on the run directory. -/
structure ServiceEnv extends Journal.AppendEnv where
  validateFormValues : FormSpec → Value → Bool

namespace ServiceEnv

variable (env : ServiceEnv)

def notWaitingForInput : String := "run `" ++ env.runId ++ "` is not waiting for user input"

def notWaitingForConfirmation : String :=
  "run `" ++ env.runId ++ "` is not waiting for side-effect confirmation"

def wasNotFound : String := "run `" ++ env.runId ++ "` was not found"

/-- A run that is not in memory has ended or is unknown. -/
def untrackedAnswer (durable : RunState) (questionId : String) (values : Value) : Reply :=
  if durable.terminal.isSome then
    match (durable.answers[questionId]? : Option Value) with
    | some existing =>
      if existing = values then .ok
      else .conflict ("question `" ++ questionId ++ "` was already answered with different values")
    | none => .invalid env.notWaitingForInput
  else .notFound env.wasNotFound

def resolveQuestion (durable : RunState) (record : RunRecord) (questionId : String) :
    Except Reply FormSpec :=
  match record.status, record.question with
  | .waiting, some question =>
    if question.id = questionId then .ok question else fromJournal (some question)
  | _, question => fromJournal question
where
  fromJournal (shown : Option FormSpec) : Except Reply FormSpec :=
    match durable.pending with
    | some (.question question) =>
      if question.id = questionId then .ok question else refuse shown
    | _ => refuse shown
  refuse (shown : Option FormSpec) : Except Reply FormSpec :=
    if record.status ≠ .waiting then .error (.invalid env.notWaitingForInput)
    else match shown with
      | none => .error (.invalid ("run `" ++ env.runId ++ "` has no question"))
      | some question =>
        .error (.invalid ("answer was for `" ++ questionId ++ "`, but run is waiting for `" ++
          question.id ++ "`"))

/-- `answer` up to the observation. -/
def prepareAnswer (durable : RunState) (record : Option RunRecord) (questionId : String)
    (values : Value) : Except Reply Unit :=
  match record with
  | none => .error (env.untrackedAnswer durable questionId values)
  | some record =>
    match (record.answers[questionId]? : Option Value) with
    | some existing =>
      if existing = values then .error .ok
      else .error (.conflict ("question `" ++ questionId ++
        "` was already answered with different values"))
    | none => do
      let question ← env.resolveQuestion durable record questionId
      if !env.validateFormValues question values then
        .error (.invalid "values: invalid form answer")

def differentDecision (confirmationId : String) : Reply :=
  .conflict ("confirmation `" ++ confirmationId ++ "` already has a different decision")

/-- A denial, or a decision on a run that is not in memory, looks at the journal first. -/
def durableDecision (durable : RunState) (tracked : Bool) (confirmationId : String)
    (approved : Bool) : Except Reply Unit :=
  match (durable.confirmations[confirmationId]? : Option Bool) with
  | some existing =>
    if existing ≠ approved then .error (differentDecision confirmationId)
    else if existing = false then .error .reconcile
    else if !tracked && durable.terminal.isSome then .error .ok
    else .ok ()
  | none =>
    if !tracked && durable.terminal.isSome then .error (.invalid env.notWaitingForConfirmation)
    else .ok ()

/-- `confirm` up to the observation. -/
def prepareDecision (durable : RunState) (record : Option RunRecord) (confirmationId : String)
    (approved : Bool) : Except Reply Unit := do
  if !approved || record.isNone then
    env.durableDecision durable record.isSome confirmationId approved
  match record with
  | none => .error (.notFound env.wasNotFound)
  | some record =>
    match (record.confirmations[confirmationId]? : Option Bool) with
    | some existing =>
      if existing ≠ approved then .error (differentDecision confirmationId)
      else .error (if approved then .ok else .reconcile)
    | none =>
      if record.status ≠ .confirming then .error (.invalid env.notWaitingForConfirmation)
      else match record.confirm with
        | none => .error (.invalid ("run `" ++ env.runId ++ "` has no confirmation"))
        | some confirm =>
          if confirm.id ≠ confirmationId then
            .error (.conflict ("confirmation was for `" ++ confirmationId ++
              "`, but run is waiting for `" ++ confirm.id ++ "`"))
          else .ok ()

def prepare (durable : RunState) (record : Option RunRecord) : Response → Except Reply Unit
  | .answer questionId values => env.prepareAnswer durable record questionId values
  | .decision confirmationId approved =>
    env.prepareDecision durable record confirmationId approved

end ServiceEnv

/-- Who appended a record; of a response also what its request had observed, and how long the
journal was then. -/
inductive Origin where
  | other
  | cancel
  | response (response : Response) (generation : Option Nat) (seen : Nat)

structure Entry where
  event : Value
  origin : Origin

/-- How far a request has come. -/
inductive Stage where
  | arrived
  | resolved
  | observed (generation : Option Nat) (seen : Nat)
  | replied (reply : Reply)

structure Request where
  process : Nat
  response : Response
  stage : Stage

/-- The run directory with the services that share it: the journal, the cancel mailbox, the
memory of each process and the requests that are being served. -/
structure Desk where
  journal : List Entry
  controls : List String
  records : List (Option RunRecord)
  requests : List Request

namespace Desk

variable (env : ServiceEnv)

def events (d : Desk) : List Value := d.journal.map Entry.event

def fold (d : Desk) : Except JournalError RunState := RunState.foldValues env.api d.events

def bytes (d : Desk) : Nat :=
  (d.events.map fun event => (env.codec.serialize event).length + 1).sum

def record (d : Desk) (process : Nat) : Option RunRecord := (d.records[process]?).join

def append (d : Desk) (events : List Value) (origin : Origin) : Desk :=
  { d with journal := d.journal ++ events.map fun event => ⟨event, origin⟩ }

def advance (d : Desk) (index : Nat) (request : Request) (stage : Stage) : Desk :=
  { d with requests := d.requests.set index { request with stage } }

inductive Action where
  /-- A request reaches a process. -/
  | arrive (process : Nat) (response : Response)
  /-- A request takes its next step; `auditTail` is where the observation stream ends. -/
  | proceed (index auditTail : Nat) (queuedAt : String)
  /-- The engine, or a service outside of these requests, appends a record. -/
  | write (event : Value)
  | publishCancel (operationId : String)
  | drainCancel (operationId requester : String) (auditTail : Nat)
  /-- The engine of a process reports to its memory, or the process restarts. -/
  | remember (process : Nat) (record : Option RunRecord)

def settle (d : Desk) (state : RunState) (index : Nat) (request : Request)
    (generation : Option Nat) (seen auditTail : Nat) (queuedAt : String) : Desk :=
  let result := env.appendSingleEventIf state (d.bytes env) auditTail
    (request.response.kind, .obj (request.response.payload queuedAt))
    (request.response.check (!d.controls.isEmpty) generation)
  let d := d.append result.1 (.response request.response generation seen)
  match result.2 with
  | .error error => d.advance index request (.replied (.rejected error))
  | .ok _ =>
    { d.advance index request (.replied .ok) with
      records := d.records.modify request.process (·.map (·.accept request.response)) }

def proceed (d : Desk) (state : RunState) (index : Nat) (request : Request) (auditTail : Nat)
    (queuedAt : String) : Desk :=
  match request.stage with
  | .arrived =>
    match env.prepare state (d.record request.process) request.response with
    | .error reply => d.advance index request (.replied reply)
    | .ok () => d.advance index request .resolved
  | .resolved =>
    d.advance index request (.observed (request.response.observe state) d.journal.length)
  | .observed generation seen => d.settle env state index request generation seen auditTail queuedAt
  | .replied _ => d

def checkCancel (operationId : String) (state : RunState) : Except JournalError Unit :=
  if state.confirmations.values.any (!·) then
    .error (.invalidEvent "denial conflicts with cancel mailbox; evidence retained")
  else if state.cancelOperations.contains operationId then
    .error (.preconditionFailed "cancel operation was already journaled")
  else if state.terminal.isSome then .error (.preconditionFailed "run is already terminal")
  else .ok ()

def consume (d : Desk) (operationId : String) : Desk :=
  { d with controls := d.controls.erase operationId }

/-- A control of the mailbox becomes a record; an error that is not a failed check keeps it. -/
def drainCancel (d : Desk) (state : RunState) (operationId requester : String)
    (auditTail : Nat) : Desk :=
  let result := env.appendSingleEventIf state (d.bytes env) auditTail
    (.userCancelRequested, .obj (Members.ofList [("run_id", .str env.runId),
      ("operation_id", .str operationId), ("requester", .str requester)]))
    (checkCancel operationId)
  let d := d.append result.1 .cancel
  match result.2 with
  | .error (.preconditionFailed _) => d.consume operationId
  | .error _ => d
  | .ok _ => d.consume operationId

/-- Every action sees the state that the journal folds to at its time. -/
def stepAt (d : Desk) (state : RunState) : Action → Desk
  | .arrive process response =>
    { d with requests := d.requests ++ [⟨process, response, .arrived⟩] }
  | .proceed index auditTail queuedAt =>
    match d.requests[index]? with
    | none => d
    | some request => d.proceed env state index request auditTail queuedAt
  | .write event =>
    match state.applyChecked env.api event with
    | .error _ => d
    | .ok _ => d.append [event] .other
  | .publishCancel operationId =>
    -- publication competes with an accepted denial under the journal lock
    if state.confirmations.values.any (!·) then d
    else { d with controls := d.controls ++ [operationId] }
  | .drainCancel operationId requester auditTail =>
    if operationId ∈ d.controls then d.drainCancel env state operationId requester auditTail else d
  | .remember process record => { d with records := d.records.set process record }

def step (d : Desk) (action : Action) : Desk :=
  match d.fold env with
  | .error _ => d
  | .ok state => d.stepAt env state action

def run (d : Desk) (actions : List Action) : Desk :=
  actions.foldl (step env) d

end Desk

namespace RunState

variable {api : Api} {s s' : RunState} {event : Value} {kind : EventKind}

theorem Accepted.responses (h : Accepted api s kind event s') :
    s'.responses =
      if kind = .runQueued then admitResponses s.responses event
      else s.responses.step kind event := by
  rcases kind.isRecord_or with hrecord | rfl | rfl | hidentity
  · have hqueued : kind ≠ .runQueued := by
      rintro rfl
      simp [EventKind.isRecord] at hrecord
    rw [if_neg hqueued]
    exact congrArg Facets.responses (h.record hrecord).2
  · exact congrArg Facets.responses h.forked.2
  · obtain ⟨-, -, next, -, -, hfacets⟩ := h.elapsed
    exact congrArg Facets.responses hfacets
  · obtain ⟨-, -, -, mode, -, -, hfacets⟩ := h.admitted hidentity
    rcases hidentity with rfl | rfl
    · exact congrArg Facets.responses hfacets
    · exact congrArg Facets.responses hfacets

end RunState

/-- Responses are never taken back, nor is a cancel. -/
structure Responses.Keeps (r r' : Responses) : Prop where
  answers : ∀ id : String, r.answers.contains id = true → r'.answers.contains id = true
  confirmations : ∀ id : String,
    r.confirmations.contains id = true → r'.confirmations.contains id = true
  cancel : r.cancelRequested = true → r'.cancelRequested = true

namespace Responses

variable {r r' r'' : Responses}

theorem Keeps.refl (r : Responses) : r.Keeps r :=
  ⟨fun _ h => h, fun _ h => h, fun h => h⟩

theorem Keeps.trans (h : r.Keeps r') (h' : r'.Keeps r'') : r.Keeps r'' where
  answers id hid := h'.answers id (h.answers id hid)
  confirmations id hid := h'.confirmations id (h.confirmations id hid)
  cancel hcancel := h'.cancel (h.cancel hcancel)

theorem keeps_answer (r : Responses) (event : Value) : r.Keeps (r.answer event) := by
  unfold answer
  split
  · exact ⟨fun id h => BTreeMap.contains_insert_of_contains _ _ h, fun _ h => h, fun h => h⟩
  · exact Keeps.refl r

theorem keeps_decide (r : Responses) (event : Value) : r.Keeps (r.decide event) := by
  unfold decide
  split
  · exact ⟨fun _ h => h, fun id h => BTreeMap.contains_insert_of_contains _ _ h, fun h => h⟩
  · exact Keeps.refl r

theorem keeps_step (r : Responses) (kind : EventKind) (event : Value) :
    r.Keeps (r.step kind event) := by
  cases kind
  case userAnswered => exact keeps_answer r event
  case userConfirmed => exact keeps_decide r event
  case userCancelRequested => exact ⟨fun _ h => h, fun _ h => h, fun _ => rfl⟩
  all_goals exact Keeps.refl r

theorem keeps_admitResponses (r : Responses) (event : Value) :
    r.Keeps (RunState.admitResponses r event) :=
  ⟨fun _ h => BTreeMap.contains_extend _ h, fun _ h => BTreeMap.contains_extend _ h, fun h => h⟩

end Responses

variable {events : List Value}

namespace RunState

variable {api : Api} {s s' : RunState} {event : Value}

theorem apply_keeps (h : s.apply api event = .ok s') : s.responses.Keeps s'.responses := by
  obtain ⟨kind, h⟩ := accepted_of_apply h
  rw [h.responses]
  split
  · exact Responses.keeps_admitResponses s.responses event
  · exact Responses.keeps_step s.responses kind event

theorem foldFrom_keeps (h : foldFrom api s events = .ok s') :
    s.responses.Keeps s'.responses := by
  refine Except.foldlM_induction (P := fun t => s.responses.Keeps t.responses) h
    (Responses.Keeps.refl _) ?_
  intro t event t' _ ht hevent
  exact ht.trans (apply_keeps (applyChecked_eq_ok hevent).2)

theorem cancelRequested_of_mem (h : foldFrom api s events = .ok s')
    (hmem : event ∈ events) (hkind : kindOf event = some .userCancelRequested) :
    s'.cancelRequested = true := by
  obtain ⟨front, back, rfl⟩ := append_of_mem hmem
  obtain ⟨mid, -, hback⟩ := Except.foldlM_append_eq_ok.mp h
  obtain ⟨after, hafter, hback⟩ := Except.foldlM_cons_eq_ok.mp hback
  obtain ⟨kind, haccepted⟩ := accepted_of_apply (applyChecked_eq_ok hafter).2
  have hsame := haccepted.kindOf_eq
  rw [hkind, Option.some.injEq] at hsame
  subst hsame
  apply (foldFrom_keeps hback).cancel
  exact congrArg Responses.cancelRequested haccepted.responses

end RunState

variable {response : Response}

namespace Response

variable {api : Api} {s s' : RunState} {event : Value}

theorem taken_of_keeps (response : Response) (h : s.responses.Keeps s'.responses)
    (htaken : response.taken s.toFoldState = true) : response.taken s'.toFoldState = true := by
  cases response with
  | answer questionId values => exact h.answers questionId htaken
  | decision confirmationId approved => exact h.confirmations confirmationId htaken

theorem taken_congr {r r' : Response} (h : r.key = r'.key) (s : FoldState) :
    r.taken s = r'.taken s := by
  cases r <;> cases r' <;> simp_all [key, taken, kind, idKey, id]

structure RecordedBy (response : Response) (event : Value) : Prop where
  kind_eq : kindOf event = some response.kind
  id_eq : event.getStr response.idKey = some response.id
  value_eq : event.get response.valueKey = some response.value

theorem RecordedBy.taken (hrecord : response.RecordedBy event)
    (h : s.applyChecked api event = .ok s') : response.taken s'.toFoldState = true := by
  obtain ⟨kind, haccepted⟩ := RunState.accepted_of_apply (RunState.applyChecked_eq_ok h).2
  have hkind := haccepted.kindOf_eq
  rw [hrecord.kind_eq, Option.some.injEq] at hkind
  subst hkind
  have hresponses := haccepted.responses
  have hid := hrecord.id_eq
  have hvalue := hrecord.value_eq
  cases response with
  | answer questionId values =>
    have hanswers := congrArg Responses.answers hresponses
    simp only [idKey, id, valueKey, value] at hid hvalue
    simp only [kind, reduceCtorEq, if_false, Responses.step, Responses.answer, hid, hvalue]
      at hanswers
    have hsame : s'.answers = s.answers.insert questionId values := hanswers
    simp [Response.taken, hsame]
  | decision confirmationId approved =>
    have hconfirmations := congrArg Responses.confirmations hresponses
    simp only [idKey, id, valueKey, value] at hid hvalue
    simp only [kind, reduceCtorEq, if_false, Responses.step, Responses.decide, hid, hvalue,
      Option.bind_some, Value.asBool] at hconfirmations
    have hsame : s'.confirmations = s.confirmations.insert confirmationId approved :=
      hconfirmations
    simp [Response.taken, hsame]

end Response

variable {generation : Option Nat}

namespace Response

theorem check_eq_ok {controls : Bool}
    {state : RunState} (h : response.check controls generation state = .ok ()) :
    state.terminal = none ∧ state.cancelRequested = false ∧
      response.isAsked state.settledPending = true ∧ generation.isSome = true ∧
      state.pendingSeq = generation ∧ response.taken state.toFoldState = false := by
  unfold check at h
  split_ifs at h with hterminal hcancel hasked hgeneration htaken
  rw [Bool.or_eq_true, not_or] at hcancel
  rw [Bool.or_eq_true, not_or, decide_eq_true_eq, not_not] at hgeneration
  refine ⟨?_, ?_, ?_, ?_, hgeneration.2, ?_⟩
  · simpa using hterminal
  · simpa using hcancel.1
  · simpa using hasked
  · exact Option.isSome_iff_ne_none.mpr (by simpa using hgeneration.1)
  · simpa using htaken

theorem recordedBy_stampRecord (env : Journal.AppendEnv) (response : Response) (seq : Nat)
    (queuedAt : String) :
    response.RecordedBy (env.stampRecord seq response.kind (response.payload queuedAt)) := by
  have hid : response.idKey ∉ Stamps.stampKeys := by
    cases response <;> simp [idKey, Stamps.stampKeys]
  have hvalue : response.valueKey ∉ Stamps.stampKeys := by
    cases response <;> simp [valueKey, Stamps.stampKeys]
  constructor
  · exact Journal.AppendEnv.kindOf_stampRecord seq response.kind _
  · rw [Value.getStr, Journal.AppendEnv.get_stampRecord _ _ _ hid]
    cases response <;> simp [payload, idKey, id, valueKey, Members.get_ofList, Members.get_cons]
  · rw [Journal.AppendEnv.get_stampRecord _ _ _ hvalue]
    cases response <;> simp [payload, idKey, valueKey, Members.get_ofList, Members.get_cons]

end Response

variable {seen : Nat}

namespace Desk

variable {env : ServiceEnv} {d : Desk} {state : RunState}

/-- A request that comes to its append saw the generation of its prompt at some time. -/
def Observed (env : ServiceEnv) (events : List Value) (response : Response)
    (generation : Option Nat) (seen : Nat) : Prop :=
  seen ≤ events.length ∧ ∃ state, RunState.foldValues env.api (events.take seen) = .ok state ∧
    generation = response.observe state

/-- What holds of a response where it was appended, behind the records `before`. -/
structure SettledAt (env : ServiceEnv) (before : List Value) (event : Value) (response : Response)
    (generation : Option Nat) (seen : Nat) : Prop where
  recorded : response.RecordedBy event
  observed : Observed env before response generation seen
  state : ∃ state, RunState.foldValues env.api before = .ok state ∧
    response.isAsked state.settledPending = true ∧ generation.isSome = true ∧
    state.pendingSeq = generation ∧ state.terminal = none ∧ state.cancelRequested = false ∧
    response.taken state.toFoldState = false

/-- The journal after an action: at most one record more, and a response only after its check. -/
inductive Appends (env : ServiceEnv) (d : Desk) (state : RunState) : List Entry → Prop
  | nothing : Appends env d state []
  | record (entry : Entry) (state' : RunState)
      (accepted : state.applyChecked env.api entry.event = .ok state')
      (settled : ∀ response generation seen, entry.origin = .response response generation seen →
        response.RecordedBy entry.event ∧
        (∃ controls, response.check controls generation state = .ok ()) ∧
        ∃ request ∈ d.requests, request.response = response ∧
          request.stage = .observed generation seen) :
      Appends env d state [entry]

theorem appends_single {auditTail : Nat} {kind : EventKind} {payload : Members}
    {check : RunState → Except JournalError Unit} {origin : Origin}
    (hsettled : ∀ seq, check state = .ok () → ∀ response generation seen,
      origin = .response response generation seen →
        response.RecordedBy (env.stampRecord seq kind payload) ∧
        (∃ controls, response.check controls generation state = .ok ()) ∧
        ∃ request ∈ d.requests, request.response = response ∧
          request.stage = .observed generation seen) :
    Appends env d state ((env.appendSingleEventIf state (d.bytes env) auditTail
      (kind, .obj payload) check).1.map fun event => ⟨event, origin⟩) := by
  obtain hnone | ⟨event, seq, state', hone, hcheck, rfl, haccepted⟩ :=
    @Journal.AppendEnv.appendSingleEventIf_cases env.toAppendEnv state (d.bytes env) auditTail kind
      payload check
  · rw [hnone]
    exact .nothing
  · rw [hone]
    exact Appends.record _ state' haccepted (hsettled seq hcheck)

variable {request : Request} {queuedAt : String} {auditTail : Nat}

theorem settle_journal {index : Nat} (hrequest : request ∈ d.requests)
    (hstage : request.stage = .observed generation seen) :
    ∃ new, (d.settle env state index request generation seen auditTail queuedAt).journal =
      d.journal ++ new ∧ Appends env d state new := by
  refine ⟨_, ?_, @appends_single env d state auditTail request.response.kind
    (request.response.payload queuedAt) (request.response.check (!d.controls.isEmpty) generation)
    (.response request.response generation seen) ?_⟩
  · unfold settle
    simp only
    split <;> rfl
  · rintro seq hcheck _ _ _ ⟨⟩
    exact ⟨Response.recordedBy_stampRecord _ _ seq queuedAt, ⟨_, hcheck⟩, request, hrequest, rfl,
      hstage⟩

theorem drainCancel_journal (operationId requester : String) (auditTail : Nat) :
    ∃ new, (d.drainCancel env state operationId requester auditTail).journal = d.journal ++ new ∧
      Appends env d state new := by
  refine ⟨_, ?_, @appends_single env d state auditTail .userCancelRequested
    (Members.ofList [("run_id", .str env.runId), ("operation_id", .str operationId),
      ("requester", .str requester)]) (checkCancel operationId) .cancel nofun⟩
  unfold drainCancel
  simp only
  split <;> rfl

theorem proceed_journal {index : Nat} (hrequest : request ∈ d.requests) :
    ∃ new, (d.proceed env state index request auditTail queuedAt).journal = d.journal ++ new ∧
      Appends env d state new := by
  unfold proceed
  cases hstage : request.stage with
  | arrived =>
    refine ⟨[], ?_, .nothing⟩
    simp only [append_nil]
    split <;> rfl
  | resolved => exact ⟨[], by simp [advance], .nothing⟩
  | observed generation seen => exact settle_journal hrequest hstage
  | replied reply => exact ⟨[], by simp, .nothing⟩

theorem stepAt_journal (action : Action) :
    ∃ new, (d.stepAt env state action).journal = d.journal ++ new ∧ Appends env d state new := by
  have hsame : ∃ new, d.journal = d.journal ++ new ∧ Appends env d state new :=
    ⟨[], by simp, .nothing⟩
  cases action with
  | arrive process response => exact hsame
  | remember process record => exact hsame
  | proceed index auditTail queuedAt =>
    simp only [stepAt]
    split
    · exact hsame
    · next request hrequest => exact proceed_journal (List.mem_of_getElem? hrequest)
  | write event =>
    simp only [stepAt]
    split
    · exact hsame
    · next state' haccepted =>
      refine ⟨[⟨event, .other⟩], rfl, .record _ state' haccepted ?_⟩
      intro response generation seen horigin
      cases horigin
  | publishCancel operationId =>
    simp only [stepAt]
    split <;> exact hsame
  | drainCancel operationId requester auditTail =>
    simp only [stepAt]
    split
    · exact drainCancel_journal operationId requester auditTail
    · exact hsame

theorem stepAt_observed {action : Action}
    (hrequest : request ∈ (d.stepAt env state action).requests)
    (hstage : request.stage = .observed generation seen) :
    request ∈ d.requests ∨
      seen = d.journal.length ∧ generation = request.response.observe state := by
  have hold : request ∈ d.requests → request ∈ d.requests ∨
      seen = d.journal.length ∧ generation = request.response.observe state := .inl
  -- an advanced request is not at its append, unless it has just observed
  have hadvance : ∀ (d' : Desk) (index : Nat) (old : Request) (stage : Stage),
      d'.requests = d.requests →
      (∀ generation seen, stage = .observed generation seen →
        seen = d.journal.length ∧ generation = old.response.observe state) →
      request ∈ (d'.advance index old stage).requests →
      request ∈ d.requests ∨
        seen = d.journal.length ∧ generation = request.response.observe state := by
    intro d' index old stage hrequests hnew hmem
    rw [advance, hrequests] at hmem
    rcases mem_or_eq_of_mem_set hmem with hmem | rfl
    · exact .inl hmem
    · exact .inr (hnew generation seen hstage)
  cases action with
  | arrive process response =>
    simp only [stepAt, mem_append, mem_singleton] at hrequest
    rcases hrequest with hrequest | rfl
    · exact .inl hrequest
    · cases hstage
  | remember process record => exact hold hrequest
  | proceed index auditTail queuedAt =>
    simp only [stepAt] at hrequest
    split at hrequest
    · exact hold hrequest
    · next old hold' =>
      unfold proceed at hrequest
      split at hrequest
      · split at hrequest
        · exact hadvance d index old _ rfl (by simp) hrequest
        · exact hadvance d index old _ rfl (by simp) hrequest
      · refine hadvance d index old _ rfl ?_ hrequest
        rintro generation seen ⟨⟩
        exact ⟨rfl, rfl⟩
      · next generation' seen' hold'' =>
        unfold settle at hrequest
        simp only at hrequest
        split at hrequest
        · exact hadvance _ index old _ rfl (by simp) hrequest
        · exact hadvance (d.append _ _) index old _ rfl (by simp) hrequest
      · exact hold hrequest
  | write event =>
    simp only [stepAt] at hrequest
    split at hrequest <;> exact hold hrequest
  | publishCancel operationId =>
    simp only [stepAt] at hrequest
    split at hrequest <;> exact hold hrequest
  | drainCancel operationId requester auditTail =>
    simp only [stepAt] at hrequest
    split at hrequest
    · unfold drainCancel at hrequest
      simp only at hrequest
      split at hrequest <;> exact hold hrequest
    · exact hold hrequest

end Desk

/-- The prompt that a response of these requests settles. -/
def Entry.key? (entry : Entry) : Option (EventKind × String × String) :=
  match entry.origin with
  | .response response _ _ => some response.key
  | _ => none

namespace Desk

variable {env : ServiceEnv} {d : Desk}

/-- A run directory before the first of the requests. -/
structure Opened (env : ServiceEnv) (d : Desk) : Prop where
  folds : ∃ state, d.fold env = .ok state
  others : ∀ entry ∈ d.journal, entry.key? = none
  idle : d.requests = []

structure Sound (env : ServiceEnv) (d : Desk) : Prop where
  folds : ∃ state, d.fold env = .ok state
  entries : ∀ before entry after, d.journal = before ++ entry :: after →
    ∀ response generation seen, entry.origin = .response response generation seen →
      SettledAt env (before.map Entry.event) entry.event response generation seen
  requests : ∀ request ∈ d.requests, ∀ generation seen,
    request.stage = .observed generation seen →
      Observed env d.events request.response generation seen

theorem Opened.sound (h : d.Opened env) : d.Sound env where
  folds := h.folds
  entries := by
    intro before entry after hjournal response generation seen horigin
    have hnone := h.others entry (by simp [hjournal])
    simp [Entry.key?, horigin] at hnone
  requests := by simp [h.idle]

theorem Observed.append (h : Observed env events response generation seen) (new : List Value) :
    Observed env (events ++ new) response generation seen := by
  obtain ⟨hseen, hstate⟩ := h
  refine ⟨by rw [length_append]; omega, ?_⟩
  rwa [take_append_of_le_length hseen]

variable {before : List Entry} {entry : Entry}

theorem split_concat {journal after : List Entry} {last : Entry}
    (h : journal ++ [last] = before ++ entry :: after) :
    journal = before ∧ last = entry ∧ after = [] ∨
      ∃ rest, journal = before ++ entry :: rest := by
  rcases eq_nil_or_concat after with rfl | ⟨rest, other, rfl⟩
  · obtain ⟨hjournal, hlast⟩ := append_inj' h rfl
    simp at hlast
    exact .inl ⟨hjournal, hlast, rfl⟩
  · right
    rw [concat_eq_append, ← cons_append, ← append_assoc] at h
    exact ⟨rest, (append_inj' h rfl).1⟩

theorem Sound.step (h : d.Sound env) (action : Action) : (d.step env action).Sound env := by
  obtain ⟨state, hfold⟩ := h.folds
  have hstep : d.step env action = d.stepAt env state action := by
    rw [Desk.step, hfold]
  rw [hstep]
  obtain ⟨new, hjournal, hnew⟩ := @stepAt_journal env d state action
  have hevents : (d.stepAt env state action).events = d.events ++ new.map Entry.event := by
    rw [events, hjournal, map_append]
    rfl
  have hrequests : ∀ request ∈ (d.stepAt env state action).requests, ∀ generation seen,
      request.stage = .observed generation seen →
        Observed env (d.events ++ new.map Entry.event) request.response generation seen := by
    intro request hrequest generation seen hstage
    apply Observed.append
    rcases stepAt_observed hrequest hstage with hold | ⟨rfl, rfl⟩
    · exact h.requests request hold generation seen hstage
    · refine ⟨by simp [events], state, ?_, rfl⟩
      rw [take_of_length_le (by simp [events])]
      exact hfold
  cases hnew with
  | nothing =>
    rw [append_nil] at hjournal
    rw [map_nil, append_nil] at hevents
    refine ⟨⟨state, ?_⟩, ?_, ?_⟩
    · rw [fold, hevents]
      exact hfold
    · rw [hjournal]
      exact h.entries
    · rw [hevents]
      simpa using hrequests
  | record entry state' haccepted hsettled =>
    refine ⟨⟨state', ?_⟩, ?_, by rw [hevents]; exact hrequests⟩
    · rw [fold, hevents]
      exact Except.foldlM_append_eq_ok.mpr
        ⟨state, hfold, Except.foldlM_cons_eq_ok.mpr ⟨state', haccepted, rfl⟩⟩
    · rw [hjournal]
      intro before other after hsplit response generation seen horigin
      rcases split_concat hsplit with ⟨rfl, rfl, -⟩ | ⟨rest, hrest⟩
      · obtain ⟨hrecorded, ⟨controls, hcheck⟩, request, hrequest, rfl, hstage⟩ :=
          hsettled response generation seen horigin
        obtain ⟨hterminal, hcancel, hasked, hsome, hseq, htaken⟩ := Response.check_eq_ok hcheck
        exact ⟨hrecorded, h.requests request hrequest generation seen hstage, state, hfold, hasked,
          hsome, hseq, hterminal, hcancel, htaken⟩
      · exact h.entries before other rest hrest response generation seen horigin

theorem Sound.run (h : d.Sound env) (actions : List Action) : (d.run env actions).Sound env := by
  induction actions generalizing d with
  | nil => exact h
  | cons action actions ih => exact ih (h.step action)

/-- A prompt that was settled before is not settled again. -/
theorem Sound.apart (h : d.Sound env) {after : List Entry} {earlier : Entry}
    (hsplit : d.journal = before ++ entry :: after) (hearlier : earlier ∈ before)
    {key : EventKind × String × String} (hkey : earlier.key? = some key) :
    entry.key? ≠ some key := by
  intro hsame
  obtain ⟨front, back, rfl⟩ := append_of_mem hearlier
  cases horigin : earlier.origin with
  | other => simp [Entry.key?, horigin] at hkey
  | cancel => simp [Entry.key?, horigin] at hkey
  | response first generation seen =>
  cases horigin' : entry.origin with
  | other => simp [Entry.key?, horigin'] at hsame
  | cancel => simp [Entry.key?, horigin'] at hsame
  | response second generation' seen' =>
    simp only [Entry.key?, horigin, Option.some.injEq] at hkey
    simp only [Entry.key?, horigin', Option.some.injEq] at hsame
    have hfirst := h.entries front earlier (back ++ entry :: after) (by simpa using hsplit)
      first generation seen horigin
    have hsecond := h.entries _ entry after hsplit second generation' seen' horigin'
    obtain ⟨state, hfold, -, -, -, -, -, htaken⟩ := hsecond.state
    rw [map_append, map_cons] at hfold
    obtain ⟨mid, -, hrest⟩ := Except.foldlM_append_eq_ok.mp hfold
    obtain ⟨mid', hmid', hrest⟩ := Except.foldlM_cons_eq_ok.mp hrest
    have hkept := Response.taken_of_keeps first (RunState.foldFrom_keeps hrest)
      (hfirst.recorded.taken hmid')
    rw [Response.taken_congr (hkey.trans hsame.symm), htaken] at hkept
    cases hkept

theorem Sound.nodup (h : d.Sound env) : (d.journal.filterMap Entry.key?).Nodup := by
  have hapart : ∀ journal rest, d.journal = journal ++ rest →
      (journal.filterMap Entry.key?).Nodup := by
    intro journal
    induction journal using List.reverseRecOn with
    | nil => simp
    | append_singleton journal entry ih =>
      intro rest hsplit
      rw [append_assoc, singleton_append] at hsplit
      rw [filterMap_append, nodup_append]
      refine ⟨ih _ hsplit, by cases hkey : entry.key? <;> simp [hkey], ?_⟩
      intro key hmem key' hmem'
      rintro rfl
      obtain ⟨earlier, hearlier, hkey⟩ := mem_filterMap.mp hmem
      obtain ⟨last, hlast, hkey'⟩ := mem_filterMap.mp hmem'
      cases mem_singleton.mp hlast
      exact h.apart hsplit hearlier hkey hkey'
  exact hapart d.journal [] (by simp)

/-- In every run of the services, each prompt is settled at most once by their requests. A
response is appended where its prompt is the one that waits, in the generation that its request
observed before, at a state that is not terminal, and behind no cancel request. -/
theorem responses_settle_once (hstart : d.Opened env) (actions : List Action) :
    ((d.run env actions).journal.filterMap Entry.key?).Nodup ∧
    ∀ before entry after response generation seen,
      (d.run env actions).journal = before ++ entry :: after →
      entry.origin = .response response generation seen →
      SettledAt env (before.map Entry.event) entry.event response generation seen ∧
      ∀ earlier ∈ before, kindOf earlier.event ≠ some .userCancelRequested := by
  have hsound := hstart.sound.run actions
  refine ⟨hsound.nodup, ?_⟩
  intro before entry after response generation seen hsplit horigin
  have hsettled := hsound.entries before entry after hsplit response generation seen horigin
  refine ⟨hsettled, ?_⟩
  intro earlier hearlier hkind
  obtain ⟨state, hfold, -, -, -, -, hcancel, -⟩ := hsettled.state
  have hrequested := RunState.cancelRequested_of_mem hfold (mem_map_of_mem hearlier) hkind
  rw [hcancel] at hrequested
  cases hrequested

end Desk

def plainService : ServiceEnv where
  api := .plain
  stamps := ⟨fun _ => "now", fun _ => "trace", fun _ => "span", fun _ _ => "scope"⟩
  codec := ⟨fun _ => [], fun _ => 0⟩
  limits := .unlimited
  runId := "run"
  validateFormValues _ _ := true

/-- One service that knows the run and has not seen its question. -/
def emptyDesk : Desk where
  journal := []
  controls := []
  records := [some ⟨∅, ∅, .running, none, none⟩]
  requests := []

def resumedAndAnswered : List Desk.Action :=
  [.write (journaled 1 .runQueued "run" []),
    .write (journaled 2 .runStarted "run" []),
    .write (journaled 3 .runInterrupted "run" []),
    .write (journaled 4 .runResumed "run" []),
    .write (journaled 5 .stepFinished "run" [("node", .str "a"), ("status", .str "needs_user"),
      ("question", .obj [("id", .str "q")])]),
    .arrive 0 (.answer "q" .null),
    .proceed 0 0 "now", .proceed 0 0 "now", .proceed 0 0 "now"]

theorem emptyDesk_opened : emptyDesk.Opened plainService :=
  ⟨⟨{}, rfl⟩, by simp [emptyDesk], rfl⟩

/-- The answer stands behind the record that ended the run. -/
theorem answer_after_interruption :
    ((emptyDesk.run plainService (resumedAndAnswered.take 3)).fold plainService).map
        (·.terminal) = .ok (some .interrupted) ∧
      (emptyDesk.run plainService resumedAndAnswered).journal.map
          (fun entry => (kindOf entry.event, entry.key?)) =
        [(some .runQueued, none), (some .runStarted, none), (some .runInterrupted, none),
          (some .runResumed, none), (some .stepFinished, none),
          (some .userAnswered, some (.userAnswered, "question_id", "q"))] := by
  decide +kernel

theorem responses_settle_once_resumed :
    emptyDesk.Opened plainService ∧
      ((emptyDesk.run plainService resumedAndAnswered).journal.filterMap Entry.key?).Nodup :=
  ⟨emptyDesk_opened, (Desk.responses_settle_once emptyDesk_opened resumedAndAnswered).1⟩

end Qcg
