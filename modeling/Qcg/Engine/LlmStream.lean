import Qcg.Engine.LlmReservations
import Qcg.Engine.LlmRetry
import Qcg.Library.Holdback

/-!
# Streamed LLM calls

A streamed completion publishes its text as deltas in the journal while it arrives. What could
still begin a registered secret is held back until more text or the completed response shows that
it does not. The routes of a call are tried in order, the next one only when the error of the one
before allows it.
-/

namespace Qcg

open List
open Json (Value)
open Llm (LlmError RetryDecision finishError isTerminalErrorKind)

/-- Registered secrets; the constructors leave out empty values. -/
structure SecretStore where
  values : BTreeMap String
  nonempty : ∀ value ∈ values.values, value ≠ ""

namespace SecretStore

def fromValues (values : BTreeMap String) : SecretStore where
  values := values.filter fun _ value => value ≠ ""
  nonempty value hvalue := by
    obtain ⟨name, hname⟩ := BTreeMap.mem_values.mp hvalue
    rw [BTreeMap.get_filter] at hname
    obtain ⟨_, hkept⟩ := Option.filter_eq_some_iff.mp hname
    exact of_decide_eq_true hkept

variable (store : SecretStore)

def isEmpty : Bool :=
  store.values.isEmpty

def byteLen (text : List Char) : Nat :=
  Holdback.size Char.utf8Size text

def maxValueLen : Nat :=
  ((store.values.values.map fun value => byteLen value.toList).max?).getD 0

def assertAbsent (text : List Char) : Except String Unit :=
  match store.values.toList.find? fun entry =>
      entry.2 ≠ "" && decide (entry.2.toList <:+: text) with
  | some (name, _) => .error ("secret `" ++ name ++ "` value was found in LLM context")
  | none => .ok ()

end SecretStore

namespace LlmGateway

open SecretStore (byteLen)

inductive StopReason where
  | endTurn
  | toolUse
  | maxTokens
  | modelContextWindowExceeded
  | refusal
deriving DecidableEq, Repr

inductive ChatContent where
  | text (text : String)
  | toolCall (id name : String) (args : Value)

structure ChatResponse where
  content : List ChatContent
  stop : StopReason
  providerState : Option Value

inductive ChatStreamEvent where
  | textDelta (text : List Char)
  | completed (response : ChatResponse)

/-! ### Scans -/

section Scan

variable (store : SecretStore) (node : String)

def scanText (text : List Char) : Except StepError Unit :=
  (store.assertAbsent text).mapError (.failed node)

mutual

def assertValueAbsent : Value → Except StepError Unit
  | .str value => scanText store node value.toList
  | .arr values => assertItemsAbsent values
  | .obj members => assertMembersAbsent members
  | .null | .bool _ | .num _ => .ok ()

def assertItemsAbsent : List Value → Except StepError Unit
  | [] => .ok ()
  | value :: values => do
    assertValueAbsent value
    assertItemsAbsent values

def assertMembersAbsent : Json.Members → Except StepError Unit
  | [] => .ok ()
  | (key, value) :: members => do
    scanText store node key.toList
    assertValueAbsent value
    assertMembersAbsent members

end

def scanContent : ChatContent → Except StepError Unit
  | .text text => scanText store node text.toList
  | .toolCall id name args => do
    scanText store node id.toList
    scanText store node name.toList
    assertValueAbsent store node args

def scanResponse (response : ChatResponse) : Except StepError Unit := do
  response.content.forM (scanContent store node)
  match response.providerState with
  | some state => assertValueAbsent store node state
  | none => .ok ()

end Scan

/-! ### One route -/

structure StreamAccumulator where
  index : Nat := 0
  pending : List Char := []
  publishedTail : List Char := []
  response : Option ChatResponse := none
  rejection : Option LlmError := none
  canceled : Bool := false

def StreamAccumulator.reject (acc : StreamAccumulator) (error : StepError) : StreamAccumulator :=
  { acc with
    pending := []
    publishedTail := []
    rejection := some { message := error.display, kind := .partialStream } }

structure LlmDelta where
  node : String
  provider : String
  model : String
  index : Nat
  text : List Char

/-- The answer of the journal to an event. An event that failed may still have become visible. -/
inductive Appended where
  | stored
  | failed (message : String) (visible : Bool)

abbrev Journal := List LlmDelta → LlmDelta → Appended

structure Route where
  node : String
  provider : String
  model : String

/-- The state of a streamed route with the deltas that are visible in the journal. -/
structure Observed where
  acc : StreamAccumulator := {}
  published : List LlmDelta := []

section Record

variable (store : SecretStore) (journal : Journal) (route : Route)

def publishDelta (text : List Char) (o : Observed) : Except LlmError Unit × Observed :=
  let delta : LlmDelta :=
    { node := route.node, provider := route.provider, model := route.model
      index := o.acc.index, text }
  match journal o.published delta with
  | .stored =>
    (.ok (),
      { acc := { o.acc with index := saturatingAdd o.acc.index 1 }
        published := o.published ++ [delta] })
  | .failed message visible =>
    (.error { message }, if visible then { o with published := o.published ++ [delta] } else o)

def publishThen (text : List Char) (o : Observed) (next : Observed → Observed) :
    Except LlmError Unit × Observed :=
  let sent := publishDelta journal route text o
  match sent.1 with
  | .error error => (.error error, sent.2)
  | .ok () => (.ok (), next sent.2)

/-- The last `holdback` bytes of the published text, from a character on. -/
def holdbackTail (published : List Char) (holdback : Nat) : List Char :=
  if byteLen published ≤ holdback then published
  else (Holdback.splitAt Char.utf8Size published
    (Holdback.ceilBoundary Char.utf8Size published holdback)).2

def recordTextDelta (text : List Char) (o : Observed) : Except LlmError Unit × Observed :=
  if o.acc.rejection.isSome then (.ok (), o)
  else if store.isEmpty then
    match scanText store route.node text with
    | .error error => (.error { message := error.display }, o)
    | .ok () => publishThen journal route text o id
  else
    let pending := o.acc.pending ++ text
    let holdback := store.maxValueLen - 1
    match scanText store route.node (o.acc.publishedTail ++ pending) with
    | .error error => (.ok (), { o with acc := o.acc.reject error })
    | .ok () =>
      let publishLen := Holdback.floorBoundary Char.utf8Size pending (byteLen pending - holdback)
      if publishLen = 0 then (.ok (), { o with acc := { o.acc with pending } })
      else
        let cut := Holdback.splitAt Char.utf8Size pending publishLen
        publishThen journal route cut.1 { o with acc := { o.acc with pending := cut.2 } } fun o =>
          { o with acc := { o.acc with
            publishedTail := holdbackTail (o.acc.publishedTail ++ cut.1) holdback } }

def recordCompleted (response : ChatResponse) (o : Observed) : Except LlmError Unit × Observed :=
  let settled : Observed := { o with acc := { o.acc with response := some response } }
  if o.acc.rejection.isSome || store.isEmpty || response.stop = .modelContextWindowExceeded then
    (.ok (), settled)
  else if !(scanResponse store route.node response).isOk then (.ok (), settled)
  else if o.acc.pending.isEmpty then (.ok (), settled)
  else
    match scanText store route.node (o.acc.publishedTail ++ o.acc.pending) with
    | .error error =>
      (.ok (), { o with acc := { o.acc.reject error with response := some response } })
    | .ok () =>
      publishThen journal route o.acc.pending { o with acc := { o.acc with pending := [] } }
        fun o =>
        { o with acc := { o.acc with publishedTail := [], response := some response } }

/-- The first completion settles the stream; later events do nothing. -/
def recordStreamEvent (event : ChatStreamEvent) (o : Observed) : Except LlmError Unit × Observed :=
  if o.acc.response.isSome then (.ok (), o)
  else
    match event with
    | .textDelta text => recordTextDelta store journal route text o
    | .completed response => recordCompleted store journal route response o

def observeEvent (o : Except LlmError Unit × Observed) (event : ChatStreamEvent) :
    Except LlmError Unit × Observed :=
  match o.1 with
  | .error error => (.error error, o.2)
  | .ok () => recordStreamEvent store journal route event o.2

def observe (events : List ChatStreamEvent) : Except LlmError Unit × Observed :=
  events.foldl (observeEvent store journal route) (.ok (), {})

end Record

/-- How the stream of a route ends: the call is canceled, the provider returns, or its channel is
closed. -/
inductive Ending where
  | canceled
  | finished (result : Except LlmError Unit)
  | closed

/-- What the environment does while a route is tried: the scan of the request and the price check
before it, the check of the capabilities, the decisions the router reports, the answer without a
stream (none when the call is canceled first), the events received or drained at the end, and the
record of its failure. -/
structure RouteRun where
  provider : String
  model : String
  prepared : Except StepError Unit
  capabilities : Except LlmError Unit
  reported : List RetryDecision
  answer : Option (Except LlmError ChatResponse)
  journal : Journal
  events : List ChatStreamEvent
  ending : Ending
  failureRecorded : Except StepError Unit

structure LlmRequest where
  provider : String
  model : String
  stream : Bool

def takeResponse (message : String) (o : Observed) : Except LlmError ChatResponse × Observed :=
  match o.acc.response with
  | some response => (.ok response, { o with acc := { o.acc with response := none } })
  | none => (.error { message }, o)

/-- What the end of the stream makes of the events that were recorded. -/
def endStream (ending : Ending) (o : Observed) : Except LlmError ChatResponse × Observed :=
  match ending with
  | .canceled =>
    match o.acc.response with
    | some response =>
      (.ok response, { o with acc := { o.acc with response := none, canceled := true } })
    | none => (.error { message := "LLM stream canceled", kind := .canceled }, o)
  | .finished result =>
    match o.acc.rejection, o.acc.response with
    | some _, some response =>
      let canceled := match result with
        | .error error => decide (error.kind = .canceled)
        | .ok () => false
      (.ok response, { o with acc := { o.acc with response := none, canceled } })
    | _, _ =>
      match result with
      | .error error =>
        if 0 < o.acc.index then
          (.error
            { message := "LLM stream failed after " ++ toString o.acc.index ++
                " emitted deltas; route fallback is unsafe: " ++ error.message
              kind := .partialStream }, o)
        else (.error error, o)
      | .ok () => takeResponse "LLM stream ended without a completed response" o
  | .closed => takeResponse "LLM stream channel closed before completion" o

section Routes

variable (store : SecretStore) (node : String)

def completeRoute (stream : Bool) (run : RouteRun) : Except LlmError ChatResponse × Observed :=
  if !stream then
    match run.answer with
    | none => (.error { message := "LLM call canceled", kind := .canceled }, {})
    | some answer => (answer, {})
  else
    let o := observe store run.journal ⟨node, run.provider, run.model⟩ run.events
    match o.1 with
    | .error error => (.error error, o.2)
    | .ok () => endStream run.ending o.2

/-- A fallback route is called only when it has the capabilities for the request. -/
def attemptRoute (stream : Bool) (attempt : Nat) (run : RouteRun) :
    Except LlmError ChatResponse × Observed :=
  match if attempt = 0 then .ok () else run.capabilities with
  | .ok () => completeRoute store node stream run
  | .error error => (.error error, {})

/-- The routes from `attempt` on, with the state each tried route has ended in. -/
def tryRoutes (policy : Llm.RetryPolicy) (stream : Bool) (routes : Nat) :
    Nat → List RouteRun →
      List Observed × Except StepError (Option (ChatResponse × StreamAccumulator))
  | _, [] => ([], .ok none)
  | attempt, run :: runs =>
    match run.prepared with
    | .error error => ([], .error error)
    | .ok () =>
      let tried := attemptRoute store node stream attempt run
      match tried.1 with
      | .ok response => ([tried.2], .ok (some (response, tried.2.acc)))
      | .error error =>
        let final := finishError run.reported policy (tried.2.acc.rejection.getD error) stream
        match run.failureRecorded with
        | .error error => ([tried.2], .error error)
        | .ok () =>
          if error.kind = .canceled then ([tried.2], .error .cancelled)
          else if !final.allowsNextRoute || attempt + 1 = routes then
            ([tried.2], .error (.failed node final.message))
          else
            let rest := tryRoutes policy stream routes (attempt + 1) runs
            (tried.2 :: rest.1, rest.2)

/-- What follows the routes: `settled` prices the response and journals the call, `checked` is the
price of a hosted search and the check of the budget. -/
def finishCall (settled checked : ChatResponse → Except StepError Unit) (response : ChatResponse)
    (acc : StreamAccumulator) : Except StepError ChatResponse := do
  settled response
  if acc.canceled then .error .cancelled
  else
    match acc.rejection with
    | some error => .error (.failed node error.message)
    | none =>
      if response.stop ≠ .modelContextWindowExceeded then scanResponse store node response
      checked response
      if response.stop = .modelContextWindowExceeded then .error (.providerContextExhausted node)
      else .ok response

def completeInner (policy : Llm.RetryPolicy)
    (settled checked : ChatResponse → Except StepError Unit)
    (request : LlmRequest) (runs : List RouteRun) :
    List Observed × Except StepError ChatResponse :=
  if runs.head?.all fun run => run.provider ≠ request.provider || run.model ≠ request.model then
    ([], .error (.failed node "LLM route policy does not start with the request model"))
  else
    let tried := tryRoutes store node policy request.stream runs.length 0 runs
    (tried.1, do
      match ← tried.2 with
      | none => .error (.failed node "no LLM route was available")
      | some (response, acc) => finishCall store node settled checked response acc)

end Routes

/-! ### Scans and secrets -/

end LlmGateway

variable {word : List Char}

namespace SecretStore

variable {store : SecretStore} {text : List Char}

def words (store : SecretStore) : List (List Char) :=
  store.values.values.map String.toList

theorem words_ne_nil : ∀ word ∈ store.words, word ≠ [] := by
  intro word hword
  obtain ⟨value, hvalue, rfl⟩ := mem_map.mp hword
  intro hnil
  exact store.nonempty value hvalue (String.toList_eq_nil_iff.mp hnil)

theorem byteLen_le_maxValueLen (h : word ∈ store.words) :
    byteLen word ≤ store.maxValueLen - 1 + 1 := by
  obtain ⟨value, hvalue, rfl⟩ := mem_map.mp h
  have hmem := @List.mem_map_of_mem _ _ _ _ (fun value : String => byteLen value.toList) hvalue
  rw [maxValueLen]
  cases hmax : (store.values.values.map fun value => byteLen value.toList).max? with
  | none =>
    rw [List.max?_eq_none_iff.mp hmax] at hmem
    cases hmem
  | some most =>
    have hle := (List.max?_eq_some_iff.mp hmax).2 _ hmem
    rw [Option.getD_some]
    omega

theorem words_eq_nil_of_isEmpty (h : store.isEmpty = true) : store.words = [] := by
  rw [words, Std.ExtTreeMap.isEmpty_iff.mp h]
  rfl

theorem maxValueLen_eq_zero_of_isEmpty (h : store.isEmpty = true) : store.maxValueLen = 0 := by
  rw [maxValueLen, Std.ExtTreeMap.isEmpty_iff.mp h]
  rfl

theorem assertAbsent_eq_ok :
    store.assertAbsent text = .ok () ↔ ∀ word ∈ store.words, ¬ word <:+: text := by
  have hcode : store.assertAbsent text = .ok () ↔ store.values.toList.find? (fun entry =>
      entry.2 ≠ "" && decide (entry.2.toList <:+: text)) = none := by
    rw [assertAbsent]
    cases store.values.toList.find? (fun entry =>
      entry.2 ≠ "" && decide (entry.2.toList <:+: text)) with
    | none => exact iff_of_true rfl rfl
    | some entry => exact iff_of_false nofun nofun
  rw [hcode, List.find?_eq_none]
  constructor
  · intro hnone word hword hwithin
    obtain ⟨value, hvalue, rfl⟩ := mem_map.mp hword
    obtain ⟨entry, hentry, rfl⟩ := mem_map.mp hvalue
    apply hnone entry hentry
    rw [Bool.and_eq_true, decide_eq_true_eq, decide_eq_true_eq]
    exact ⟨store.nonempty _ hvalue, hwithin⟩
  · intro hclear entry hentry hfound
    rw [Bool.and_eq_true, decide_eq_true_eq, decide_eq_true_eq] at hfound
    exact hclear _ (mem_map_of_mem (mem_map_of_mem hentry)) hfound.2

end SecretStore

namespace LlmGateway

variable {store : SecretStore} {node : String} {text : List Char}

theorem scanText_eq_ok :
    scanText store node text = .ok () ↔ ∀ word ∈ store.words, ¬ word <:+: text := by
  rw [scanText, Except.mapError_eq_ok, SecretStore.assertAbsent_eq_ok]

theorem exists_of_scanText {error : StepError} (h : scanText store node text = .error error) :
    ∃ word ∈ store.words, word <:+: text := by
  by_contra hnone
  rw [scanText_eq_ok.mpr fun word hword hwithin => hnone ⟨word, hword, hwithin⟩] at h
  cases h

/-! ### The text of a stream -/

def ChatStreamEvent.isCompleted : ChatStreamEvent → Bool
  | .textDelta _ => false
  | .completed _ => true

def streamText : List ChatStreamEvent → List Char
  | [] => []
  | .textDelta text :: events => text ++ streamText events
  | .completed _ :: _ => []

theorem streamText_append (events more : List ChatStreamEvent) :
    streamText (events ++ more) =
      if events.any (·.isCompleted) then streamText events
      else streamText events ++ streamText more := by
  induction events with
  | nil => rfl
  | cons event events ih =>
    cases event with
    | completed response => rfl
    | textDelta text =>
      rw [cons_append, streamText, ih, any_cons, streamText]
      show text ++ _ = if events.any (·.isCompleted) then _ else _
      split
      · rfl
      · rw [append_assoc]

theorem streamText_isPrefix (events more : List ChatStreamEvent) :
    streamText events <+: streamText (events ++ more) := by
  rw [streamText_append]
  split
  · exact prefix_rfl
  · exact prefix_append _ _

def Observed.publishedText (o : Observed) : List Char :=
  (o.published.map (·.text)).flatten

structure Withheld (store : SecretStore) (events : List ChatStreamEvent) (text : List Char) :
    Prop where
  arrived : text <+: streamText events
  before_secret : ∀ more before word after, word ∈ store.words →
    streamText (events ++ more) = before ++ word ++ after → text <+: before

variable {events : List ChatStreamEvent}

theorem Withheld.append (h : Withheld store events text) (more : List ChatStreamEvent) :
    Withheld store (events ++ more) text where
  arrived := h.arrived.trans (streamText_isPrefix events more)
  before_secret rest before word after hword htext :=
    h.before_secret (more ++ rest) before word after hword (by rw [← append_assoc]; exact htext)

theorem Withheld.of_held {pending : List Char}
    (h : Holdback.Held Char.utf8Size store.words (store.maxValueLen - 1) text pending)
    (htext : text ++ pending = streamText events) (hopen : events.any (·.isCompleted) = false) :
    Withheld store events text where
  arrived := htext ▸ prefix_append _ _
  before_secret more before word after hword hmore := by
    rw [streamText_append, hopen, if_neg Bool.false_ne_true, ← htext] at hmore
    exact h.prefix_of_occurrence Char.utf8Size_pos
      (fun _ hmem => SecretStore.byteLen_le_maxValueLen hmem) hword hmore

theorem Withheld.of_clear (hclear : ∀ word ∈ store.words, ¬ word <:+: streamText events)
    (harrived : text <+: streamText events) (hclosed : events.any (·.isCompleted) = true) :
    Withheld store events text where
  arrived := harrived
  before_secret more before word after hword hmore := by
    rw [streamText_append, hclosed, if_pos rfl] at hmore
    exact absurd ⟨before, after, hmore.symm⟩ (hclear word hword)

/-! ### What an event does -/

variable {journal : Journal} {route : Route} {o : Observed}

theorem publishThen_cases (journal : Journal) (route : Route) (text : List Char) (o : Observed)
    (next : Observed → Observed) :
    (∃ o', publishThen journal route text o next = (.ok (), next o') ∧
      o'.acc = { o.acc with index := saturatingAdd o.acc.index 1 } ∧
      o'.publishedText = o.publishedText ++ text) ∨
    (∃ message o', publishThen journal route text o next = (.error { message }, o') ∧
      o'.acc = o.acc ∧
      (o'.publishedText = o.publishedText ∨ o'.publishedText = o.publishedText ++ text)) := by
  simp only [publishThen, publishDelta]
  cases journal o.published ⟨route.node, route.provider, route.model, o.acc.index, text⟩ with
  | stored =>
    left
    exact ⟨_, rfl, rfl, by simp [Observed.publishedText]⟩
  | failed message visible =>
    right
    refine ⟨message, _, rfl, ?_⟩
    cases visible <;> simp [Observed.publishedText]

structure Tracks (store : SecretStore) (events : List ChatStreamEvent)
    (o : Except LlmError Unit × Observed) : Prop where
  withheld : Withheld store events o.2.publishedText
  /-- While the stream goes on, everything that has arrived is published or pending. -/
  going : o.1 = .ok () → o.2.acc.rejection = none → o.2.acc.response = none →
    events.any (·.isCompleted) = false ∧
      o.2.publishedText ++ o.2.acc.pending = streamText events ∧
      Holdback.Held Char.utf8Size store.words (store.maxValueLen - 1) o.2.publishedText
        o.2.acc.pending ∧
      o.2.acc.publishedTail <:+ o.2.publishedText
  /-- Without secrets nothing is held back. -/
  direct : store.isEmpty = true → o.2.acc.pending = [] ∧ o.2.acc.publishedTail = []
  clear : o.1 = .ok () → o.2.acc.rejection = none →
    ∀ word ∈ store.words, ¬ word <:+: streamText events
  found : o.2.acc.rejection ≠ none → ∃ word ∈ store.words, word <:+: streamText events
  closed : o.2.acc.response ≠ none → events.any (·.isCompleted) = true
  counted : o.1 = .ok () → o.2.published ≠ [] → 0 < o.2.acc.index
  terminal : ∀ error, o.1 = .error error ∨ o.2.acc.rejection = some error →
    isTerminalErrorKind error.kind = true

theorem tracks_nil : Tracks store [] (.ok (), {}) where
  withheld := Withheld.of_held (Holdback.Held.nil SecretStore.words_ne_nil) rfl rfl
  going _ _ _ := ⟨rfl, rfl, Holdback.Held.nil SecretStore.words_ne_nil, suffix_rfl⟩
  direct _ := ⟨rfl, rfl⟩
  clear _ _ word hword hwithin := SecretStore.words_ne_nil word hword (infix_nil.mp hwithin)
  found h := absurd rfl h
  closed h := absurd rfl h
  counted _ h := absurd rfl h
  terminal error h := by
    rcases h with h | h <;> cases h

theorem Tracks.append {o : Except LlmError Unit × Observed} (h : Tracks store events o)
    (event : ChatStreamEvent)
    (hover : (∃ error, o.1 = .error error) ∨ o.2.acc.rejection ≠ none ∨
      o.2.acc.response ≠ none) :
    Tracks store (events ++ [event]) o where
  withheld := h.withheld.append [event]
  going hok hnone hresponse := by
    rcases hover with ⟨error, herror⟩ | hsome | hsome
    · rw [hok] at herror
      cases herror
    · exact absurd hnone hsome
    · exact absurd hresponse hsome
  direct := h.direct
  clear hok hnone := by
    rcases hover with ⟨error, herror⟩ | hsome | hsome
    · rw [hok] at herror
      cases herror
    · exact absurd hnone hsome
    · rw [streamText_append, h.closed hsome, if_pos rfl]
      exact h.clear hok hnone
  found hsome := by
    obtain ⟨word, hword, hwithin⟩ := h.found hsome
    exact ⟨word, hword, hwithin.trans (streamText_isPrefix events [event]).isInfix⟩
  closed hsome := by
    rw [any_append, h.closed hsome]
    rfl
  counted := h.counted
  terminal := h.terminal

theorem Tracks.of_held
    (hheld : Holdback.Held Char.utf8Size store.words (store.maxValueLen - 1) o.publishedText
      o.acc.pending)
    (htext : o.publishedText ++ o.acc.pending = streamText events)
    (hopen : events.any (·.isCompleted) = false) (htail : o.acc.publishedTail <:+ o.publishedText)
    (hdirect : store.isEmpty = true → o.acc.pending = [] ∧ o.acc.publishedTail = [])
    (hnone : o.acc.rejection = none)
    (hresponse : o.acc.response = none) (hcounted : o.published ≠ [] → 0 < o.acc.index) :
    Tracks store events (.ok (), o) where
  withheld := Withheld.of_held hheld htext hopen
  going _ _ _ := ⟨hopen, htext, hheld, htail⟩
  direct := hdirect
  clear _ _ := htext ▸ hheld.clear
  found h := absurd hnone h
  closed h := absurd hresponse h
  counted _ := hcounted
  terminal error h := by
    rcases h with h | h
    · cases h
    · rw [hnone] at h
      cases h

theorem Tracks.of_error {message : String} (hwithheld : Withheld store events o.publishedText)
    (hdirect : store.isEmpty = true → o.acc.pending = [] ∧ o.acc.publishedTail = [])
    (hnone : o.acc.rejection = none)
    (hresponse : o.acc.response = none) : Tracks store events (.error { message }, o) where
  withheld := hwithheld
  going h := nomatch h
  direct := hdirect
  clear h := nomatch h
  found h := absurd hnone h
  closed h := absurd hresponse h
  counted h := nomatch h
  terminal error h := by
    rcases h with h | h
    · cases h
      rfl
    · rw [hnone] at h
      cases h

theorem Tracks.of_reject {error : StepError} (hwithheld : Withheld store events o.publishedText)
    (hfound : ∃ word ∈ store.words, word <:+: streamText events)
    (hresponse : o.acc.response ≠ none → events.any (·.isCompleted) = true)
    (hcounted : o.published ≠ [] → 0 < o.acc.index) :
    Tracks store events (.ok (), { o with acc := o.acc.reject error }) where
  withheld := hwithheld
  going _ h := nomatch h
  direct _ := ⟨rfl, rfl⟩
  clear _ h := nomatch h
  found _ := hfound
  closed := hresponse
  counted _ := hcounted
  terminal e h := by
    rcases h with h | h
    · cases h
    · cases h
      rfl

theorem holdbackTail_suffix (published : List Char) (holdback : Nat) :
    holdbackTail published holdback <:+ published := by
  rw [holdbackTail]
  split
  · exact suffix_rfl
  · exact ⟨_, Holdback.splitAt_append _ _⟩

theorem saturatingAdd_one_pos (n : Nat) : 0 < saturatingAdd n 1 := by
  rw [saturatingAdd, u64Max]
  omega

theorem Tracks.of_publishThen {out : List Char} {next : Observed → Observed}
    (hwithheld : Withheld store events o.publishedText)
    (hheld : Holdback.Held Char.utf8Size store.words (store.maxValueLen - 1)
      (o.publishedText ++ out) o.acc.pending)
    (htext : o.publishedText ++ out ++ o.acc.pending = streamText events)
    (hopen : events.any (·.isCompleted) = false)
    (hdirect : store.isEmpty = true → o.acc.pending = [] ∧ o.acc.publishedTail = [])
    (hnone : o.acc.rejection = none) (hresponse : o.acc.response = none)
    (hnext : ∀ o' : Observed, o'.acc.publishedTail = o.acc.publishedTail → ∃ tail,
      next o' = { o' with acc := { o'.acc with publishedTail := tail } } ∧
        tail <:+ o.publishedText ++ out ∧ (store.isEmpty = true → tail = [])) :
    Tracks store events (publishThen journal route out o next) := by
  rcases publishThen_cases journal route out o next with
    ⟨o', hcode, hacc, hpublished⟩ | ⟨message, o', hcode, hacc, hpublished⟩
  · obtain ⟨tail, htail, hsuffix, hempty⟩ := hnext o' (by rw [hacc])
    rw [hcode, htail]
    apply Tracks.of_held
    · show Holdback.Held _ _ _ o'.publishedText o'.acc.pending
      rw [hpublished, hacc]
      exact hheld
    · show o'.publishedText ++ o'.acc.pending = _
      rw [hpublished, hacc]
      exact htext
    · exact hopen
    · show tail <:+ o'.publishedText
      rw [hpublished]
      exact hsuffix
    · intro h
      exact ⟨by rw [hacc]; exact (hdirect h).1, hempty h⟩
    · rw [hacc]
      exact hnone
    · rw [hacc]
      exact hresponse
    · intro _
      rw [hacc]
      exact saturatingAdd_one_pos _
  · rw [hcode]
    apply Tracks.of_error
    · rcases hpublished with hsame | hvisible
      · rw [hsame]
        exact hwithheld
      · rw [hvisible]
        exact Withheld.of_held hheld htext hopen
    · rw [hacc]
      exact hdirect
    · rw [hacc]
      exact hnone
    · rw [hacc]
      exact hresponse

theorem Tracks.textDelta (h : Tracks store events (.ok (), o)) (hnone : o.acc.rejection = none)
    (hresponse : o.acc.response = none) (piece : List Char) :
    Tracks store (events ++ [.textDelta piece]) (recordTextDelta store journal route piece o) := by
  obtain ⟨hopen, htext, hheld, htail⟩ := h.going rfl hnone hresponse
  have hstream : streamText (events ++ [.textDelta piece]) =
      o.publishedText ++ (o.acc.pending ++ piece) := by
    rw [streamText_append, hopen, if_neg Bool.false_ne_true, ← htext, streamText, streamText,
      append_nil, append_assoc]
  have hopen' : (events ++ [ChatStreamEvent.textDelta piece]).any (·.isCompleted) = false := by
    rw [any_append, hopen]
    rfl
  have hwithheld := h.withheld.append [.textDelta piece]
  have hcounted := h.counted rfl
  rw [recordTextDelta, if_neg (by simp [hnone])]
  split
  · next hempty =>
    have hpending : o.acc.pending = [] := (h.direct hempty).1
    have hwords := SecretStore.words_eq_nil_of_isEmpty hempty
    have hscan : scanText store route.node piece = .ok () := by
      rw [scanText_eq_ok, hwords]
      exact fun word hword => nomatch hword
    rw [hscan]
    apply Tracks.of_publishThen hwithheld
    · rw [hpending, hwords, SecretStore.maxValueLen_eq_zero_of_isEmpty hempty]
      constructor
      · exact fun word hword => nomatch hword
      · exact .inr (by rw [append_nil]; exact Nat.le_refl _)
    · rw [hstream, hpending, append_nil, nil_append]
    · exact hopen'
    · exact h.direct
    · exact hnone
    · exact hresponse
    · intro o' hsame
      refine ⟨o'.acc.publishedTail, rfl, ?_⟩
      rw [hsame, show o.acc.publishedTail = [] from (h.direct hempty).2]
      exact ⟨nil_suffix, fun _ => rfl⟩
  · next hsecrets =>
    have hwithin : ∀ word ∈ store.words,
        word <:+: o.acc.publishedTail ++ (o.acc.pending ++ piece) ↔
          word <:+: o.publishedText ++ (o.acc.pending ++ piece) := by
      intro word hword
      exact hheld.infix_iff Char.utf8Size_pos
        (fun _ hmem => SecretStore.byteLen_le_maxValueLen hmem) htail hword piece
    simp only
    split
    · next error hscan =>
      obtain ⟨word, hword, hfound⟩ := exists_of_scanText hscan
      apply Tracks.of_reject hwithheld
      · rw [hstream]
        exact ⟨word, hword, (hwithin word hword).mp hfound⟩
      · exact fun hsome => absurd hresponse hsome
      · exact hcounted
    · next hscan =>
      have harrive := hheld.arrive fun word hword hfound =>
        scanText_eq_ok.mp hscan word hword ((hwithin word hword).mpr hfound)
      split
      · exact Tracks.of_held harrive hstream.symm hopen' htail
          (fun hempty => absurd hempty hsecrets)
          hnone hresponse hcounted
      · generalize hsplit : Holdback.splitAt Char.utf8Size (o.acc.pending ++ piece) _ = cut
        obtain ⟨hcut, hsize, -⟩ :=
          @Holdback.splitAt_floorBoundary _ _ 3 Char.utf8Size_pos Char.utf8Size_le_four _ _ _ hsplit
        apply Tracks.of_publishThen
        · exact hwithheld
        · exact harrive.publish hcut hsize Char.utf8Size_pos
        · rw [hstream, append_assoc]
          exact congrArg (o.publishedText ++ ·) hcut
        · exact hopen'
        · exact fun hempty => absurd hempty hsecrets
        · exact hnone
        · exact hresponse
        · intro o' hsame
          refine ⟨_, rfl, ?_, fun hempty => absurd hempty hsecrets⟩
          rw [hsame]
          apply (holdbackTail_suffix _ _).trans
          obtain ⟨front, hfront⟩ := htail
          exact ⟨front, by rw [← append_assoc]; exact congrArg (· ++ cut.1) hfront⟩

theorem streamText_completed (events : List ChatStreamEvent) (response : ChatResponse) :
    streamText (events ++ [.completed response]) = streamText events := by
  rw [streamText_append]
  split
  · rfl
  · exact append_nil _

theorem any_completed (events : List ChatStreamEvent) (response : ChatResponse) :
    (events ++ [ChatStreamEvent.completed response]).any (·.isCompleted) = true := by
  rw [any_append]
  exact Bool.or_true _

/-- The response is kept and the text that is held back stays unpublished. -/
theorem Tracks.settle (h : Tracks store events (.ok (), o)) (response : ChatResponse) :
    Tracks store (events ++ [.completed response])
      (.ok (), { o with acc := { o.acc with response := some response } }) where
  withheld := h.withheld.append _
  going _ _ hnone := nomatch hnone
  direct := h.direct
  clear hok hnone := by
    rw [streamText_completed]
    exact h.clear rfl hnone
  found hsome := by
    rw [streamText_completed]
    exact h.found hsome
  closed _ := any_completed events response
  counted := h.counted
  terminal := h.terminal

theorem Tracks.completed (h : Tracks store events (.ok (), o)) (hresponse : o.acc.response = none)
    (response : ChatResponse) :
    Tracks store (events ++ [.completed response])
      (recordCompleted store journal route response o) := by
  have hsettle := h.settle response
  rw [recordCompleted]
  simp only
  split
  · exact hsettle
  · next hgate =>
    rw [Bool.or_eq_true, Bool.or_eq_true, not_or, not_or] at hgate
    have hnone : o.acc.rejection = none := by
      rw [← Option.not_isSome_iff_eq_none]
      exact hgate.1.1
    obtain ⟨hopen, htext, hheld, htail⟩ := h.going rfl hnone hresponse
    split
    · exact hsettle
    · split
      · exact hsettle
      · split
        · next error hscan =>
          obtain ⟨word, hword, hfound⟩ := exists_of_scanText hscan
          apply @Tracks.of_reject store _ { o with acc := { o.acc with response := some response } }
          · exact hsettle.withheld
          · rw [streamText_completed, ← htext]
            refine ⟨word, hword, hfound.trans ?_⟩
            obtain ⟨front, hfront⟩ := htail
            rw [← hfront, append_assoc]
            exact (suffix_append front _).isInfix
          · exact fun _ => any_completed events response
          · exact h.counted rfl
        · have hclear : ∀ word ∈ store.words,
              ¬ word <:+: streamText (events ++ [ChatStreamEvent.completed response]) := by
            rw [streamText_completed]
            exact h.clear rfl hnone
          have hall : Withheld store (events ++ [.completed response])
              (o.publishedText ++ o.acc.pending) := by
            apply Withheld.of_clear hclear _ (any_completed events response)
            rw [streamText_completed, ← htext]
          rcases publishThen_cases journal route o.acc.pending
              { o with acc := { o.acc with pending := [] } }
              (fun o => { o with acc := { o.acc with
                publishedTail := [], response := some response } }) with
            ⟨o', hcode, hacc, hpublished⟩ | ⟨message, o', hcode, hacc, hpublished⟩
          · rw [hcode]
            constructor
            · show Withheld _ _ o'.publishedText
              rw [hpublished]
              exact hall
            · exact fun _ _ hnone => nomatch hnone
            · intro _
              exact ⟨by rw [hacc], rfl⟩
            · exact fun _ _ => hclear
            · intro hsome
              rw [hacc] at hsome
              exact absurd hnone hsome
            · exact fun _ => any_completed events response
            · intro _ _
              rw [hacc]
              exact saturatingAdd_one_pos _
            · intro error herror
              rw [hacc] at herror
              rcases herror with herror | herror
              · cases herror
              · rw [hnone] at herror
                cases herror
          · rw [hcode]
            apply Tracks.of_error
            · rcases hpublished with hsame | hvisible
              · rw [hsame]
                exact hsettle.withheld
              · rw [hvisible]
                exact hall
            · intro hempty
              exact absurd hempty hgate.1.2
            · rw [hacc]
              exact hnone
            · rw [hacc]
              exact hresponse

theorem Tracks.event {o : Except LlmError Unit × Observed} (h : Tracks store events o)
    (event : ChatStreamEvent) :
    Tracks store (events ++ [event]) (observeEvent store journal route o event) := by
  obtain ⟨result, o⟩ := o
  cases result with
  | error error => exact h.append event (.inl ⟨error, rfl⟩)
  | ok u =>
    simp only [observeEvent, recordStreamEvent]
    split
    · next hsome => exact h.append event (.inr (.inr (Option.isSome_iff_ne_none.mp hsome)))
    · next hsome =>
      have hresponse : o.acc.response = none := Option.not_isSome_iff_eq_none.mp hsome
      cases event with
      | completed response => exact h.completed hresponse response
      | textDelta piece =>
        by_cases hnone : o.acc.rejection = none
        · exact h.textDelta hnone hresponse piece
        · simp only
          rw [recordTextDelta, if_pos (Option.isSome_iff_ne_none.mpr hnone)]
          exact h.append _ (.inr (.inl hnone))

theorem observe_concat (events : List ChatStreamEvent) (event : ChatStreamEvent) :
    observe store journal route (events ++ [event]) =
      observeEvent store journal route (observe store journal route events) event := by
  rw [observe, foldl_append]
  rfl

theorem tracks_observe (journal : Journal) (route : Route) (events : List ChatStreamEvent) :
    Tracks store events (observe store journal route events) := by
  induction events using List.reverseRecOn with
  | nil => exact tracks_nil
  | append_singleton events event ih =>
    rw [observe_concat]
    exact ih.event event

/-! ### Rejected and completed streams -/

/-- The journal has failed or a secret was found. -/
def Rejected (o : Except LlmError Unit × Observed) : Prop :=
  o.1 ≠ .ok () ∨ o.2.acc.rejection ≠ none

theorem Rejected.event {o : Except LlmError Unit × Observed} (h : Rejected o)
    (event : ChatStreamEvent) :
    Rejected (observeEvent store journal route o event) ∧
      (observeEvent store journal route o event).2.published = o.2.published := by
  obtain ⟨result, o⟩ := o
  cases result with
  | error error => exact ⟨.inl nofun, rfl⟩
  | ok u =>
    have hsome : o.acc.rejection ≠ none := h.resolve_left fun hne => hne rfl
    have hisSome := Option.isSome_iff_ne_none.mpr hsome
    simp only [observeEvent, recordStreamEvent]
    split
    · exact ⟨.inr hsome, rfl⟩
    · cases event with
      | textDelta piece =>
        simp only
        rw [recordTextDelta, if_pos hisSome]
        exact ⟨.inr hsome, rfl⟩
      | completed response =>
        simp only
        rw [recordCompleted, hisSome]
        exact ⟨.inr hsome, rfl⟩

theorem Rejected.append (h : Rejected (observe store journal route events))
    (more : List ChatStreamEvent) :
    Rejected (observe store journal route (events ++ more)) ∧
      (observe store journal route (events ++ more)).2.published =
        (observe store journal route events).2.published := by
  induction more using List.reverseRecOn with
  | nil =>
    rw [append_nil]
    exact ⟨h, rfl⟩
  | append_singleton more event ih =>
    obtain ⟨hrejected, hpublished⟩ := ih
    rw [← append_assoc, observe_concat]
    obtain ⟨hstill, hsame⟩ := @Rejected.event store journal route _ hrejected event
    exact ⟨hstill, hsame.trans hpublished⟩

theorem rejected_of_infix (hword : word ∈ store.words) (hwithin : word <:+: streamText events) :
    Rejected (observe store journal route events) := by
  by_contra hgoing
  rw [Rejected, not_or, not_not, not_not] at hgoing
  exact (tracks_observe journal route events).clear hgoing.1 hgoing.2 word hword hwithin

/-- A journal that takes every event. -/
def Journal.Stores (journal : Journal) : Prop :=
  ∀ published delta, journal published delta = .stored

theorem Journal.Stores.publishThen (h : journal.Stores) (text : List Char) (o : Observed)
    (next : Observed → Observed) : (publishThen journal route text o next).1 = .ok () := by
  simp only [LlmGateway.publishThen, publishDelta, h o.published _]

theorem Journal.Stores.observe (h : journal.Stores) (events : List ChatStreamEvent) :
    (observe store journal route events).1 = .ok () := by
  induction events using List.reverseRecOn with
  | nil => rfl
  | append_singleton events event ih =>
    rw [observe_concat, observeEvent, ih]
    generalize (LlmGateway.observe store journal route events).2 = o
    simp only [recordStreamEvent]
    split
    · rfl
    · cases event with
      | textDelta piece =>
        simp only [recordTextDelta]
        split
        · rfl
        · split
          · next hempty =>
            rw [show scanText store route.node piece = .ok () by
              rw [scanText_eq_ok, SecretStore.words_eq_nil_of_isEmpty hempty]
              exact fun word hword => nomatch hword]
            exact h.publishThen _ _ _
          · split
            · rfl
            · split
              · rfl
              · exact h.publishThen _ _ _
      | completed response =>
        simp only [recordCompleted]
        split
        · rfl
        · split
          · rfl
          · split
            · rfl
            · split
              · rfl
              · exact h.publishThen _ _ _

/-- Events after the completion do nothing. -/
theorem observe_append_of_response (hok : (observe store journal route events).1 = .ok ())
    (hresponse : (observe store journal route events).2.acc.response ≠ none)
    (more : List ChatStreamEvent) :
    observe store journal route (events ++ more) = observe store journal route events := by
  induction more using List.reverseRecOn with
  | nil => rw [append_nil]
  | append_singleton more event ih =>
    rw [← append_assoc, observe_concat, ih, observeEvent, hok]
    simp only [recordStreamEvent]
    rw [if_pos (Option.isSome_iff_ne_none.mpr hresponse), ← hok]

variable {response : ChatResponse}

theorem recordCompleted_accepts (hstores : journal.Stores) (hnone : o.acc.rejection = none)
    (hdirect : store.isEmpty = true → o.acc.pending = [])
    (hwindow : scanText store route.node (o.acc.publishedTail ++ o.acc.pending) = .ok ())
    (hscan : scanResponse store route.node response = .ok ())
    (hstop : response.stop ≠ .modelContextWindowExceeded) :
    (recordCompleted store journal route response o).2.publishedText =
        o.publishedText ++ o.acc.pending ∧
      (recordCompleted store journal route response o).2.acc.response ≠ none := by
  have hkept : o.acc.pending = [] → o.publishedText = o.publishedText ++ o.acc.pending := by
    intro hempty
    rw [hempty, append_nil]
  have hpublish := @Journal.Stores.publishThen journal route hstores o.acc.pending
    { o with acc := { o.acc with pending := [] } }
    fun o => { o with acc := { o.acc with publishedTail := [], response := some response } }
  rw [recordCompleted]
  simp only
  split
  · next hgate =>
    have hempty : store.isEmpty = true := by
      simpa [hnone, hstop] using hgate
    exact ⟨hkept (hdirect hempty), nofun⟩
  · rw [if_neg (by rw [hscan]; exact nofun)]
    split
    · next hempty => exact ⟨hkept (List.isEmpty_iff.mp hempty), nofun⟩
    · rw [hwindow]
      rcases publishThen_cases journal route o.acc.pending
          { o with acc := { o.acc with pending := [] } }
          (fun o => { o with acc := { o.acc with
            publishedTail := [], response := some response } }) with
        ⟨o', hcode, _, hpublished⟩ | ⟨message, o', hcode, _, _⟩
      · rw [hcode]
        exact ⟨hpublished, nofun⟩
      · rw [hcode] at hpublish
        cases hpublish

theorem publishedText_of_completed (hstores : journal.Stores)
    (hopen : events.any (·.isCompleted) = false)
    (hclear : ∀ word ∈ store.words, ¬ word <:+: streamText events)
    (hscan : scanResponse store route.node response = .ok ())
    (hstop : response.stop ≠ .modelContextWindowExceeded) (more : List ChatStreamEvent) :
    (observe store journal route (events ++ .completed response :: more)).2.publishedText =
      streamText events := by
  have h := @tracks_observe store journal route events
  have hok := @Journal.Stores.observe store journal route hstores events
  have hnone : (observe store journal route events).2.acc.rejection = none := by
    by_contra hsome
    obtain ⟨word, hword, hwithin⟩ := h.found hsome
    exact hclear word hword hwithin
  have hresponse : (observe store journal route events).2.acc.response = none := by
    by_contra hsome
    rw [h.closed hsome] at hopen
    cases hopen
  obtain ⟨_, htext, _, front, hfront⟩ := h.going hok hnone hresponse
  have hwindow : scanText store route.node
      ((observe store journal route events).2.acc.publishedTail ++
        (observe store journal route events).2.acc.pending) = .ok () := by
    rw [scanText_eq_ok]
    intro word hword hwithin
    apply hclear word hword
    rw [← htext, ← hfront, append_assoc]
    exact hwithin.trans (suffix_append front _).isInfix
  obtain ⟨hpublished, hsettled⟩ := recordCompleted_accepts hstores hnone
    (fun hempty => (h.direct hempty).1) hwindow hscan hstop
  have hcompleted : observe store journal route (events ++ [.completed response]) =
      recordCompleted store journal route response (observe store journal route events).2 := by
    rw [observe_concat, observeEvent, hok]
    simp only [recordStreamEvent, hresponse]
    rfl
  rw [show events ++ .completed response :: more = events ++ [.completed response] ++ more by simp,
    observe_append_of_response (hstores.observe _) (by rw [hcompleted]; exact hsettled), hcompleted,
    hpublished, htext]

/-! ### Routes -/

theorem takeResponse_cases (message : String) (o : Observed) :
    (∃ response, takeResponse message o =
      (.ok response, { o with acc := { o.acc with response := none } })) ∨
    takeResponse message o = (.error { message }, o) := by
  rw [takeResponse]
  cases o.acc.response with
  | some response => exact .inl ⟨response, rfl⟩
  | none => exact .inr rfl

theorem endStream_cases (ending : Ending) (o : Observed) :
    (∃ response canceled, endStream ending o =
      (.ok response, { o with acc := { o.acc with response := none, canceled } })) ∨
    (∃ error, endStream ending o = (.error error, o) ∧
      (0 < o.acc.index → isTerminalErrorKind error.kind = true)) := by
  cases ending with
  | canceled =>
    simp only [endStream]
    cases o.acc.response with
    | some response => exact .inl ⟨response, true, rfl⟩
    | none => exact .inr ⟨_, rfl, fun _ => rfl⟩
  | closed =>
    rcases takeResponse_cases "LLM stream channel closed before completion" o with
      ⟨response, htaken⟩ | htaken
    · exact .inl ⟨response, o.acc.canceled, htaken⟩
    · exact .inr ⟨_, htaken, fun _ => rfl⟩
  | finished result =>
    simp only [endStream]
    split
    · exact .inl ⟨_, _, rfl⟩
    · cases result with
      | error error =>
        right
        simp only
        split
        · exact ⟨_, rfl, fun _ => rfl⟩
        · next hindex => exact ⟨_, rfl, fun hpos => absurd hpos hindex⟩
      | ok u =>
        rcases takeResponse_cases "LLM stream ended without a completed response" o with
          ⟨response, htaken⟩ | htaken
        · exact .inl ⟨response, o.acc.canceled, htaken⟩
        · exact .inr ⟨_, htaken, fun _ => rfl⟩

variable {error : LlmError}

theorem Tracks.terminal_getD {o : Except LlmError Unit × Observed} (h : Tracks store events o)
    (herror : o.2.acc.rejection = none → isTerminalErrorKind error.kind = true) :
    isTerminalErrorKind (o.2.acc.rejection.getD error).kind = true := by
  cases hrejection : o.2.acc.rejection with
  | none => exact herror hrejection
  | some rejection => exact h.terminal rejection (.inr hrejection)

theorem completeRoute_stream (store : SecretStore) (node : String) (run : RouteRun) :
    ∃ o, Tracks store run.events o ∧
      o = observe store run.journal ⟨node, run.provider, run.model⟩ run.events ∧
      ((∃ error, o.1 = .error error ∧ completeRoute store node true run = (.error error, o.2)) ∨
        (o.1 = .ok () ∧ completeRoute store node true run = endStream run.ending o.2)) := by
  refine ⟨_, tracks_observe run.journal ⟨node, run.provider, run.model⟩ run.events, rfl, ?_⟩
  simp only [completeRoute, Bool.not_true, Bool.false_eq_true, if_false]
  cases (observe store run.journal ⟨node, run.provider, run.model⟩ run.events).1 with
  | error error => exact .inl ⟨error, rfl, rfl⟩
  | ok u => exact .inr ⟨rfl, rfl⟩

variable {run : RouteRun}

theorem terminal_of_published {stream : Bool}
    (h : completeRoute store node stream run = (.error error, o)) (hpublished : o.published ≠ []) :
    isTerminalErrorKind (o.acc.rejection.getD error).kind = true := by
  cases stream with
  | false =>
    rw [completeRoute, if_pos (show (!false) = true from rfl)] at h
    split at h <;> cases h <;> exact absurd rfl hpublished
  | true =>
    obtain ⟨o', htracks, _, ⟨journalError, hfailed, hroute⟩ | ⟨hok, hroute⟩⟩ :=
      completeRoute_stream store node run
    · rw [hroute] at h
      cases h
      exact htracks.terminal_getD fun _ => htracks.terminal _ (.inl hfailed)
    · rcases endStream_cases run.ending o'.2 with
        ⟨response, canceled, hend⟩ | ⟨endError, hend, hfinal⟩
      · rw [hroute, hend] at h
        cases h
      · rw [hroute, hend] at h
        cases h
        exact htracks.terminal_getD fun _ => hfinal (htracks.counted hok hpublished)

theorem completeRoute_of_rejected
    (h : Rejected (observe store run.journal ⟨node, run.provider, run.model⟩ run.events)) :
    (∃ error o, completeRoute store node true run = (.error error, o) ∧
      isTerminalErrorKind (o.acc.rejection.getD error).kind = true) ∨
    (∃ response o, completeRoute store node true run = (.ok response, o) ∧
      o.acc.rejection ≠ none) := by
  obtain ⟨o, htracks, ho, ⟨journalError, hfailed, hroute⟩ | ⟨hok, hroute⟩⟩ :=
    completeRoute_stream store node run
  · left
    exact ⟨_, _, hroute,
      htracks.terminal_getD fun _ => htracks.terminal journalError (.inl hfailed)⟩
  · rw [← ho] at h
    have hsome : o.2.acc.rejection ≠ none := h.resolve_left fun hne => hne hok
    rcases endStream_cases run.ending o.2 with ⟨response, canceled, hend⟩ | ⟨error, hend, _⟩
    · right
      exact ⟨response, _, hroute.trans hend, hsome⟩
    · left
      exact ⟨error, _, hroute.trans hend, htracks.terminal_getD fun hnone => absurd hnone hsome⟩

variable {policy : Llm.RetryPolicy} {stream : Bool} {routes : Nat}

theorem tryRoutes_cons (run : RouteRun) (runs : List RouteRun) (attempt : Nat) :
    let tried := attemptRoute store node stream attempt run
    let result := tryRoutes store node policy stream routes attempt (run :: runs)
    (∃ error, result = ([], .error error)) ∨
      (∃ response, tried.1 = .ok response ∧
        result = ([tried.2], .ok (some (response, tried.2.acc)))) ∨
      (∃ error, result = ([tried.2], .error error)) ∨
      (∃ error, tried.1 = .error error ∧
        isTerminalErrorKind (tried.2.acc.rejection.getD error).kind = false ∧
        result = (tried.2 :: (tryRoutes store node policy stream routes (attempt + 1) runs).1,
          (tryRoutes store node policy stream routes (attempt + 1) runs).2)) := by
  intro tried result
  simp only [result, tryRoutes]
  split
  · exact .inl ⟨_, rfl⟩
  · right
    cases htried : tried.1 with
    | ok response =>
      left
      exact ⟨response, rfl, rfl⟩
    | error error =>
      right
      simp only
      split
      · exact .inl ⟨_, rfl⟩
      · split
        · exact .inl ⟨_, rfl⟩
        · split
          · exact .inl ⟨_, rfl⟩
          · next hnext =>
            right
            refine ⟨error, rfl, ?_, rfl⟩
            by_contra hfinal
            rw [Bool.not_eq_false, ← Llm.kind_finishError run.reported policy _ stream] at hfinal
            apply hnext
            rw [Llm.allowsNextRoute_of_terminal hfinal]
            rfl

variable {acc : StreamAccumulator} {attempt : Nat}

theorem attemptRoute_eq (h : attempt = 0 ∨ run.capabilities = .ok ()) :
    attemptRoute store node stream attempt run = completeRoute store node stream run := by
  have hvalid : (if attempt = 0 then .ok () else run.capabilities) = .ok () := by
    rcases h with h | h
    · exact if_pos h
    · rw [h, ite_self]
  rw [attemptRoute, hvalid]

theorem published_of_attemptRoute
    (htried : (attemptRoute store node stream attempt run).1 = .error error)
    (hkind : isTerminalErrorKind
      ((attemptRoute store node stream attempt run).2.acc.rejection.getD error).kind = false) :
    (attemptRoute store node stream attempt run).2.published = [] := by
  by_contra hpublished
  rw [attemptRoute] at htried hkind hpublished
  split at hpublished
  · next hvalid =>
    rw [hvalid] at htried hkind
    rw [terminal_of_published (Prod.ext htried rfl) hpublished] at hkind
    cases hkind
  · exact hpublished rfl

variable (runs : List RouteRun)

theorem published_of_tryRoutes (attempt : Nat) :
    ∀ o ∈ (tryRoutes store node policy stream routes attempt runs).1.dropLast,
      o.published = [] := by
  induction runs generalizing attempt with
  | nil => exact fun o ho => nomatch ho
  | cons run runs ih =>
    rcases @tryRoutes_cons store node policy stream routes run runs attempt with
      ⟨_, hresult⟩ | ⟨_, _, hresult⟩ | ⟨_, hresult⟩ | ⟨error, htried, hkind, hresult⟩
    · rw [hresult]
      exact fun o ho => nomatch ho
    · rw [hresult]
      exact fun o ho => nomatch ho
    · rw [hresult]
      exact fun o ho => nomatch ho
    · rw [hresult]
      intro o ho
      have hrest := ih (attempt + 1)
      cases hlater : (tryRoutes store node policy stream routes (attempt + 1) runs).1 with
      | nil =>
        rw [hlater] at ho
        cases ho
      | cons later tried =>
        rw [hlater] at ho hrest
        rw [dropLast_cons_cons] at ho
        rcases mem_cons.mp ho with rfl | ho
        · exact published_of_attemptRoute htried hkind
        · exact hrest o ho

theorem rejected_of_tryRoutes (attempt : Nat) {k : Nat} (hrun : runs[k]? = some run)
    (htried : k < (tryRoutes store node policy true routes attempt runs).1.length)
    (hsent : attempt + k = 0 ∨ run.capabilities = .ok ())
    (hrejected : Rejected (observe store run.journal ⟨node, run.provider, run.model⟩ run.events))
    (hresult : (tryRoutes store node policy true routes attempt runs).2 =
      .ok (some (response, acc))) :
    acc.rejection ≠ none := by
  induction runs generalizing attempt k with
  | nil => cases hrun
  | cons first runs ih =>
    have hfirst : k = 0 → attemptRoute store node true attempt first =
        completeRoute store node true run ∧ first = run := by
      rintro rfl
      cases hrun
      exact ⟨attemptRoute_eq hsent, rfl⟩
    rcases @tryRoutes_cons store node policy true routes first runs attempt with
      ⟨_, hcode⟩ | ⟨response', hok, hcode⟩ | ⟨_, hcode⟩ | ⟨error, herror, hkind, hcode⟩
    · rw [hcode] at hresult
      cases hresult
    · rw [hcode] at hresult htried
      cases hresult
      rw [(hfirst (Nat.lt_one_iff.mp htried)).1] at hok ⊢
      rcases completeRoute_of_rejected hrejected with ⟨error, o, hroute, _⟩ | ⟨_, o, hroute, hsome⟩
      · rw [hroute] at hok
        cases hok
      · rw [hroute]
        exact hsome
    · rw [hcode] at hresult
      cases hresult
    · rw [hcode] at hresult htried
      cases k with
      | zero =>
        exfalso
        rw [(hfirst rfl).1] at herror hkind
        rcases completeRoute_of_rejected hrejected with
          ⟨error', o, hroute, hfinal⟩ | ⟨_, o, hroute, _⟩
        · rw [hroute] at herror hkind
          cases herror
          rw [hfinal] at hkind
          cases hkind
        · rw [hroute] at herror
          cases herror
      | succ k =>
        apply ih (attempt + 1) hrun (Nat.lt_of_succ_lt_succ htried) _ hresult
        rcases hsent with hzero | hcapable
        · omega
        · exact .inr hcapable

theorem finishCall_of_rejection {settled checked : ChatResponse → Except StepError Unit}
    (h : acc.rejection ≠ none) :
    ∃ error, finishCall store node settled checked response acc = .error error := by
  obtain ⟨rejection, hrejection⟩ := Option.ne_none_iff_exists'.mp h
  rw [finishCall]
  cases settled response with
  | error error => exact ⟨error, rfl⟩
  | ok u =>
    cases acc.canceled with
    | true => exact ⟨_, rfl⟩
    | false =>
      rw [hrejection]
      exact ⟨_, rfl⟩

structure Guarded (store : SecretStore) : Prop where
  /-- At every moment a beginning of the text is published. -/
  published_le : ∀ journal route events more,
    (observe store journal route events).2.publishedText <+: streamText (events ++ more)
  /-- It ends before every place where a secret starts, in what has arrived or is still to come. -/
  before_secret : ∀ journal route events more before secret after, secret ∈ store.words →
    streamText (events ++ more) = before ++ secret ++ after →
      (observe store journal route events).2.publishedText <+: before
  /-- A stream is rejected when a secret has arrived as a whole. -/
  rejects : ∀ journal route events before secret, secret ∈ store.words →
    before ++ secret <+: streamText events → Rejected (observe store journal route events)
  /-- From then on nothing is published. -/
  silent : ∀ journal route events more, Rejected (observe store journal route events) →
    Rejected (observe store journal route (events ++ more)) ∧
      (observe store journal route (events ++ more)).2.published =
        (observe store journal route events).2.published
  /-- The call of a rejected stream fails. -/
  fails : ∀ node policy settled checked request runs k run, request.stream = true →
    runs[k]? = some run →
    k < (completeInner store node policy settled checked request runs).1.length →
    (k = 0 ∨ run.capabilities = .ok ()) →
    Rejected (observe store run.journal ⟨node, run.provider, run.model⟩ run.events) →
      ∃ error, (completeInner store node policy settled checked request runs).2 = .error error
  /-- A text without a secret is published as a whole, each character once. -/
  whole : ∀ journal route events response more, journal.Stores →
    events.any (·.isCompleted) = false →
    (∀ secret ∈ store.words, ¬ secret <:+: streamText events) →
    scanResponse store route.node response = .ok () →
    response.stop ≠ .modelContextWindowExceeded →
      (observe store journal route (events ++ .completed response :: more)).2.publishedText =
        streamText events
  /-- After a route that has published a delta no other is tried. -/
  last_route : ∀ node policy settled checked request runs,
    ∀ o ∈ (completeInner store node policy settled checked request runs).1.dropLast,
      o.published = []

theorem streamed_text_guarded (store : SecretStore) : Guarded store where
  published_le journal route events more :=
    ((tracks_observe journal route events).withheld.append more).arrived
  before_secret journal route events more before secret after hsecret htext :=
    (tracks_observe journal route events).withheld.before_secret more before secret after hsecret
      htext
  rejects journal route events before secret hsecret harrived :=
    rejected_of_infix hsecret ((suffix_append before secret).isInfix.trans harrived.isInfix)
  silent journal route events more hrejected := hrejected.append more
  fails node policy settled checked request runs k run hstream hrun htried hsent hrejected := by
    rw [completeInner] at htried ⊢
    split at htried
    · cases htried
    · next hfirst =>
      rw [if_neg hfirst]
      rw [hstream] at htried ⊢
      simp only at htried ⊢
      cases hresult : (tryRoutes store node policy true runs.length 0 runs).2 with
      | error error => exact ⟨error, rfl⟩
      | ok outcome =>
        cases outcome with
        | none => exact ⟨_, rfl⟩
        | some outcome =>
          obtain ⟨response, acc⟩ := outcome
          apply finishCall_of_rejection
          apply rejected_of_tryRoutes runs 0 hrun htried _ hrejected hresult
          rw [Nat.zero_add]
          exact hsent
  whole journal route events response more hstores hopen hclear hscan hstop :=
    publishedText_of_completed hstores hopen hclear hscan hstop more
  last_route node policy settled checked request runs o ho := by
    rw [completeInner] at ho
    split at ho
    · cases ho
    · exact published_of_tryRoutes runs 0 o ho

def keyStore : SecretStore :=
  SecretStore.fromValues (.ofList [("key", "abc")])

def storedRun (events : List ChatStreamEvent) : RouteRun where
  provider := "provider"
  model := "model"
  prepared := .ok ()
  capabilities := .ok ()
  reported := []
  answer := none
  journal _ _ := .stored
  events
  ending := .finished (.ok ())
  failureRecorded := .ok ()

/-- The secret `abc` arrives in two deltas: after the first only the text before it is published,
the second is rejected and the call fails. Without the second all of the text is published. -/
theorem streamed_text_guarded_split :
    let first := ChatStreamEvent.textDelta "xyab".toList
    let run := storedRun [first, .textDelta "cd".toList]
    let route : Route := ⟨"node", "provider", "model"⟩
    (observe keyStore run.journal route [first]).2.publishedText <+: "xy".toList ∧
      Rejected (observe keyStore run.journal route run.events) ∧
      (∃ error, (completeInner keyStore "node" {} (fun _ => .ok ()) (fun _ => .ok ())
        ⟨"provider", "model", true⟩ [run]).2 = .error error) ∧
      (observe keyStore run.journal route
        [first, .completed ⟨[], .endTurn, none⟩]).2.publishedText =
        "xyab".toList := by
  have hguarded := streamed_text_guarded keyStore
  have hsecret : "abc".toList ∈ keyStore.words := by decide +kernel
  have hclear : ∀ secret ∈ keyStore.words, ¬ secret <:+: streamText [.textDelta "xyab".toList] := by
    decide +kernel
  intro first run route
  have hrejected : Rejected (observe keyStore run.journal route run.events) :=
    hguarded.rejects _ _ _ "xy".toList "abc".toList hsecret ⟨"d".toList, rfl⟩
  refine ⟨?_, hrejected, ?_, ?_⟩
  · exact hguarded.before_secret _ _ [first] [.textDelta "cd".toList] "xy".toList "abc".toList
      "d".toList hsecret rfl
  · exact hguarded.fails _ _ _ _ _ [run] 0 run rfl rfl (by decide +kernel) (.inl rfl) hrejected
  · exact hguarded.whole _ route [first] _ [] (fun _ _ => rfl) rfl hclear rfl (by decide)

end LlmGateway

end Qcg
