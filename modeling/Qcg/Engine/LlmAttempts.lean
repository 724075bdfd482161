import Qcg.Engine.LlmRetry

/-!
# The attempts of a provider

The router's loops around a provider's `complete`, `decide` and `stream`. A provider is given by
what each of its attempts does, and `RetryState::wait` asks its policy after a failed one. A stream
passes through a proxy channel, so that an attempt that fails before its first event can be
repeated unseen.
-/

namespace Qcg.Llm

open List

/-- What one attempt at a stream does: the events that come out of the proxy channel, which the
consumer receives unless it has closed its end, and how the call ends. -/
structure StreamCall (Event : Type) where
  events : List Event
  ended : Option (Except LlmError Unit)

/-- A call that does not end in time ends as `none`. -/
structure Provider (Response Decision Event : Type) where
  id : String
  timeoutSeconds : Nat
  retryAttempts : Nat
  streamRetryAttempts : Nat
  retryPolicy : RetryPolicy
  complete : Nat → Option (Except LlmError Response)
  decide : Nat → Option (Except LlmError Decision)
  stream : Nat → StreamCall Event

section Loops

variable {α Event : Type}

def timedRequest (message : String) : Option (Except LlmError α) → Except LlmError α
  | some result => result
  | none => .error { message, kind := .timedOut }

structure RetryState where
  policy : RetryPolicy
  maxAttempts : Nat
  stream : Bool
  decisions : List RetryDecision := []

def RetryState.limit (retries : RetryState) : Nat :=
  if retries.stream then retries.maxAttempts + 1 else retries.maxAttempts

def RetryState.wait (retries : RetryState) (error : LlmError) (attempt : Nat) (emitted : Bool) :
    Except LlmError RetryState :=
  let decision := retries.policy.decide error attempt retries.limit retries.stream emitted
  let decisions := retries.decisions ++ (error.decisions ++ [decision])
  if decision.action ≠ .retry then .error { error with decisions }
  else .ok { retries with decisions }

variable {error : LlmError} {emitted : Bool} {attempt : Nat}

theorem retry_of_decide {policy : RetryPolicy} {limit : Nat} {stream : Bool}
    (h : (policy.decide error attempt limit stream emitted).action = .retry) :
    emitted = false ∧ isTerminalErrorKind error.kind = false ∧ attempt < limit := by
  -- whatever was asked for, the exhausted action is no retry
  have hstop : ∀ (requested asked : RetryAction) (circuit : Prop) [Decidable circuit],
      (if circuit ∧ requested = .retry then
          (if asked = .retry then .failFast else asked, some RetryGuard.circuitOpen)
        else if requested = .retry then
          (if asked = .retry then .failFast else asked, some .attemptLimit)
        else (requested, none) : RetryAction × Option RetryGuard).1 ≠ .retry := by
    intro requested asked circuit _
    split_ifs <;> simp_all
  cases hemitted : emitted with
  | true => simp [RetryPolicy.decide, hemitted] at h
  | false =>
    cases hterminal : isTerminalErrorKind error.kind with
    | true => simp [RetryPolicy.decide, hemitted, hterminal] at h
    | false =>
      refine ⟨rfl, rfl, Nat.lt_of_not_le fun hle => ?_⟩
      simp only [RetryPolicy.decide, hemitted, hterminal, hle, Bool.false_eq_true, if_false,
        and_true] at h
      exact hstop _ _ _ h

theorem RetryState.wait_eq_ok {retries next : RetryState}
    (h : retries.wait error attempt emitted = .ok next) :
    (emitted = false ∧ isTerminalErrorKind error.kind = false) ∧
      attempt < retries.limit ∧ next.limit = retries.limit := by
  rw [wait] at h
  split_ifs at h with haction
  cases h
  obtain ⟨hemitted, hterminal, hlt⟩ := retry_of_decide (not_not.mp haction)
  exact ⟨⟨hemitted, hterminal⟩, hlt, rfl⟩

structure Attempt (Event : Type) where
  events : List Event
  failure : Option LlmError

/-- The loop of `complete_with_retry_observed` and `decide_observed` over the attempts that are
left; its `unreachable!` is `none`. -/
def retryLoop (request : Nat → Except LlmError α) :
    RetryState → List Nat → List (Attempt Event) × Option (Except LlmError α)
  | _, [] => ([], none)
  | retries, attempt :: left =>
    match request attempt with
    | .ok response => ([⟨[], none⟩], some (.ok response))
    | .error error =>
      match retries.wait error attempt false with
      | .error failed => ([⟨[], some error⟩], some (.error failed))
      | .ok retries =>
        let rest := retryLoop request retries left
        (⟨[], some error⟩ :: rest.1, rest.2)

def streamLoop (call : Nat → StreamCall Event) (message : String) (retries : RetryState)
    (attempt : Nat) : List (Attempt Event) × Except LlmError Unit :=
  let made := call attempt
  match timedRequest message made.ended with
  | .ok () => ([⟨made.events, none⟩], .ok ())
  | .error error =>
    match hwait : retries.wait error attempt (!made.events.isEmpty) with
    | .error failed => ([⟨made.events, some error⟩], .error failed)
    | .ok next =>
      let rest := streamLoop call message next (attempt + 1)
      (⟨made.events, some error⟩ :: rest.1, rest.2)
termination_by retries.limit - attempt
decreasing_by
  obtain ⟨-, hlt, hlimit⟩ := RetryState.wait_eq_ok hwait
  omega

/-- The attempts of a loop: at most `bound`, and a retry only after a failure that is not final and
of which nothing has been seen. -/
structure Retried (bound : Nat) (made : List (Attempt Event)) : Prop where
  bounded : made.length ≤ bound
  retried : ∀ attempt ∈ made.dropLast, attempt.events = [] ∧
    ∃ error, attempt.failure = some error ∧ isTerminalErrorKind error.kind = false

theorem Retried.single (bound : Nat) (attempt : Attempt Event) :
    Retried (bound + 1) [attempt] where
  bounded := Nat.le_add_left 1 bound
  retried := by simp

theorem Retried.cons {bound : Nat} {made : List (Attempt Event)} (h : Retried bound made)
    (hmade : made ≠ []) {attempt : Attempt Event} {error : LlmError} (hevents : attempt.events = [])
    (hfailure : attempt.failure = some error) (hterminal : isTerminalErrorKind error.kind = false) :
    Retried (bound + 1) (attempt :: made) where
  bounded := Nat.succ_le_succ h.bounded
  retried := by
    rw [dropLast_cons_of_ne_nil hmade]
    intro other hother
    rcases mem_cons.mp hother with rfl | hother
    · exact ⟨hevents, error, hfailure, hterminal⟩
    · exact h.retried other hother

theorem Retried.emitting {bound : Nat} {made : List (Attempt Event)} (h : Retried bound made) :
    (made.filter fun attempt => !attempt.events.isEmpty).length ≤ 1 := by
  rcases eq_nil_or_concat made with rfl | ⟨front, last, rfl⟩
  · exact Nat.zero_le 1
  · have hnone : front.filter (fun attempt => !attempt.events.isEmpty) = [] := by
      rw [filter_eq_nil_iff]
      intro attempt hattempt
      obtain ⟨hevents, -⟩ := h.retried attempt (by simpa using hattempt)
      simp [hevents]
    rw [concat_eq_append, filter_append, hnone, nil_append]
    exact length_filter_le _ [last]

theorem retried_retryLoop (request : Nat → Except LlmError α) {retries : RetryState}
    {attempt count : Nat} (hcount : 0 < count) (hlimit : retries.limit + 1 = attempt + count) :
    (∃ result, (@retryLoop α Event request retries (List.range' attempt count)).2 = some result) ∧
      (retryLoop request retries (List.range' attempt count)).1 ≠ ([] : List (Attempt Event)) ∧
      Retried count (@retryLoop α Event request retries (List.range' attempt count)).1 := by
  induction count generalizing retries attempt with
  | zero => cases hcount
  | succ count ih =>
    rw [List.range'_succ, retryLoop]
    cases request attempt with
    | ok response => exact ⟨⟨_, rfl⟩, cons_ne_nil _ _, .single _ _⟩
    | error error =>
      cases hwait : retries.wait error attempt false with
      | error failed =>
        simp only [hwait]
        exact ⟨⟨_, rfl⟩, cons_ne_nil _ _, .single _ _⟩
      | ok next =>
        -- the last attempt is at the limit, so another one is left
        obtain ⟨⟨-, hterminal⟩, hlt, hnext⟩ := RetryState.wait_eq_ok hwait
        obtain ⟨hresult, hmade, hrest⟩ := @ih next (attempt + 1) (by omega) (by omega)
        simp only [hwait]
        exact ⟨hresult, cons_ne_nil _ _, hrest.cons hmade rfl rfl hterminal⟩

theorem retried_streamLoop (call : Nat → StreamCall Event) (message : String)
    (retries : RetryState) (attempt : Nat) (hlimit : attempt ≤ retries.limit) :
    (streamLoop call message retries attempt).1 ≠ [] ∧
      Retried (retries.limit - attempt + 1) (streamLoop call message retries attempt).1 := by
  fun_induction streamLoop call message retries attempt with
  | case1 retries attempt made hended => exact ⟨cons_ne_nil _ _, .single _ _⟩
  | case2 retries attempt made error hended failed hwait =>
    exact ⟨cons_ne_nil _ _, .single _ _⟩
  | case3 retries attempt made error hended next hwait rest ih =>
    obtain ⟨⟨hemitted, hterminal⟩, hlt, hnext⟩ := RetryState.wait_eq_ok hwait
    obtain ⟨hmade, hrest⟩ := ih (by omega)
    have hbound : retries.limit - attempt = next.limit - (attempt + 1) + 1 := by omega
    rw [hbound]
    refine ⟨cons_ne_nil _ _, hrest.cons hmade ?_ rfl hterminal⟩
    simpa using hemitted

end Loops

namespace Provider

variable {Response Decision Event : Type} (provider : Provider Response Decision Event)

def completeObserved : List (Attempt Event) × Option (Except LlmError Response) :=
  let maxAttempts := max provider.retryAttempts 1
  let message := "LLM provider `" ++ provider.id ++ "` timed out after " ++
    toString provider.timeoutSeconds ++ " seconds"
  retryLoop (fun attempt => timedRequest message (provider.complete attempt))
    ⟨provider.retryPolicy, maxAttempts, false, []⟩ (List.range' 1 maxAttempts)

def decideObserved : List (Attempt Event) × Option (Except LlmError Decision) :=
  let maxAttempts := max provider.retryAttempts 1
  retryLoop (fun attempt => timedRequest "decision request timed out" (provider.decide attempt))
    ⟨provider.retryPolicy, maxAttempts, false, []⟩ (List.range' 1 maxAttempts)

def streamObserved : List (Attempt Event) × Except LlmError Unit :=
  let message := "LLM provider `" ++ provider.id ++ "` stream timed out after " ++
    toString provider.timeoutSeconds ++ " seconds"
  streamLoop provider.stream message
    ⟨provider.retryPolicy, provider.streamRetryAttempts, true, []⟩ 1

/-- No loop of the router mixes two responses, exceeds its attempts or ends without an answer. -/
theorem retries_keep_responses_apart :
    (Retried (max provider.retryAttempts 1) provider.completeObserved.1 ∧
      ∃ result, provider.completeObserved.2 = some result) ∧
    (Retried (max provider.retryAttempts 1) provider.decideObserved.1 ∧
      ∃ result, provider.decideObserved.2 = some result) ∧
    Retried (provider.streamRetryAttempts + 1) provider.streamObserved.1 ∧
    (provider.streamObserved.1.filter fun attempt => !attempt.events.isEmpty).length ≤ 1 := by
  have hcount : 0 < max provider.retryAttempts 1 := by omega
  have hlimit : (⟨provider.retryPolicy, max provider.retryAttempts 1, false, []⟩ :
      RetryState).limit + 1 = 1 + max provider.retryAttempts 1 := Nat.add_comm _ 1
  obtain ⟨hcompleted, -, hcomplete⟩ := @retried_retryLoop Response Event _ _ 1 _ hcount hlimit
  obtain ⟨hdecided, -, hdecide⟩ := @retried_retryLoop Decision Event _ _ 1 _ hcount hlimit
  have hstream : Retried (provider.streamRetryAttempts + 1) provider.streamObserved.1 :=
    (retried_streamLoop provider.stream _
      ⟨provider.retryPolicy, provider.streamRetryAttempts, true, []⟩ 1 (Nat.le_add_left _ _)).2
  exact ⟨⟨hcomplete, hcompleted⟩, ⟨hdecide, hdecided⟩, hstream, hstream.emitting⟩

end Provider

end Qcg.Llm
