import Qcg.Engine.Types
import Qcg.Library.Checked
import Mathlib.Logic.Relation

/-!
# Reservations of LLM calls

Calls of a run reserve their estimated tokens and cost in a map that all tasks of the process
share, work, journal their usage and release the reservation. A chat completion releases at its
end and so not at all when it is dropped; a decision holds a guard that releases when it is
dropped. The check against the limits of the run reads the journaled usage before it locks the
map, and makes an entry for the run even when it then refuses.
-/

namespace Qcg

open List

namespace LlmGateway

structure PendingReservation where
  tokens : Nat := 0
  costMicrousd : Nat := 0
deriving DecidableEq

inductive Resource where
  | tokens
  | cost
deriving DecidableEq

def PendingReservation.get (p : PendingReservation) : Resource → Nat
  | .tokens => p.tokens
  | .cost => p.costMicrousd

def u64Max : Nat := 2 ^ 64 - 1

def saturatingAdd (a b : Nat) : Nat :=
  min (a + b) u64Max

abbrev Reservations := BTreeMap PendingReservation

def releasePending (runId : String) (reservation : PendingReservation) (map : Reservations) :
    Reservations :=
  match (map[runId]? : Option PendingReservation) with
  | none => map
  | some entry =>
    let entry : PendingReservation :=
      { tokens := entry.tokens - reservation.tokens
        costMicrousd := entry.costMicrousd - reservation.costMicrousd }
    if entry.tokens = 0 ∧ entry.costMicrousd = 0 then map.erase runId else map.insert runId entry

structure LlmCostBudget where
  maxTokens : Option Nat
  maxCostMicrousd : Option Nat
  requirePricing : Bool

structure BudgetState where
  tokensInput : Nat := 0
  tokensOutput : Nat := 0
  costMicrousd : Nat := 0
  unresolvedSearchCost : Bool := false
deriving DecidableEq

def checkLimit (resource : String) (used : Nat) (limit : Option Nat) : Except StepError Unit :=
  if limit.any (· < used) then
    .error (.budgetExceeded resource (.ofNat used) (.ofNat (limit.getD 0)))
  else .ok ()

def checkBudgetValues (budget : LlmCostBudget) (tokens cost : Nat) : Except StepError Unit := do
  checkLimit "tokens" tokens budget.maxTokens
  checkLimit "cost_microusd" cost budget.maxCostMicrousd

/-- The entry of the run is made before the check. -/
def tryReserve (budget : LlmCostBudget) (state : BudgetState) (runId : String)
    (reservation : Option PendingReservation) (map : Reservations) :
    Reservations × Except StepError Unit :=
  if budget.requirePricing && state.unresolvedSearchCost then
    (map, .error (.failed "budget" "run has unresolved hosted search cost; refusing blind spend"))
  else
    match reservation with
    | none => (map, .ok ())
    | some reservation =>
      let spentTokens := saturatingAdd state.tokensInput state.tokensOutput
      let entry := (map[runId]? : Option PendingReservation).getD {}
      let map := map.insert runId entry
      let projectedTokens :=
        saturatingAdd (saturatingAdd spentTokens entry.tokens) reservation.tokens
      let projectedCost :=
        saturatingAdd (saturatingAdd state.costMicrousd entry.costMicrousd) reservation.costMicrousd
      match checkBudgetValues budget projectedTokens projectedCost with
      | .error error => (map, .error error)
      | .ok () =>
        (map.insert runId
          { tokens := saturatingAdd entry.tokens reservation.tokens
            costMicrousd := saturatingAdd entry.costMicrousd reservation.costMicrousd }, .ok ())

def releaseReservation (runId : String) (reservation : Option PendingReservation)
    (map : Reservations) : Reservations :=
  match reservation with
  | none => map
  | some reservation => releasePending runId reservation map

/-! ### The calls of a run -/

inductive CallKind where
  | complete
  | decision
deriving DecidableEq

inductive Phase where
  | started
  | read (state : BudgetState)
  | working
  | journaled
  | ended
deriving DecidableEq

structure Call where
  kind : CallKind
  reservation : Option PendingReservation
  phase : Phase
deriving DecidableEq

structure State where
  budget : BudgetState
  reservations : Reservations
  calls : List Call

inductive Action where
  | start (kind : CallKind) (estimate : PendingReservation)
  | read (i : Nat)
  | reserve (i : Nat)
  | journal (i : Nat) (input output cost : Nat) (unresolved : Bool)
  | release (i : Nat)
  | drop (i : Nat)

/-- A completion reserves when the run has a limit, a decision always. -/
def reservationOf (budget : LlmCostBudget) (kind : CallKind) (estimate : PendingReservation) :
    Option PendingReservation :=
  match kind with
  | .complete =>
    if budget.maxTokens.isSome || budget.maxCostMicrousd.isSome then some estimate else none
  | .decision => some estimate

def BudgetState.charge (state : BudgetState) (input output cost : Nat) (unresolved : Bool) :
    BudgetState where
  tokensInput := state.tokensInput + input
  tokensOutput := state.tokensOutput + output
  costMicrousd := state.costMicrousd + cost
  unresolvedSearchCost := state.unresolvedSearchCost || unresolved

def State.set (s : State) (i : Nat) (call : Call) (phase : Phase) : State :=
  { s with calls := s.calls.set i { call with phase } }

/-- What a step of one call does; `none` where the call is not at that point. -/
def step (budget : LlmCostBudget) (runId : String) (s : State) : Action → Option State
  | .start kind estimate =>
    some { s with calls := s.calls ++ [⟨kind, reservationOf budget kind estimate, .started⟩] }
  | .read i => do
    let call ← s.calls[i]?
    match call.phase with
    | .started => some (s.set i call (.read s.budget))
    | _ => none
  | .reserve i => do
    let call ← s.calls[i]?
    match call.phase with
    | .read state =>
      let reserved := tryReserve budget state runId call.reservation s.reservations
      some ({ s with reservations := reserved.1 }.set i call
        (if reserved.2.isOk then .working else .ended))
    | _ => none
  | .journal i input output cost unresolved => do
    let call ← s.calls[i]?
    match call.phase with
    | .working =>
      some ({ s with budget := s.budget.charge input output cost unresolved }.set i call .journaled)
    | _ => none
  | .release i => do
    let call ← s.calls[i]?
    match call.phase with
    | .working | .journaled =>
      some ({ s with
        reservations := releaseReservation runId call.reservation s.reservations }.set i call
          .ended)
    | _ => none
  | .drop i => do
    let call ← s.calls[i]?
    match call.phase with
    | .working =>
      -- only a decision holds a guard
      let reservations := match call.kind with
        | .complete => s.reservations
        | .decision => releaseReservation runId call.reservation s.reservations
      some ({ s with reservations }.set i call .ended)
    | _ => none

/-- A run of the process begins with an empty map and any journal. -/
def initial (budget : BudgetState) : State :=
  { budget, reservations := ∅, calls := [] }

/-! ### What a step can do -/

variable {budget : LlmCostBudget} {runId : String} {s t : State} {a : Action}

inductive Moves (budget : LlmCostBudget) (runId : String) (s : State) : Action → State → Prop where
  | start (kind : CallKind) (estimate : PendingReservation) :
    Moves budget runId s (.start kind estimate)
      { s with calls := s.calls ++ [⟨kind, reservationOf budget kind estimate, .started⟩] }
  | read {i : Nat} {call : Call} (hcall : s.calls[i]? = some call)
    (hphase : call.phase = .started) :
    Moves budget runId s (.read i) (s.set i call (.read s.budget))
  | reserve {i : Nat} {call : Call} {state : BudgetState} (hcall : s.calls[i]? = some call)
      (hphase : call.phase = .read state) :
    Moves budget runId s (.reserve i)
      ({ s with
        reservations := (tryReserve budget state runId call.reservation s.reservations).1 }.set i
          call (if (tryReserve budget state runId call.reservation s.reservations).2.isOk then
            .working else .ended))
  | journal {i : Nat} {call : Call} (input output cost : Nat) (unresolved : Bool)
      (hcall : s.calls[i]? = some call) (hphase : call.phase = .working) :
    Moves budget runId s (.journal i input output cost unresolved)
      ({ s with budget := s.budget.charge input output cost unresolved }.set i call .journaled)
  | release {i : Nat} {call : Call} (hcall : s.calls[i]? = some call)
      (hphase : call.phase = .working ∨ call.phase = .journaled) :
    Moves budget runId s (.release i)
      ({ s with
        reservations := releaseReservation runId call.reservation s.reservations }.set i call
          .ended)
  | dropComplete {i : Nat} {call : Call} (hcall : s.calls[i]? = some call)
      (hphase : call.phase = .working) (hkind : call.kind = .complete) :
    Moves budget runId s (.drop i) (s.set i call .ended)
  | dropDecision {i : Nat} {call : Call} (hcall : s.calls[i]? = some call)
      (hphase : call.phase = .working) (hkind : call.kind = .decision) :
    Moves budget runId s (.drop i)
      ({ s with
        reservations := releaseReservation runId call.reservation s.reservations }.set i call
          .ended)

theorem moves_of_step (h : step budget runId s a = some t) : Moves budget runId s a t := by
  cases a with
  | start kind estimate =>
    cases h
    exact .start kind estimate
  | read i =>
    obtain ⟨call, hcall, h⟩ := Option.bind_eq_some_iff.mp h
    split at h
    · next hphase =>
      cases h
      exact .read hcall hphase
    · cases h
  | reserve i =>
    obtain ⟨call, hcall, h⟩ := Option.bind_eq_some_iff.mp h
    split at h
    · next hphase =>
      cases h
      exact .reserve hcall hphase
    · cases h
  | journal i input output cost unresolved =>
    obtain ⟨call, hcall, h⟩ := Option.bind_eq_some_iff.mp h
    split at h
    · next hphase =>
      cases h
      exact .journal input output cost unresolved hcall hphase
    · cases h
  | release i =>
    obtain ⟨call, hcall, h⟩ := Option.bind_eq_some_iff.mp h
    split at h
    · next hphase =>
      cases h
      exact .release hcall (.inl hphase)
    · next hphase =>
      cases h
      exact .release hcall (.inr hphase)
    · cases h
  | drop i =>
    obtain ⟨call, hcall, h⟩ := Option.bind_eq_some_iff.mp h
    split at h
    · next hphase =>
      cases h
      cases hkind : call.kind with
      | complete => exact .dropComplete hcall hphase hkind
      | decision => exact .dropDecision hcall hphase hkind
    · cases h

/-! ### What the calls hold -/

/-- A call that has reserved and not released. -/
def Call.inFlight (call : Call) : Bool :=
  call.phase = .working || call.phase = .journaled

def Call.held (call : Call) (resource : Resource) : Nat :=
  if call.inFlight then (call.reservation.getD {}).get resource else 0

def total (resource : Resource) (calls : List Call) : Nat :=
  (calls.map (·.held resource)).sum

def State.pending (s : State) (runId : String) : PendingReservation :=
  (s.reservations[runId]? : Option PendingReservation).getD {}

variable {i : Nat} {α : Type}

theorem sum_map_set {f : α → Nat} {l : List α} {x : α} (y : α) (h : l[i]? = some x) :
    ((l.set i y).map f).sum + f x = (l.map f).sum + f y := by
  induction l generalizing i with
  | nil => cases h
  | cons z l ih =>
    cases i with
    | zero =>
      cases h
      simp only [set_cons_zero, map_cons, sum_cons]
      omega
    | succ i =>
      have hrest := ih h
      simp only [set_cons_succ, map_cons, sum_cons]
      omega

theorem total_set {resource : Resource} {calls : List Call} {i : Nat} {call : Call} (call' : Call)
    (h : calls[i]? = some call) :
    total resource (calls.set i call') + call.held resource =
      total resource calls + call'.held resource :=
  sum_map_set call' h

variable {call : Call} {resource : Resource}

theorem held_le_total {calls : List Call} (h : call ∈ calls) :
    call.held resource ≤ total resource calls := by
  obtain ⟨front, back, rfl⟩ := append_of_mem h
  rw [total, map_append, sum_append, map_cons, sum_cons]
  omega

theorem exists_held {resource : Resource} {calls : List Call} (h : total resource calls ≠ 0) :
    ∃ call ∈ calls, call.inFlight = true ∧ call.reservation.isSome = true := by
  induction calls with
  | nil => exact absurd rfl h
  | cons call calls ih =>
    by_cases hrest : total resource calls = 0
    · have hheld : call.held resource ≠ 0 := by
        intro hzero
        apply h
        rw [total, map_cons, sum_cons, hzero, Nat.zero_add]
        exact hrest
      refine ⟨call, mem_cons_self, ?_⟩
      rw [Call.held] at hheld
      split at hheld
      · next hflight =>
        refine ⟨hflight, ?_⟩
        cases hreservation : call.reservation with
        | none => cases resource <;> simp [hreservation, PendingReservation.get] at hheld
        | some reservation => rfl
      · exact absurd rfl hheld
    · obtain ⟨other, hother, hflight⟩ := ih hrest
      exact ⟨other, mem_cons_of_mem _ hother, hflight⟩

/-! ### What the map has -/

theorem pending_release (reservation : PendingReservation) (map : Reservations)
    (resource : Resource) :
    (((releasePending runId reservation map)[runId]? : Option PendingReservation).getD {}).get
        resource =
      ((map[runId]? : Option PendingReservation).getD {}).get resource -
        reservation.get resource := by
  rw [releasePending]
  cases hentry : (map[runId]? : Option PendingReservation) with
  | none =>
    rw [hentry]
    cases resource <;> simp [PendingReservation.get]
  | some entry =>
    simp only
    split
    · next hzero =>
      rw [BTreeMap.get_erase, if_pos rfl]
      cases resource
      · exact hzero.1.symm
      · exact hzero.2.symm
    · rw [BTreeMap.get_insert, if_pos rfl]
      cases resource <;> rfl

variable {reservation : PendingReservation} {reservations map : Reservations} {phase : Phase}

theorem exists_of_release
    (h : ((releasePending runId reservation map)[runId]? : Option PendingReservation).isSome) :
    ∃ resource, (((releasePending runId reservation map)[runId]? :
      Option PendingReservation).getD {}).get resource ≠ 0 := by
  rw [releasePending] at h ⊢
  cases hentry : (map[runId]? : Option PendingReservation) with
  | none => simp [hentry] at h
  | some entry =>
    simp only [hentry] at h ⊢
    split at h
    · rw [BTreeMap.get_erase, if_pos rfl] at h
      cases h
    · next hzero =>
      rw [if_neg hzero, BTreeMap.get_insert, if_pos rfl]
      by_cases htokens : entry.tokens - reservation.tokens = 0
      · exact ⟨.cost, fun hcost => hzero ⟨htokens, hcost⟩⟩
      · exact ⟨.tokens, htokens⟩

def BudgetState.spent (state : BudgetState) : Resource → Nat
  | .tokens => saturatingAdd state.tokensInput state.tokensOutput
  | .cost => state.costMicrousd

def LlmCostBudget.limit (budget : LlmCostBudget) : Resource → Option Nat
  | .tokens => budget.maxTokens
  | .cost => budget.maxCostMicrousd

theorem checkBudgetValues_eq_ok {tokens cost : Nat} :
    checkBudgetValues budget tokens cost = .ok () ↔
      budget.maxTokens.all (tokens ≤ ·) = true ∧ budget.maxCostMicrousd.all (cost ≤ ·) = true := by
  have hlimit : ∀ (resource : String) (used : Nat) (limit : Option Nat),
      checkLimit resource used limit = .ok () ↔ limit.all (used ≤ ·) = true := by
    rintro resource used (_ | limit)
    · simp [checkLimit]
    · by_cases h : limit < used
      · simp [checkLimit, h]
      · simp [checkLimit, h, Nat.not_lt.mp h]
  rw [checkBudgetValues, Except.unit_bind_eq_ok, hlimit, hlimit]

theorem tryReserve_cases (state : BudgetState) (reservation : PendingReservation)
    (map : Reservations) :
    let entry := (map[runId]? : Option PendingReservation).getD {}
    let reserved := tryReserve budget state runId (some reservation) map
    (reserved.1 = map ∧ reserved.2.isOk = false ∧
        (budget.requirePricing && state.unresolvedSearchCost) = true) ∨
      (reserved.1 = map.insert runId entry ∧ reserved.2.isOk = false ∧
        (budget.requirePricing && state.unresolvedSearchCost) = false) ∨
      (reserved.1[runId]? = some
          ⟨saturatingAdd entry.tokens reservation.tokens,
            saturatingAdd entry.costMicrousd reservation.costMicrousd⟩ ∧
        reserved.2.isOk = true ∧
        ∀ resource, (budget.limit resource).all (saturatingAdd (saturatingAdd
          (state.spent resource) (entry.get resource)) (reservation.get resource) ≤ ·) = true) := by
  intro entry reserved
  cases hsearch : budget.requirePricing && state.unresolvedSearchCost with
  | true =>
    left
    simp [reserved, tryReserve, hsearch, Except.isOk, Except.toBool]
  | false =>
    right
    have hcode : reserved = match checkBudgetValues budget
        (saturatingAdd (saturatingAdd (state.spent .tokens) entry.tokens) reservation.tokens)
        (saturatingAdd (saturatingAdd (state.spent .cost) entry.costMicrousd)
          reservation.costMicrousd) with
      | .error error => (map.insert runId entry, .error error)
      | .ok () => ((map.insert runId entry).insert runId
          ⟨saturatingAdd entry.tokens reservation.tokens,
            saturatingAdd entry.costMicrousd reservation.costMicrousd⟩, .ok ()) := by
      simp only [reserved, tryReserve, hsearch]
      rfl
    split at hcode
    · left
      rw [hcode]
      exact ⟨rfl, rfl, rfl⟩
    · next hcheck =>
      right
      obtain ⟨htokens, hcost⟩ := checkBudgetValues_eq_ok.mp hcheck
      rw [hcode]
      refine ⟨by rw [BTreeMap.get_insert, if_pos rfl], rfl, fun resource => ?_⟩
      cases resource with
      | tokens => exact htokens
      | cost => exact hcost

/-! ### Reservations are kept -/

structure Kept (runId : String) (s : State) : Prop where
  sums : ∀ resource, (s.pending runId).get resource = total resource s.calls
  entry : (s.reservations[runId]? : Option PendingReservation).isSome = true →
    ∃ call ∈ s.calls, call.inFlight = true ∧ call.reservation.isSome = true

/-- A step after which the reservations still agree with the calls: no completion with a
reservation is dropped, nothing is refused by the budget while no call holds a reservation, and
no sum passes the largest number. -/
def Settles (budget : LlmCostBudget) (runId : String) (s : State) : Action → Prop
  | .reserve i => ∀ call state reservation, s.calls[i]? = some call → call.phase = .read state →
      call.reservation = some reservation →
      if (tryReserve budget state runId call.reservation s.reservations).2.isOk then
        ∀ resource, (s.pending runId).get resource + reservation.get resource ≤ u64Max
      else (budget.requirePricing && state.unresolvedSearchCost) = true ∨
        ∃ call ∈ s.calls, call.inFlight = true ∧ call.reservation.isSome = true
  | .drop i => ∀ call, s.calls[i]? = some call → call.kind = .decision ∨ call.reservation = none
  | _ => True

theorem exists_set {P : α → Prop} {l : List α} {x y : α} (hx : l[i]? = some x) (h : ∃ z ∈ l, P z)
    (hP : P x → P y) : ∃ z ∈ l.set i y, P z := by
  obtain ⟨z, hz, hPz⟩ := h
  obtain ⟨j, hj⟩ := List.mem_iff_getElem?.mp hz
  by_cases hij : i = j
  · subst hij
    rw [hj] at hx
    cases hx
    have hlt : i < l.length := (List.getElem?_eq_some_iff.mp hj).1
    exact ⟨y, List.mem_iff_getElem?.mpr ⟨i, by simp [hlt]⟩, hP hPz⟩
  · exact ⟨z, List.mem_iff_getElem?.mpr ⟨j, by simp [hij, hj]⟩, hPz⟩

/-- A step of one call that changes the map by as much as the call holds more or less. -/
theorem Kept.change {call' : Call} (h : Kept runId s) (hcall : s.calls[i]? = some call)
    (hsums : ∀ resource, ((reservations[runId]? : Option PendingReservation).getD {}).get resource +
      call.held resource = (s.pending runId).get resource + call'.held resource)
    (hentry : (reservations[runId]? : Option PendingReservation).isSome = true →
      ∃ call ∈ s.calls.set i call', call.inFlight = true ∧ call.reservation.isSome = true) :
    Kept runId { s with reservations, calls := s.calls.set i call' } where
  sums resource := by
    have hchange := hsums resource
    have htotal := @total_set resource s.calls i call call' hcall
    rw [h.sums resource] at hchange
    show ((reservations[runId]? : Option PendingReservation).getD {}).get resource = _
    simp only
    omega
  entry := hentry

/-- A step that leaves the map alone and the call as much in flight as it was. -/
theorem Kept.set (h : Kept runId s) (hcall : s.calls[i]? = some call)
    (hflight : ({ call with phase } : Call).inFlight = call.inFlight) :
    Kept runId (s.set i call phase) := by
  apply h.change hcall
  · intro resource
    rw [Call.held, Call.held, hflight]
    rfl
  · intro hentry
    apply exists_set hcall (h.entry hentry)
    rintro ⟨hbefore, hsome⟩
    exact ⟨hflight.trans hbefore, hsome⟩

theorem Kept.set_of_none (h : Kept runId s) (hcall : s.calls[i]? = some call)
    (hnone : call.reservation = none) :
    Kept runId (s.set i call phase) := by
  have hheld : ∀ (phase : Phase) (resource : Resource),
      ({ call with phase } : Call).held resource = 0 := by
    intro phase resource
    rw [Call.held, hnone]
    cases resource <;> simp [PendingReservation.get]
  apply h.change hcall
  · intro resource
    rw [hheld phase resource, show call.held resource = 0 from hheld call.phase resource]
    rfl
  · intro hentry
    apply exists_set hcall (h.entry hentry)
    rintro ⟨_, hsome⟩
    rw [hnone] at hsome
    cases hsome

theorem Kept.release (h : Kept runId s) (hcall : s.calls[i]? = some call)
    (hflight : call.inFlight = true) :
    Kept runId ({ s with
      reservations := releaseReservation runId call.reservation s.reservations }.set i call
        .ended) := by
  cases hreservation : call.reservation with
  | none => exact h.set_of_none hcall hreservation
  | some reservation =>
    have hheld : ∀ resource, call.held resource = reservation.get resource := by
      intro resource
      rw [Call.held, if_pos hflight, hreservation, Option.getD_some]
    have hsums : ∀ resource, (((releasePending runId reservation s.reservations)[runId]? :
        Option PendingReservation).getD {}).get resource + call.held resource =
          (s.pending runId).get resource := by
      intro resource
      have hle : call.held resource ≤ total resource s.calls :=
        held_le_total (List.mem_of_getElem? hcall)
      rw [← h.sums resource, hheld resource] at hle
      rw [pending_release, hheld resource]
      exact Nat.sub_add_cancel hle
    apply h.change hcall hsums
    intro hentry
    -- what is left in the entry is held by another call
    obtain ⟨resource, hne⟩ := exists_of_release hentry
    apply @exists_held resource
    have htotal := @total_set resource s.calls i call { call with phase := .ended } hcall
    have hleft := hsums resource
    rw [h.sums resource] at hleft
    rw [show ({ call with phase := .ended } : Call).held resource = 0 from rfl] at htotal
    omega

theorem Kept.start (h : Kept runId s) (kind : CallKind) (reservation : Option PendingReservation) :
    Kept runId { s with calls := s.calls ++ [⟨kind, reservation, .started⟩] } where
  sums resource := by
    rw [show State.pending { s with calls := s.calls ++ [⟨kind, reservation, .started⟩] } runId =
      s.pending runId from rfl, h.sums resource]
    simp [total, Call.held, Call.inFlight]
  entry hentry := by
    obtain ⟨call, hcall, hholds⟩ := h.entry hentry
    exact ⟨call, mem_append_left _ hcall, hholds⟩

theorem Kept.reserve {i : Nat} {call : Call} {state : BudgetState} (h : Kept runId s)
    (hsettles : Settles budget runId s (.reserve i)) (hcall : s.calls[i]? = some call)
    (hphase : call.phase = .read state) :
    Kept runId ({ s with
      reservations := (tryReserve budget state runId call.reservation s.reservations).1 }.set i
        call (if (tryReserve budget state runId call.reservation s.reservations).2.isOk then
          .working else .ended)) := by
  have hflight : call.inFlight = false := by
    simp [Call.inFlight, hphase]
  have hheld : ∀ resource, call.held resource = 0 := by
    intro resource
    simp [Call.held, hflight]
  cases hreservation : call.reservation with
  | none =>
    have hmap : (tryReserve budget state runId none s.reservations).1 = s.reservations := by
      rw [tryReserve]
      split <;> rfl
    rw [hmap]
    exact h.set_of_none hcall hreservation
  | some reservation =>
    have hstep := hsettles call state reservation hcall hphase hreservation
    rw [hreservation] at hstep
    rcases @tryReserve_cases budget runId state reservation s.reservations with
      ⟨hmap, hresult, _⟩ | ⟨hmap, hresult, hpriced⟩ | ⟨hentry, hresult, _⟩
    · -- refused before the map is locked
      rw [hmap, hresult]
      exact h.set hcall (by simp [Call.inFlight, hphase])
    · -- refused after the entry was made
      rw [hresult] at hstep
      rw [hmap, hresult]
      apply h.change hcall
      · intro resource
        rw [BTreeMap.get_insert, if_pos rfl, hheld resource]
        rfl
      · intro _
        rw [if_neg Bool.false_ne_true, hpriced] at hstep
        apply exists_set hcall (hstep.resolve_left Bool.false_ne_true)
        rintro ⟨hbefore, _⟩
        rw [hflight] at hbefore
        cases hbefore
    · rw [hresult, if_pos rfl] at hstep
      rw [hresult, if_pos rfl]
      apply h.change hcall
      · intro resource
        rw [hentry, hheld resource,
          show ({ call with phase := .working } : Call).held resource = reservation.get resource by
            rw [Call.held, hreservation]; rfl]
        have hfits := hstep resource
        cases resource
        · exact Nat.min_eq_left hfits
        · exact Nat.min_eq_left hfits
      · intro _
        refine ⟨{ call with phase := .working }, ?_, rfl, by rw [hreservation]; rfl⟩
        exact mem_set (List.getElem?_eq_some_iff.mp hcall).1 _

theorem Kept.step (h : Kept runId s) (hsettles : Settles budget runId s a)
    (hstep : LlmGateway.step budget runId s a = some t) : Kept runId t := by
  cases moves_of_step hstep with
  | start kind estimate => exact h.start kind _
  | read hcall hphase => exact h.set hcall (by simp [Call.inFlight, hphase])
  | reserve hcall hphase => exact h.reserve hsettles hcall hphase
  | journal input output cost unresolved hcall hphase =>
    have hbudget : Kept runId { s with budget := s.budget.charge input output cost unresolved } :=
      ⟨h.sums, h.entry⟩
    exact hbudget.set hcall (by simp [Call.inFlight, hphase])
  | release hcall hphase => exact h.release hcall (by simp [Call.inFlight, hphase])
  | dropComplete hcall hphase hkind =>
    cases hsettles _ hcall with
    | inl hdecision => rw [hkind] at hdecision; cases hdecision
    | inr hnone => exact h.set_of_none hcall hnone
  | dropDecision hcall hphase hkind => exact h.release hcall (by simp [Call.inFlight, hphase])

theorem kept_initial (state : BudgetState) : Kept runId (initial state) where
  sums resource := by
    cases resource <;> rfl
  entry hentry := by
    rw [show (initial state).reservations = ∅ from rfl] at hentry
    simp at hentry

/-- The map of the run agrees with the calls in flight, and without one it has no entry. -/
structure NoLeak (runId : String) (s : State) : Prop where
  pending_eq : ∀ resource, (s.pending runId).get resource = total resource s.calls
  entry_eq_none : (∀ call ∈ s.calls, call.inFlight = false) →
    (s.reservations[runId]? : Option PendingReservation) = none

theorem Kept.noLeak (h : Kept runId s) : NoLeak runId s where
  pending_eq := h.sums
  entry_eq_none hended := by
    by_contra hentry
    obtain ⟨call, hcall, hflight, _⟩ := h.entry (Option.isSome_iff_ne_none.mpr hentry)
    rw [hended call hcall] at hflight
    cases hflight

/-- In every run whose steps settle nothing of the calls leaks. -/
theorem noLeak_of_settled {state : BudgetState}
    (h : Relation.ReflTransGen
      (fun s t => ∃ a, Settles budget runId s a ∧ step budget runId s a = some t)
      (initial state) s) :
    NoLeak runId s := by
  apply Kept.noLeak
  induction h with
  | refl => exact kept_initial state
  | tail _ hlast ih =>
    obtain ⟨a, hsettles, hstep⟩ := hlast
    exact ih.step hsettles hstep

def tenTokens : LlmCostBudget :=
  { maxTokens := some 10, maxCostMicrousd := none, requirePricing := false }

/-- The reservation of a dropped completion stays, and a refusal leaves an empty entry. -/
theorem leak_of_drop :
    (∃ s, [.start .complete ⟨5, 0⟩, .read 0, .reserve 0, .drop 0].foldlM (step tenTokens "run")
        (initial {}) = some s ∧ s.calls.all (!·.inFlight) = true ∧
      (s.reservations["run"]? : Option PendingReservation) = some ⟨5, 0⟩) ∧
    (∃ s, [.start .complete ⟨11, 0⟩, .read 0, .reserve 0].foldlM (step tenTokens "run")
        (initial {}) = some s ∧ s.calls.all (!·.inFlight) = true ∧
      (s.reservations["run"]? : Option PendingReservation) = some ⟨0, 0⟩) := by
  constructor
  · exact ⟨_, rfl, rfl, rfl⟩
  · exact ⟨_, rfl, rfl, rfl⟩

theorem noLeak_of_settled_one_call :
    ∃ s, [.start .complete ⟨5, 0⟩, .read 0, .reserve 0].foldlM (step tenTokens "run")
      (initial {}) = some s ∧ NoLeak "run" s ∧ (s.pending "run").tokens = 5 := by
  refine ⟨_, rfl, ?_, rfl⟩
  apply @noLeak_of_settled tenTokens _ _ {}
  refine .tail (.tail (.tail .refl ⟨.start .complete ⟨5, 0⟩, trivial, rfl⟩)
    ⟨.read 0, trivial, rfl⟩) ⟨.reserve 0, ?_, rfl⟩
  intro call state reservation hcall hphase hreservation
  cases hcall
  cases hphase
  cases hreservation
  intro resource
  cases resource <;> decide

/-! ### Joint admission -/

/-- What the journal has of a resource. -/
def BudgetState.used (state : BudgetState) : Resource → Nat
  | .tokens => state.tokensInput + state.tokensOutput
  | .cost => state.costMicrousd

/-- What an admitted call has reserved that has neither journaled its usage nor ended. -/
def Call.unsettled (call : Call) (resource : Resource) : Nat :=
  if call.phase = .working then (call.reservation.getD {}).get resource else 0

def outstanding (resource : Resource) (calls : List Call) : Nat :=
  (calls.map (·.unsettled resource)).sum

theorem outstanding_le_total (resource : Resource) (calls : List Call) :
    outstanding resource calls ≤ total resource calls := by
  induction calls with
  | nil => exact Nat.le_refl 0
  | cons call calls ih =>
    have hcall : call.unsettled resource ≤ call.held resource := by
      rw [Call.unsettled]
      split
      · next hphase => simp [Call.held, Call.inFlight, hphase]
      · exact Nat.zero_le _
    rw [outstanding, total, map_cons, sum_cons, map_cons, sum_cons]
    exact Nat.add_le_add hcall ih

/-- The map has at least what the calls in flight hold of a limited resource, and only calls of
runs without limits reserve nothing. -/
structure Covered (budget : LlmCostBudget) (runId : String) (s : State) : Prop where
  sums : ∀ resource, (budget.limit resource).isSome = true →
    total resource s.calls ≤ (s.pending runId).get resource
  reserves : ∀ call ∈ s.calls, call.reservation = none → ∀ resource, budget.limit resource = none

theorem Covered.change (h : Covered budget runId s) (hcall : s.calls[i]? = some call)
    (hsums : ∀ resource, (budget.limit resource).isSome = true →
      (s.pending runId).get resource + ({ call with phase } : Call).held resource ≤
        ((reservations[runId]? : Option PendingReservation).getD {}).get resource +
          call.held resource) :
    Covered budget runId ({ s with reservations }.set i call phase) where
  sums resource hlimit := by
    have hchange := hsums resource hlimit
    have htotal := @total_set resource s.calls i call { call with phase } hcall
    have hbefore := h.sums resource hlimit
    show total resource (s.calls.set i _) ≤
      ((reservations[runId]? : Option PendingReservation).getD {}).get resource
    omega
  reserves other hother hnone := by
    rcases mem_or_eq_of_mem_set hother with hold | rfl
    · exact h.reserves other hold hnone
    · exact h.reserves call (List.mem_of_getElem? hcall) hnone

theorem Covered.release (h : Covered budget runId s) (hcall : s.calls[i]? = some call)
    (hflight : call.inFlight = true) :
    Covered budget runId ({ s with
      reservations := releaseReservation runId call.reservation s.reservations }.set i call
        .ended) := by
  apply h.change hcall
  intro resource _
  rw [show ({ call with phase := .ended } : Call).held resource = 0 from rfl, Call.held,
    if_pos hflight]
  cases call.reservation with
  | none => exact Nat.le_add_right _ _
  | some reservation =>
    rw [releaseReservation, pending_release, Option.getD_some]
    exact Nat.le_add_of_sub_le (Nat.le_refl _)

theorem reservationOf_eq_none {kind : CallKind} {estimate : PendingReservation}
    (h : reservationOf budget kind estimate = none) (resource : Resource) :
    budget.limit resource = none := by
  cases kind with
  | decision => cases h
  | complete =>
    rw [reservationOf] at h
    split at h
    · cases h
    · next hlimits =>
      rw [Bool.or_eq_true, not_or, Bool.not_eq_true, Bool.not_eq_true, Option.isSome_eq_false_iff,
        Option.isSome_eq_false_iff, Option.isNone_iff_eq_none, Option.isNone_iff_eq_none] at hlimits
      cases resource
      · exact hlimits.1
      · exact hlimits.2

/-- A sum within a limit below the largest number is exact. -/
theorem add_le_of_saturatingAdd {a b limit : Nat} (h : saturatingAdd a b ≤ limit)
    (hlimit : limit < u64Max) : a + b ≤ limit := by
  rw [saturatingAdd] at h
  omega

theorem saturatingAdd_eq {a b limit : Nat} (h : a + b ≤ limit) (hlimit : limit < u64Max) :
    saturatingAdd a b = a + b := by
  rw [saturatingAdd]
  omega

variable {state : BudgetState}

theorem used_le_of_spent {limit : Nat}
    (h : state.spent resource ≤ limit) (hlimit : limit < u64Max) :
    state.used resource = state.spent resource := by
  cases resource with
  | tokens => exact (saturatingAdd_eq (add_le_of_saturatingAdd h hlimit) hlimit).symm
  | cost => rfl

/-- What the check has seen when it lets a reservation through. -/
theorem tryReserve_admits {limit : Nat} (hlimit : budget.limit resource = some limit)
    (hmax : limit < u64Max)
    (hok : (tryReserve budget state runId (some reservation) map).2.isOk = true) :
    state.used resource + ((map[runId]? : Option PendingReservation).getD {}).get resource +
        reservation.get resource ≤ limit ∧
      (((tryReserve budget state runId (some reservation) map).1[runId]? :
        Option PendingReservation).getD {}).get resource =
        ((map[runId]? : Option PendingReservation).getD {}).get resource +
          reservation.get resource := by
  rcases @tryReserve_cases budget runId state reservation map with
    ⟨_, hresult, _⟩ | ⟨_, hresult, _⟩ | ⟨hentry, _, hcheck⟩
  · rw [hresult] at hok
    cases hok
  · rw [hresult] at hok
    cases hok
  · have hle := hcheck resource
    rw [hlimit, Option.all_some, decide_eq_true_eq] at hle
    have houter := add_le_of_saturatingAdd hle hmax
    have hinner := add_le_of_saturatingAdd (Nat.le_of_add_right_le houter) hmax
    rw [saturatingAdd_eq hinner hmax] at houter
    rw [used_le_of_spent (Nat.le_of_add_right_le hinner) hmax, hentry]
    refine ⟨houter, ?_⟩
    have hsum : ((map[runId]? : Option PendingReservation).getD {}).get resource +
        reservation.get resource ≤ limit := by omega
    cases resource
    · exact saturatingAdd_eq hsum hmax
    · exact saturatingAdd_eq hsum hmax

/-- No limit is the largest number, at which sums saturate. -/
def LlmCostBudget.Finite (budget : LlmCostBudget) : Prop :=
  ∀ resource limit, budget.limit resource = some limit → limit < u64Max

theorem Covered.reserve {i : Nat} {call : Call} {state : BudgetState} (h : Covered budget runId s)
    (hfinite : budget.Finite) (hcall : s.calls[i]? = some call)
    (hphase : call.phase = .read state) :
    Covered budget runId ({ s with
      reservations := (tryReserve budget state runId call.reservation s.reservations).1 }.set i
        call (if (tryReserve budget state runId call.reservation s.reservations).2.isOk then
          .working else .ended)) := by
  apply h.change hcall
  intro resource hlimit
  have hheld : call.held resource = 0 := by
    simp [Call.held, Call.inFlight, hphase]
  obtain ⟨limit, hlimit⟩ := Option.isSome_iff_exists.mp hlimit
  rw [hheld, Nat.add_zero]
  cases hreservation : call.reservation with
  | none =>
    have hunlimited := h.reserves call (List.mem_of_getElem? hcall) hreservation resource
    rw [hlimit] at hunlimited
    cases hunlimited
  | some reservation =>
    cases hok : (tryReserve budget state runId (some reservation) s.reservations).2.isOk with
    | true =>
      rw [(tryReserve_admits hlimit (hfinite resource limit hlimit) hok).2]
      exact Nat.le_refl _
    | false =>
      rcases @tryReserve_cases budget runId state reservation s.reservations with
        ⟨hmap, _, _⟩ | ⟨hmap, _, _⟩ | ⟨_, hresult, _⟩
      · rw [hmap]
        exact Nat.le_refl _
      · rw [hmap, BTreeMap.get_insert, if_pos rfl]
        exact Nat.le_refl _
      · rw [hresult] at hok
        cases hok

theorem Covered.step (h : Covered budget runId s) (hfinite : budget.Finite)
    (hstep : LlmGateway.step budget runId s a = some t) : Covered budget runId t := by
  have hkeeps : ∀ {i : Nat} {call : Call} {phase : Phase}, s.calls[i]? = some call →
      (∀ resource, ({ call with phase } : Call).held resource ≤ call.held resource) →
      Covered budget runId (s.set i call phase) := by
    intro i call phase hcall hheld
    exact h.change hcall fun resource _ => Nat.add_le_add_left (hheld resource) _
  cases moves_of_step hstep with
  | start kind estimate =>
    constructor
    · intro resource hlimit
      have hsums : total resource s.calls ≤ (s.pending runId).get resource := h.sums resource hlimit
      rw [total, map_append, sum_append]
      exact hsums
    · intro call hcall hnone
      rcases mem_append.mp hcall with hold | hnew
      · exact h.reserves call hold hnone
      · cases mem_singleton.mp hnew
        exact reservationOf_eq_none hnone
  | read hcall hphase =>
    apply hkeeps hcall
    simp [Call.held, Call.inFlight]
  | reserve hcall hphase => exact h.reserve hfinite hcall hphase
  | journal input output cost unresolved hcall hphase =>
    have hset := @hkeeps _ _ .journaled hcall (by simp [Call.held, Call.inFlight, hphase])
    exact ⟨hset.sums, hset.reserves⟩
  | release hcall hphase => exact h.release hcall (by simp [Call.inFlight, hphase])
  | dropComplete hcall hphase hkind =>
    apply hkeeps hcall
    simp [Call.held, Call.inFlight]
  | dropDecision hcall hphase hkind => exact h.release hcall (by simp [Call.inFlight, hphase])

/-- The usage in the journal and the reservations of the calls at work are within the limits of
the run. -/
def Within (budget : LlmCostBudget) (s : State) : Prop :=
  ∀ resource, (budget.limit resource).all fun limit =>
    s.budget.used resource + outstanding resource s.calls ≤ limit

theorem covered_of_run (hfinite : budget.Finite)
    (hrun : Relation.ReflTransGen (fun s t => ∃ a, step budget runId s a = some t)
      (initial state) s) :
    Covered budget runId s := by
  induction hrun with
  | refl =>
    constructor
    · intro resource _
      exact Nat.zero_le _
    · intro call hcall
      cases hcall
  | tail _ hlast ih =>
    obtain ⟨a, hstep⟩ := hlast
    exact ih.step hfinite hstep

/-- In every run a call that is let in keeps the limits when nothing was journaled since it has
read the usage. -/
theorem within_of_admitted {state : BudgetState} {i : Nat} {call : Call} (hfinite : budget.Finite)
    (hrun : Relation.ReflTransGen (fun s t => ∃ a, step budget runId s a = some t)
      (initial state) s)
    (hcall : s.calls[i]? = some call) (hread : call.phase = .read s.budget)
    (hstep : step budget runId s (.reserve i) = some t)
    (hadmitted : t.calls[i]? = some { call with phase := .working }) :
    Within budget t := by
  have hcovered := covered_of_run hfinite hrun
  cases moves_of_step hstep with
  | @reserve _ call' state' hcall' hread' =>
    rw [hcall] at hcall'
    cases hcall'
    rw [hread] at hread'
    cases hread'
    have hok : (tryReserve budget s.budget runId call.reservation s.reservations).2.isOk =
        true := by
      by_contra hrefused
      simp [State.set, hrefused, (List.getElem?_eq_some_iff.mp hcall).1] at hadmitted
    intro resource
    cases hlimit : budget.limit resource with
    | none => rfl
    | some limit =>
      cases hreservation : call.reservation with
      | none =>
        have hunlimited := hcovered.reserves call (List.mem_of_getElem? hcall) hreservation resource
        rw [hlimit] at hunlimited
        cases hunlimited
      | some reservation =>
        rw [hreservation] at hok
        have hadmits : s.budget.used resource + (s.pending runId).get resource +
            reservation.get resource ≤ limit :=
          (tryReserve_admits hlimit (hfinite resource limit hlimit) hok).1
        have hpending := hcovered.sums resource (by rw [hlimit]; rfl)
        have hbefore := outstanding_le_total resource s.calls
        have hafter : outstanding resource (s.calls.set i { call with phase := .working }) +
            call.unsettled resource = outstanding resource s.calls + _ :=
          sum_map_set { call with phase := .working } hcall
        rw [show call.unsettled resource = 0 by rw [Call.unsettled, hread]; rfl,
          show ({ call with phase := .working } : Call).unsettled resource =
            reservation.get resource by rw [Call.unsettled, hreservation]; rfl] at hafter
        rw [Option.all_some, decide_eq_true_eq, hok, if_pos rfl]
        show s.budget.used resource +
          outstanding resource (s.calls.set i { call with phase := .working }) ≤ limit
        omega

/-- A call reads the usage, another one journals its own and releases, and the first is let in by
the old usage. -/
theorem not_within_of_stale :
    ∃ s t, [.start .complete ⟨5, 0⟩, .start .complete ⟨6, 0⟩, .read 0, .reserve 0, .read 1,
        .journal 0 3 2 0 false, .release 0].foldlM (step tenTokens "run") (initial {}) = some s ∧
      step tenTokens "run" s (.reserve 1) = some t ∧
      t.calls[1]? = some ⟨.complete, some ⟨6, 0⟩, .working⟩ ∧ ¬ Within tenTokens t := by
  refine ⟨_, _, rfl, rfl, rfl, ?_⟩
  intro hwithin
  exact absurd (hwithin .tokens) (by decide)

theorem within_of_admitted_two_calls :
    ∃ s t, [.start .complete ⟨4, 0⟩, .start .decision ⟨6, 0⟩, .read 0, .reserve 0,
        .read 1].foldlM (step tenTokens "run") (initial {}) = some s ∧
      step tenTokens "run" s (.reserve 1) = some t ∧ outstanding .tokens t.calls = 10 ∧
      Within tenTokens t := by
  refine ⟨_, _, rfl, rfl, rfl, ?_⟩
  apply @within_of_admitted tenTokens "run" _ _ {} 1
  · intro resource limit hlimit
    cases resource with
    | tokens =>
      cases hlimit
      decide
    | cost => cases hlimit
  · exact .tail (.tail (.tail (.tail (.tail .refl ⟨.start .complete ⟨4, 0⟩, rfl⟩)
      ⟨.start .decision ⟨6, 0⟩, rfl⟩) ⟨.read 0, rfl⟩) ⟨.reserve 0, rfl⟩) ⟨.read 1, rfl⟩
  · rfl
  · rfl
  · rfl
  · rfl

end LlmGateway

end Qcg
