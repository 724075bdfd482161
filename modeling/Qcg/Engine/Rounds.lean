import Qcg.Engine.Effect
import Qcg.Engine.Run
import Qcg.State.Identity

/-!
# Rounds of a run

The scheduler is made of records, of charged attempts and of changes that the journal does
not see. So a journal only grows, by records that fold to the state the run holds, and every
execution stands behind its own charge. A later round starts from the charges it finds, so
crashes buy no further executions.
-/

namespace Qcg

open EStateM (Returns Spec Tracks returns_pure spec_bind spec_get spec_modify spec_set spec_throw
  tracks_foldlM tracks_forM tracks_get tracks_modify tracks_pure tracks_throw)
open Json (Value Members)

/-- The node whose execution a record charges. -/
def chargedNode (event : Value) : Option String :=
  if kindOf event = some .budgetCharged then event.getStr "node" else none

def chargedAmount (events : List Value) : Nat :=
  (events.map (eventIncrement .budgetCharged)).sum

abbrev Live.charged (live : Live) : Nat :=
  live.journal.state.budget.budgetCharged

/-- The journal grew by records that fold to the state held, a charge for each execution. -/
def Grows (env : Env) (live live' : Live) : Prop :=
  ∃ more, live'.journal.events = live.journal.events ++ more ∧
    RunState.foldFrom env.api live.journal.state more = .ok live'.journal.state ∧
    live'.dispatched = live.dispatched ++ more.filterMap chargedNode

/-- The steps a run has counted; before its budget is seeded there are none. -/
def Live.spent (seeded : Bool) (live : Live) : Nat :=
  if seeded then live.executedSteps else 0

/-- Every execution is charged and counted, and nothing is counted beyond the limit. -/
structure Spends (env : Env) (seeded : Bool) (live live' : Live) : Prop where
  grows : Grows env live live'
  charged : live'.charged + live.dispatched.length = live.charged + live'.dispatched.length
  counted : live.spent seeded + live'.dispatched.length ≤
    live'.spent seeded + live.dispatched.length
  limited : live'.spent seeded ≤ max (live.spent seeded) env.stepLimit

abbrev Counted {α : Type} (env : Env) (m : EngineM α) : Prop :=
  Tracks (Spends env true) m

section Primitive

variable {env : Env} {seeded : Bool} {kind : EventKind} {a b c : Live} {α : Type}

theorem Grows.trans (h : Grows env a b) (h' : Grows env b c) : Grows env a c := by
  obtain ⟨more, hevents, hfold, hdispatched⟩ := h
  obtain ⟨more', hevents', hfold', hdispatched'⟩ := h'
  refine ⟨more ++ more', ?_, Except.foldlM_append_eq_ok.mpr ⟨_, hfold, hfold'⟩, ?_⟩
  · rw [hevents', hevents, List.append_assoc]
  · rw [hdispatched', hdispatched, List.append_assoc, List.filterMap_append]

theorem Spends.of_eq (hjournal : b.journal = a.journal) (hdispatched : b.dispatched = a.dispatched)
    (hspent : b.spent seeded = a.spent seeded) : Spends env seeded a b where
  grows := ⟨[], by simp [hjournal], by rw [hjournal]; rfl, by simp [hdispatched]⟩
  charged := by rw [Live.charged, hjournal, hdispatched]
  counted := by rw [hdispatched, hspent]
  limited := by rw [hspent]; exact Nat.le_max_left _ _

instance : IsPreorder Live (Spends env seeded) where
  refl _ := .of_eq rfl rfl rfl
  trans a b c h h' := by
    obtain ⟨hgrows, hcharged, hcounted, hlimited⟩ := h
    obtain ⟨hgrows', hcharged', hcounted', hlimited'⟩ := h'
    exact ⟨hgrows.trans hgrows', by omega, by omega, by omega⟩

theorem Journal.kindOf_record (j : Journal) (payload : Members) :
    kindOf (j.record env kind payload) = some kind := by
  simp [kindOf, Journal.record, Stamps.getStr_stamp_kind, EventKind.ofName_name]

/-- An append makes the checks of a fold. -/
theorem Journal.foldFrom_append {j j' : Journal} {payload : Members}
    (h : j.append env kind payload = .ok j') :
    RunState.foldFrom env.api j.state [j.record env kind payload] = .ok j'.state := by
  have happly := (Journal.append_eq_ok h).2.1
  obtain ⟨_, _, h⟩ := Except.bind_eq_ok.mp h
  obtain ⟨_, _, h⟩ := Except.bind_eq_ok.mp h
  obtain ⟨_, hflat, _⟩ := Except.bind_eq_ok.mp h
  refine Except.foldlM_cons_eq_ok.mpr ⟨j'.state, ?_, rfl⟩
  unfold RunState.applyChecked
  split
  · next message hrefused =>
    rw [Journal.record] at hrefused
    rw [hrefused] at hflat
    cases hflat
  · exact happly

/-- An accepted record, with the execution it charges if it is a charge. -/
theorem Spends.append {payload : Members} {n : Option String}
    (h : a.journal.append env kind payload = .ok b.journal)
    (hcharged : chargedNode (a.journal.record env kind payload) = n)
    (hamount : eventIncrement .budgetCharged (a.journal.record env kind payload) =
      n.toList.length)
    (hdispatched : b.dispatched = a.dispatched ++ n.toList)
    (hspent : b.spent seeded = a.spent seeded + n.toList.length)
    (hlimited : b.spent seeded ≤ max (a.spent seeded) env.stepLimit) : Spends env seeded a b := by
  obtain ⟨-, happly, hevents⟩ := Journal.append_eq_ok h
  have hcount := RunState.apply_count happly .budgetCharged
  simp only [BudgetState.count] at hcount
  refine ⟨⟨_, hevents, Journal.foldFrom_append h, ?_⟩, ?_, ?_, hlimited⟩
  · cases n <;> simp [hdispatched, hcharged]
  · rw [Live.charged, Live.charged, hcount, hamount, hdispatched, List.length_append]
    omega
  · rw [hdispatched, hspent, List.length_append]
    omega

@[simp] theorem spends_event {payload : List (String × Value)} (hkind : kind ≠ .budgetCharged) :
    Tracks (Spends env seeded) (event env kind payload) := by
  intro live
  refine event_spec (fun journal _ happend => ?_) (fun _ => refl_of (Spends env seeded) live)
    fun error => .of_eq rfl rfl rfl
  refine .append (n := none) happend ?_ ?_ (by simp) rfl (Nat.le_max_left _ _)
  · simp [chargedNode, Journal.kindOf_record, hkind]
  · rw [eventIncrement, Journal.kindOf_record]
    cases kind <;> first | rfl | exact absurd rfl hkind

@[simp] theorem spends_modify {f : Live → Live} (h : ∀ live, (f live).journal = live.journal ∧
    (f live).dispatched = live.dispatched ∧ (f live).spent seeded = live.spent seeded) :
    Tracks (Spends env seeded) (modify f : EngineM PUnit) :=
  tracks_modify fun live => .of_eq (h live).1 (h live).2.1 (h live).2.2

@[simp] theorem spends_ask (question : Nat → α) : Tracks (Spends env seeded) (ask question) :=
  fun _ => spec_ask.mpr (.of_eq rfl rfl rfl)

/-- The only place that charges: the count and the record come before the execution. -/
@[simp] theorem spends_attemptOnce (node : NodeDef) : Counted env (attemptOnce env node) := by
  intro live
  unfold attemptOnce consume
  simp only [spec_bind, spec_get]
  by_cases hlimit : live.executedSteps < env.stepLimit
  · have hmax : live.executedSteps + 1 ≤ max live.executedSteps env.stepLimit := by omega
    rw [if_pos hlimit, spec_set]
    refine event_spec (fun journal _ happend => ?_) (fun hkind => by cases hkind) fun error => ?_
    · simp only [spec_modify, spec_ask]
      refine .append (n := some node.id) happend ?_ ?_ rfl rfl hmax
      · rw [chargedNode, Journal.kindOf_record, if_pos rfl, Journal.getStr_record (by decide),
          Members.get_ofList]
        simp [Members.get_cons, Value.asStr]
      · rw [eventIncrement, Journal.kindOf_record]
        show amountOf _ = 1
        rw [amountOf, Journal.get_record (by decide), Members.get_ofList]
        rfl
    · exact ⟨(refl_of (Spends env true) live).grows, rfl,
        Nat.add_le_add_right (Nat.le_succ _) _, hmax⟩
  · rw [if_neg hlimit, spec_throw]
    exact refl_of (Spends env true) live

end Primitive

-- Every other function is a sequence of these, so the proofs walk its text.
section Walk

attribute [local simp] Live.spent tracks_pure tracks_throw tracks_get Tracks.observe tracks_foldlM
    setState
  modifyVars syncSubtree syncLiveOutcomes

variable {env : Env} {replay : BTreeMap ReplayedStep} {node : NodeDef} {owner : String}
  {plan : RepairPlan} {w : Wave}

@[simp] theorem spends_runCheckpoint : Counted env (runCheckpoint env) := by
  unfold runCheckpoint checkCancelled checkExpired
  repeat' first | with_reducible refine .bind ?_ fun _ => ?_ | split | simp

@[simp] theorem spends_pinAttemptFiles : Counted env (pinAttemptFiles env) := by
  unfold pinAttemptFiles
  repeat' first | with_reducible refine .bind ?_ fun _ => ?_ | split | simp

@[simp] theorem spends_repeatAttempt (attempt maxAttempts : Nat) (error : EngineError) :
    Counted env (repeatAttempt env node attempt maxAttempts error) := by
  unfold repeatAttempt stepRetry backoff checkCancelled checkExpired
  repeat' first | with_reducible refine .bind ?_ fun _ => ?_ | split | simp

@[simp] theorem spends_attempts (maxAttempts left : Nat) :
    Counted env (attempts env node maxAttempts left) := by
  induction left
  all_goals
    unfold attempts
    repeat' first | with_reducible refine .bind ?_ fun _ => ?_ | split | simp [*]

@[simp] theorem spends_executeNodeWithRetry :
    Counted env (executeNodeWithRetry env node) := by
  unfold executeNodeWithRetry
  split <;> simp

@[simp] theorem spends_executeNamedNode (nodeId : String) (attempt : Nat) :
    Counted env (executeNamedNode env replay owner nodeId attempt) := by
  unfold executeNamedNode replayNamedNode settleNamedNode failNamedNode
  dsimp only
  repeat' first | with_reducible refine .bind ?_ fun _ => ?_ | split | simp

@[simp] theorem spends_repairAttempts (left attempt : Nat) (reason : FailureDetail) :
    Counted env (repairAttempts env replay owner plan left attempt reason) := by
  induction left generalizing attempt reason with
  | zero => exact tracks_pure _
  | succ left ih =>
    unfold repairAttempts repairAttempt recheckAttempt suspendAttempt repairAttemptStarted
      repairAttemptFinished
    repeat' first | with_reducible refine .bind ?_ fun _ => ?_ | split | simp [ih]

@[simp] theorem spends_regenerateAttempts (maxAttempts left attempt : Nat) (last : FailedRevision) :
    Counted env (regenerateAttempts env node maxAttempts left attempt last) := by
  induction left generalizing attempt last with
  | zero => exact tracks_pure _
  | succ left ih =>
    unfold regenerateAttempts
    repeat' first | with_reducible refine .bind ?_ fun _ => ?_ | split | simp [ih]

@[simp] theorem spends_runNode : Counted env (runNode env replay node) := by
  unfold runNode startNode settleOutcome settleCheckFailed executeRepairCycle exhaustRepair
    settleRepairCycle settleAskUser executeRegenerate settleRegenerate settleRegenerateExhausted
    settleSuccess settleFailure suspend
  repeat' first | with_reducible refine .bind ?_ fun _ => ?_ | split | simp

@[simp] theorem spends_waveAction (action : WaveAction) :
    Counted env (waveAction env w action) := by
  unfold waveAction taskAttempt joinTask
  dsimp only
  repeat' first | with_reducible refine .bind ?_ fun _ => ?_ | split | simp

@[simp] theorem spends_drainTask (task : Task) :
    Counted env (drainTask env w task) := by
  unfold drainTask finishTask joinTask
  dsimp only
  repeat' first | with_reducible refine .bind ?_ fun _ => ?_ | split | simp

@[simp] theorem spends_startTask : Counted env (startTask env node) := by
  unfold startTask
  repeat' first | with_reducible refine .bind ?_ fun _ => ?_ | simp

@[simp] theorem spends_startWave (nodes : List NodeDef) :
    Counted env (startWave env nodes w) := by
  induction nodes generalizing w with
  | nil => exact tracks_pure _
  | cons node rest ih =>
    unfold startWave
    repeat' first | with_reducible refine .bind ?_ fun _ => ?_ | split | simp [ih]

@[simp] theorem spends_settleWaveNode (pending : Bool) (errors : List EngineError) :
    Counted env (settleWaveNode env w pending errors node) := by
  unfold settleWaveNode settleWaveReport settleWaveError settleWaveOutcome interrupt
  repeat' first | with_reducible refine .bind ?_ fun _ => ?_ | split | simp

@[simp] theorem spends_executeParallelWave (nodes : List NodeDef) :
    Counted env (executeParallelWave env nodes) := by
  unfold executeParallelWave drain
  repeat' first | with_reducible refine .bind ?_ fun _ => ?_ | split | simp

@[simp] theorem spends_visit (scan : Scan) (id : String) :
    Counted env (visit env replay scan id) := by
  unfold visit visitPending visitRunnable skipNode replayNode
  dsimp only
  repeat' first | with_reducible refine .bind ?_ fun _ => ?_ | split | simp

theorem spends_runLoop (passes : Nat) : Counted env (runLoop env replay passes) := by
  induction passes with
  | zero => exact tracks_pure _
  | succ passes ih =>
    refine .bind ?_ fun _ => (tracks_pure _).ite ih
    unfold pass scanPass passGate checkCancelled dispatch runWave conclude
    repeat' first | with_reducible refine .bind ?_ fun _ => ?_ | split | simp

theorem spends_authorizeAll {seeded : Bool} (tasks : List (String × Value)) :
    Tracks (Spends env seeded) (authorizeAll env tasks) := by
  unfold authorizeAll
  split
  · simp
  · exact tracks_forM fun _ _ => spends_event (by decide)

theorem spends_enter : Tracks (Spends env false) (enter env) := by
  have hpending (s : FoldState) :
      Tracks (Spends env false) (s.pendingInteractions.values.forM (checkPending env)) := by
    refine tracks_forM fun interaction _ => ?_
    unfold checkPending
    repeat' first | split | simp
  unfold enter ensureNoFailClosedInflightOperations checkRunId checkContract canonicalInputs openRun
    startRun
  dsimp only
  repeat' first
    | with_reducible refine .bind ?_ fun _ => ?_
    | exact hpending _
    | exact tracks_forM fun _ _ => spends_event (by decide)
    | exact tracks_modify fun _ => .of_eq rfl rfl rfl
    | exact spends_authorizeAll _
    | split
    | simp

/-- The loop starts from the charges of the journal that was opened. -/
theorem enter_seeds (live : Live) : Returns (enter env) live fun _ mid =>
    chargedSteps live.journal.state.budget ≤ mid.executedSteps ∧
      mid.executedSteps ≤ max (chargedSteps live.journal.state.budget) env.stepLimit := by
  refine spec_bind.mpr (spec_get.mpr (Returns.of_bind fun _ _ => .of_bind fun _ _ =>
    .of_bind fun _ _ => .of_bind fun _ _ => .of_bind fun _ opened =>
      spec_bind.mpr (spec_modify.mpr ?_)))
  refine (@spends_authorizeAll env true _).returns.bind fun _ mid h => returns_pure ?_
  obtain ⟨more, -, -, hdispatched⟩ := h.grows
  have hcounted := h.counted
  rw [hdispatched, List.length_append] at hcounted
  exact ⟨by simp only [Live.spent, seedLive, if_true] at hcounted; omega, h.limited⟩

end Walk

/-- The state in which a computation ends, by a value or by an error. -/
def finalState {α : Type} (m : EngineM α) (live : Live) : Live :=
  match m live with
  | .ok _ live' | .error _ live' => live'

theorem finalState_of_spec {α : Type} {m : EngineM α} {live : Live} {P : Live → Prop}
    (h : Spec m live (fun _ live' => P live') fun _ live' => P live') : P (finalState m live) := by
  unfold finalState
  split
  · next hm => exact h.of_ok hm
  · next hm => exact h.of_error hm

variable {env : Env} {passes : Nat} {live : Live} {s s' : RunState} {api : Api} {event : Value}
  {events : List Value}

theorem run_grows : Grows env live (finalState (run env passes) live) := by
  refine finalState_of_spec (spec_bind.mpr ?_)
  refine (spends_enter live).mono (fun replay mid h => ?_) fun _ _ h => h.grows
  exact (spends_runLoop passes mid).mono (fun _ _ h' => h.grows.trans h'.grows)
    fun _ _ h' => h.grows.trans h'.grows

/-- Charges are flagged, so a budget without the flag has none. -/
def BudgetState.Flagged (b : BudgetState) : Prop :=
  b.hasBudgetCharges = false → b.budgetCharged = 0

theorem BudgetState.Flagged.apply (hs : s.budget.Flagged) (h : s.apply api event = .ok s') :
    s'.budget.Flagged := by
  obtain ⟨kind, h⟩ := RunState.accepted_of_apply h
  rcases kind.isRecord_or with hrecord | rfl | rfl | hidentity
  · have hbudget : s'.budget = (RunState.noteBudget s.budget kind event).step kind event :=
      congrArg Facets.budget (h.record hrecord).2
    have hnote : (RunState.noteBudget s.budget kind event).Flagged := by
      unfold RunState.noteBudget FoldState.noteSearchCost
      split_ifs <;> exact hs
    rw [hbudget]
    unfold BudgetState.step
    split
    case h_2 => exact nofun
    case h_6 => simp only; split_ifs <;> exact hnote
    all_goals exact hnote
  · rwa [show s'.budget = s.budget from congrArg Facets.budget h.forked.2]
  · obtain ⟨-, -, next, -, -, hfacets⟩ := h.elapsed
    rw [show s'.budget = _ from congrArg Facets.budget hfacets]
    exact hs
  · obtain ⟨-, -, -, mode, -, -, hfacets⟩ := h.admitted hidentity
    rw [show s'.budget = _ from congrArg Facets.budget hfacets]
    rcases hidentity with rfl | rfl <;> exact hs

theorem BudgetState.Flagged.foldFrom (hs : s.budget.Flagged)
    (h : RunState.foldFrom api s events = .ok s') : s'.budget.Flagged := by
  induction events generalizing s with
  | nil =>
    cases h
    exact hs
  | cons event events ih =>
    obtain ⟨mid, hmid, hrest⟩ := Except.foldlM_cons_eq_ok.mp h
    exact ih (hs.apply (RunState.applyChecked_eq_ok hmid).2) hrest

theorem foldFrom_charged (h : RunState.foldFrom api s events = .ok s') :
    s'.budget.budgetCharged = s.budget.budgetCharged + chargedAmount events :=
  RunState.foldlM_count (RunState.foldlM_apply_of_foldFrom h) .budgetCharged

theorem chargedAmount_append (l r : List Value) :
    chargedAmount (l ++ r) = chargedAmount l + chargedAmount r := by
  simp [chargedAmount]

theorem run_charged (hlive : live.journal.state.budget.Flagged)
    (hstart : live.charged = chargedAmount live.journal.events) :
    chargedAmount (finalState (run env passes) live).journal.events ≤
      max (chargedAmount live.journal.events) env.stepLimit := by
  have hbudget : chargedSteps live.journal.state.budget = live.charged ∨ live.charged = 0 := by
    unfold chargedSteps
    split_ifs with hflag
    · exact .inl rfl
    · exact .inr (hlive (by simpa using hflag))
  have hentered (mid : Live) (h : Spends env false live mid) : mid.charged ≤ live.charged := by
    have hcharged := h.charged
    have hcounted := h.counted
    simp only [Live.spent, Bool.false_eq_true, if_false] at hcounted
    omega
  have hlast : (finalState (run env passes) live).charged ≤ max live.charged env.stepLimit := by
    refine finalState_of_spec (P := fun last => last.charged ≤ max live.charged env.stepLimit)
      (spec_bind.mpr (((spends_enter live).and (enter_seeds live)).mono (fun replay mid h => ?_)
        fun _ mid h => (hentered mid h.1).trans (Nat.le_max_left _ _)))
    have hloop (last : Live) (h' : Spends env true mid last) :
        last.charged ≤ max live.charged env.stepLimit := by
      have hmid := hentered mid h.1
      have hcharged := h'.charged
      have hcounted := h'.counted
      have hlimited := h'.limited
      obtain ⟨-, hseeded, hseeded'⟩ := h
      simp only [Live.spent, if_true] at hcounted hlimited
      omega
    exact (spends_runLoop passes mid).mono (fun _ => hloop) fun _ => hloop
  obtain ⟨more, hevents, hfold, -⟩ := @run_grows env passes live
  rw [hevents, chargedAmount_append, ← hstart, ← foldFrom_charged hfold]
  exact hlast

/-- A process over the journal of a run, which may die after any of the records it writes. -/
structure Round where
  env : Env
  passes : Nat
  kept : Nat

/-- A round runs on what is durable; one that cannot reopen it leaves it alone. -/
def Round.play (events : List Value) (round : Round) : List Value :=
  match Journal.reopen round.env events with
  | .error _ => events
  | .ok journal =>
      (finalState (run round.env round.passes) { journal }).journal.events.take
        (events.length + round.kept)

theorem Round.play_charged (events : List Value) (round : Round) :
    chargedAmount (Round.play events round) ≤ max (chargedAmount events) round.env.stepLimit := by
  unfold Round.play
  cases hreopen : Journal.reopen round.env events with
  | error error => exact Nat.le_max_left _ _
  | ok journal =>
    obtain ⟨state, hstate, hjournal⟩ := Except.bind_eq_ok.mp hreopen
    cases hjournal
    have hkept (l : List Value) (n : Nat) : chargedAmount (l.take n) ≤ chargedAmount l := by
      conv_rhs => rw [← List.take_append_drop n l, chargedAmount_append]
      exact Nat.le_add_right _ _
    have hflagged : state.budget.Flagged := .foldFrom (s := {}) (fun _ => rfl) hstate
    refine (hkept _ _).trans (run_charged hflagged ?_)
    exact (foldFrom_charged hstate).trans (Nat.zero_add _)

/-- Over any number of rounds, each ended anywhere, the steps charged to a run stay within the
largest limit that one of its rounds had. -/
theorem rounds_within_step_limit (rounds : List Round) (events : List Value) :
    chargedAmount (rounds.foldl Round.play events) ≤
      (rounds.map fun round => round.env.stepLimit).foldl max (chargedAmount events) := by
  have hmono (l : List Nat) {m n : Nat} (h : m ≤ n) : l.foldl max m ≤ l.foldl max n := by
    induction l generalizing m n with
    | nil => exact h
    | cons k l ih => exact ih (by omega)
  induction rounds generalizing events with
  | nil => exact Nat.le_refl _
  | cons round rounds ih => exact (ih _).trans (hmono _ (round.play_charged events))

end Qcg
