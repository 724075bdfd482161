import Qcg.State.Ledger

/-!
# Identity, end and counters of a run

What holds along every journal that the fold accepts: positions rise, the identity moves
only with an admission or a fork marker, a final run waits for a restart, and every
counter is the exact sum of what the events add to it.
-/

namespace Qcg

open Except (foldlM_cons_eq_ok bind_eq_ok)

open Json (Value Members)

/-- The counters that the budgets of a run are checked against. -/
inductive Counter where
  | stepsExecuted
  | budgetCharged
  | stepsSucceeded
  | stepsFailed
  | stepsSkipped
  | repairAttempts
  | regenerateAttempts
  | llmCalls
  | tokensInput
  | tokensOutput
  | tokensCachedInput
  | tokensCacheCreationInput
  | costMicrousd
deriving DecidableEq, Repr

def BudgetState.count (b : BudgetState) : Counter → Nat
  | .stepsExecuted => b.stepsExecuted
  | .budgetCharged => b.budgetCharged
  | .stepsSucceeded => b.stepsSucceeded
  | .stepsFailed => b.stepsFailed
  | .stepsSkipped => b.stepsSkipped
  | .repairAttempts => b.repairAttempts
  | .regenerateAttempts => b.regenerateAttempts
  | .llmCalls => b.llmCalls
  | .tokensInput => b.tokensInput
  | .tokensOutput => b.tokensOutput
  | .tokensCachedInput => b.tokensCachedInput
  | .tokensCacheCreationInput => b.tokensCacheCreationInput
  | .costMicrousd => b.costMicrousd

def increment (kind : EventKind) (event : Value) (counter : Counter) : Nat :=
  let status := (event.getStr "status").getD ""
  match kind, counter with
  | .stepStarted, .stepsExecuted | .stepSkipped, .stepsSkipped
  | .repairAttemptStarted, .repairAttempts | .regenerateAttemptStarted, .regenerateAttempts
  | .llmCall, .llmCalls => 1
  | .budgetCharged, .budgetCharged => amountOf event
  | .stepFinished, .stepsSucceeded => if FoldState.succeededStatus status then 1 else 0
  | .stepFinished, .stepsFailed => if projectsWorkspace status then 0 else 1
  | .llmCall, .tokensInput => tokensOf event "input"
  | .llmCall, .tokensOutput => tokensOf event "output"
  | .llmCall, .tokensCachedInput => tokensOf event "cached_input"
  | .llmCall, .tokensCacheCreationInput => tokensOf event "cache_creation_input"
  | .llmCall, .costMicrousd => (event.getU64 "cost_microusd").getD 0
  | _, _ => 0

def kindOf (event : Value) : Option EventKind :=
  (event.getStr "t").bind EventKind.ofName

def eventIncrement (counter : Counter) (event : Value) : Nat :=
  match kindOf event with
  | some kind => increment kind event counter
  | none => 0

theorem FoldState.suspendedStatus_of_succeeded {status : String}
    (h : succeededStatus status = true) : suspendedStatus status = false := by
  simp only [succeededStatus, List.contains_eq_mem, List.mem_cons, List.not_mem_nil, or_false,
    decide_eq_true_eq] at h
  rcases h with rfl | rfl | rfl | rfl | rfl <;> decide

theorem BudgetState.count_step (b : BudgetState) (kind : EventKind) (event : Value)
    (counter : Counter) :
    (b.step kind event).count counter = b.count counter + increment kind event counter := by
  unfold BudgetState.step
  split
  case h_6 =>
    simp only
    split_ifs with hsuspended hsucceeded
    · have hnot : FoldState.succeededStatus ((event.getStr "status").getD "") = false := by
        by_contra hne
        rw [Bool.not_eq_false] at hne
        simp [FoldState.suspendedStatus_of_succeeded hne] at hsuspended
      cases counter <;> simp [increment, count, projectsWorkspace, hsuspended, hnot]
    · cases counter <;> simp [increment, count, projectsWorkspace, hsucceeded]
    · cases counter <;> simp [increment, count, projectsWorkspace, hsuspended, hsucceeded]
  case h_8 =>
    have hzero : increment kind event counter = 0 := by
      unfold increment
      split <;> first | rfl | simp_all
    rw [hzero, Nat.add_zero]
  all_goals cases counter <;> rfl

namespace RunState

variable {api : Api} {s s' : RunState} {event : Value} {kind : EventKind}

theorem noteBudget_count (b : BudgetState) (counter : Counter) :
    (noteBudget b kind event).count counter = b.count counter := by
  unfold noteBudget FoldState.noteSearchCost
  split_ifs
  all_goals cases counter <;> rfl

theorem Accepted.kindOf_eq (h : Accepted api s kind event s') : kindOf event = some kind := by
  rw [kindOf, h.kind_eq, Option.bind_some, EventKind.ofName_name]

theorem apply_count (h : s.apply api event = .ok s') (counter : Counter) :
    s'.budget.count counter = s.budget.count counter + eventIncrement counter event := by
  obtain ⟨kind, h⟩ := accepted_of_apply h
  simp only [eventIncrement, h.kindOf_eq]
  rcases kind.isRecord_or with hrecord | rfl | rfl | hidentity
  · have hbudget : s'.budget = (noteBudget s.budget kind event).step kind event :=
      congrArg Facets.budget (h.record hrecord).2
    rw [hbudget, BudgetState.count_step, noteBudget_count]
  · have hbudget : s'.budget = s.budget := congrArg Facets.budget h.forked.2
    rw [hbudget]
    cases counter <;> rfl
  · obtain ⟨-, -, next, -, -, hfacets⟩ := h.elapsed
    have hbudget : s'.budget = { s.budget with elapsed := some next } :=
      congrArg Facets.budget hfacets
    rw [hbudget]
    cases counter <;> rfl
  · obtain ⟨-, -, -, mode, -, -, hfacets⟩ := h.admitted hidentity
    rw [show s'.budget = _ from congrArg Facets.budget hfacets]
    rcases hidentity with rfl | rfl
    all_goals cases counter <;> rfl

theorem foldlM_count {events : List Value} (h : events.foldlM (RunState.apply api) s = .ok s')
    (counter : Counter) :
    s'.budget.count counter =
      s.budget.count counter + (events.map (eventIncrement counter)).sum := by
  induction events generalizing s with
  | nil =>
    cases h
    simp
  | cons event events ih =>
    obtain ⟨mid, hmid, hrest⟩ := foldlM_cons_eq_ok.mp h
    rw [ih hrest, apply_count hmid, List.map_cons, List.sum_cons, Nat.add_assoc]

end RunState

theorem RunEvent.requiredString_eq_ok {members : Members} {field label text : String}
    (h : requiredString members field label = .ok text) :
    Value.getStr (.obj members) field = some text := by
  unfold requiredString at h
  split at h
  · next s hs =>
    cases h
    simpa [Value.getStr] using hs
  · cases h

variable {e : RunEvent}

theorem RunEvent.envelope_members {event : Value} (h : envelope event = .ok e) :
    event.getU64 "seq" = some e.seq ∧ event.getStr "ts" = some e.ts ∧
      event.getStr "t" = some e.kind ∧ event.getStr "run_id" = some e.runId ∧
      event.getStr "trace_id" = some e.traceId ∧ event.getStr "span_id" = some e.spanId := by
  unfold envelope at h
  cases event with
  | obj members =>
    simp only [Value.asObject] at h
    obtain ⟨_, hmembers, h⟩ := bind_eq_ok.mp h
    cases hmembers
    split at h
    · next seq hseq =>
      obtain ⟨_, hok, h⟩ := bind_eq_ok.mp h
      cases hok
      obtain ⟨ts, hts, h⟩ := bind_eq_ok.mp h
      obtain ⟨kind, hkind, h⟩ := bind_eq_ok.mp h
      obtain ⟨runId, hrunId, h⟩ := bind_eq_ok.mp h
      obtain ⟨traceId, htraceId, h⟩ := bind_eq_ok.mp h
      obtain ⟨spanId, hspanId, h⟩ := bind_eq_ok.mp h
      cases h
      exact ⟨by simpa [Value.getU64] using hseq, requiredString_eq_ok hts,
        requiredString_eq_ok hkind, requiredString_eq_ok hrunId, requiredString_eq_ok htraceId,
        requiredString_eq_ok hspanId⟩
    · obtain ⟨_, hrefused, -⟩ := bind_eq_ok.mp h
      cases hrefused
  | _ =>
    obtain ⟨_, hrefused, -⟩ := bind_eq_ok.mp h
    cases hrefused

theorem RunEvent.envelope_eq_ok {event : Value} (h : envelope event = .ok e) :
    event.getU64 "seq" = some e.seq ∧ event.getStr "ts" = some e.ts ∧
      event.getStr "run_id" = some e.runId := by
  obtain ⟨hseq, hts, -, hid, -⟩ := envelope_members h
  exact ⟨hseq, hts, hid⟩

theorem RunEvent.fromFlat_eq_ok {api : Api} {event : Value} (h : fromFlat api event = .ok e) :
    event.getU64 "seq" = some e.seq ∧ event.getStr "ts" = some e.ts ∧
      event.getStr "run_id" = some e.runId := by
  obtain ⟨parsed, henvelope, h⟩ := bind_eq_ok.mp h
  obtain ⟨data, -, h⟩ := bind_eq_ok.mp h
  cases h
  obtain ⟨hseq, hts, hid⟩ := envelope_eq_ok henvelope
  exact ⟨hseq, hts, hid⟩

namespace RunState

variable {api : Api} {s s' : RunState} {event : Value} {kind : EventKind}

theorem applyChecked_eq_ok (h : s.applyChecked api event = .ok s') :
    (∃ e, RunEvent.fromFlat api event = .ok e) ∧ s.apply api event = .ok s' := by
  unfold applyChecked at h
  split at h
  · cases h
  · next e he => exact ⟨⟨e, he⟩, h⟩

theorem foldlM_apply_of_foldFrom {events : List Value} (h : foldFrom api s events = .ok s') :
    events.foldlM (RunState.apply api) s = .ok s' := by
  induction events generalizing s with
  | nil => exact h
  | cons event events ih =>
    obtain ⟨mid, hmid, hrest⟩ := foldlM_cons_eq_ok.mp h
    exact foldlM_cons_eq_ok.mpr ⟨mid, (applyChecked_eq_ok hmid).2, ih hrest⟩

/-- The laws of a single accepted event. -/
structure StepLaw (s : RunState) (event : Value) (s' : RunState) : Prop where
  seq : s.lastSeq < s'.lastSeq
  /-- The identity moves at a fork marker, or at an admission that is the first one or names
  the identity before it as its parent. -/
  rebinds : s'.runId ≠ s.runId → kindOf event = some .runForked ∨
    (kindOf event = some .runQueued ∨ kindOf event = some .runStarted) ∧
      (s.runId = none ∨ event.getStr "parent_run_id" = s.runId)
  carries : kindOf event ∉ [some .runQueued, some .runStarted, some .runForked] →
    s.runId = none ∨ event.getStr "run_id" = s.runId
  package : s.packageSha256.isSome = true → s'.packageSha256 = s.packageSha256
  generator : s.generatorId.isSome = true → s'.generatorId = s.generatorId
  restart : s.terminal.any TerminalState.isFinal = true →
    kindOf event ∈ [some .runQueued, some .runStarted, some .runResumed]
  ends : kindOf event ∈ [some .runFinished, some .runError, some .runCanceled] →
    s'.terminal.any TerminalState.isFinal = true

theorem checkSeq_lt {last next : Nat} (hseq : (event.getU64 "seq").isSome = true)
    (h : checkSeq last event = .ok next) : last < next := by
  obtain ⟨seq, hsome⟩ := Option.isSome_iff_exists.mp hseq
  simp only [checkSeq, hsome] at h
  split_ifs at h with hzero hle
  cases h
  omega

theorem checkIdentity_eq (h : checkIdentity s.runId kind.name event = .ok ())
    (hid : (event.getStr "run_id").isSome = true) (hkind : kind ≠ .runQueued)
    (hkind' : kind ≠ .runStarted) (hkind'' : kind ≠ .runForked) :
    s.runId = none ∨ event.getStr "run_id" = s.runId := by
  obtain ⟨actual, hactual⟩ := Option.isSome_iff_exists.mp hid
  cases hexpected : s.runId with
  | none => exact .inl rfl
  | some expected =>
    right
    rw [hactual, Option.some.injEq]
    simp only [checkIdentity, hexpected, hactual] at h
    split_ifs at h with hmismatch
    by_contra hne
    apply hmismatch
    have hname : ¬ kind.name = "run_queued" ∧ ¬ kind.name = "run_started" ∧
        ¬ kind.name = "run_forked" :=
      ⟨fun hn => hkind (EventKind.name_injective hn),
        fun hn => hkind' (EventKind.name_injective hn),
        fun hn => hkind'' (EventKind.name_injective hn)⟩
    simpa [hne] using hname

theorem checkLineage_eq (h : checkLineage s.runId event = .ok ())
    (hid : (event.getStr "run_id").isSome = true) (hne : event.getStr "run_id" ≠ s.runId) :
    s.runId = none ∨ event.getStr "parent_run_id" = s.runId := by
  obtain ⟨next, hnext⟩ := Option.isSome_iff_exists.mp hid
  cases hprevious : s.runId with
  | none => exact .inl rfl
  | some previous =>
    right
    simp only [checkLineage, hprevious, hnext] at h
    split_ifs at h with hforeign
    by_contra hparent
    apply hforeign
    refine ⟨?_, hparent⟩
    rintro rfl
    exact hne (hnext.trans hprevious.symm)

theorem applyChecked_law (h : s.applyChecked api event = .ok s') : StepLaw s event s' := by
  obtain ⟨⟨e, he⟩, h⟩ := applyChecked_eq_ok h
  obtain ⟨hseq, -, hid⟩ := RunEvent.fromFlat_eq_ok he
  obtain ⟨kind, h⟩ := accepted_of_apply h
  have hkind := h.kindOf_eq
  have hrunId : (event.getStr "run_id").isSome = true := by simp [hid]
  refine ⟨checkSeq_lt (by simp [hseq]) h.seq, ?_, ?_, ?_, ?_, ?_, ?_⟩
  · intro hmoved
    rcases kind.isRecord_or with hrecord | rfl | rfl | hidentity
    · exact absurd (h.record hrecord).1 hmoved
    · exact .inl hkind
    · exact absurd h.elapsed.2.1 hmoved
    · obtain ⟨hbound, hlineage, -⟩ := h.admitted hidentity
      rw [hbound] at hmoved
      right
      refine ⟨?_, checkLineage_eq hlineage hrunId hmoved⟩
      rcases hidentity with rfl | rfl
      · exact .inl hkind
      · exact .inr hkind
  · intro hother
    simp only [hkind, List.mem_cons, Option.some.injEq, List.not_mem_nil, or_false,
      not_or] at hother
    exact checkIdentity_eq h.identity hrunId hother.1 hother.2.1 hother.2.2
  · intro hrecorded
    rcases kind.isRecord_or with hrecord | rfl | rfl | hidentity
    · exact congrArg Facets.packageSha256 (h.record hrecord).2
    · exact congrArg Facets.packageSha256 h.forked.2
    · obtain ⟨-, -, next, -, -, hfacets⟩ := h.elapsed
      exact congrArg Facets.packageSha256 hfacets
    · obtain ⟨-, -, hsame, mode, -, -, hfacets⟩ := h.admitted hidentity
      exact (congrArg Facets.packageSha256 hfacets).trans (hsame hrecorded).symm
  · intro hrecorded
    rcases kind.isRecord_or with hrecord | rfl | rfl | hidentity
    · exact congrArg Facets.generatorId (h.record hrecord).2
    · exact congrArg Facets.generatorId h.forked.2
    · obtain ⟨-, -, next, -, -, hfacets⟩ := h.elapsed
      exact congrArg Facets.generatorId hfacets
    · obtain ⟨-, -, -, mode, -, -, hfacets⟩ := h.admitted hidentity
      refine (congrArg Facets.generatorId hfacets).trans ?_
      obtain ⟨id, hgenerator⟩ := Option.isSome_iff_exists.mp hrecorded
      have hfacet : s.facets.generatorId = some id := hgenerator
      simp [admitFacets, hfacet, hgenerator]
  · intro hfinal
    have hrunning := h.running
    simp only [checkTerminal, hfinal, Bool.true_and] at hrunning
    rw [hkind]
    cases kind <;> simp at hrunning ⊢
  · intro hends
    rw [hkind] at hends
    simp only [List.mem_cons, Option.some.injEq, List.not_mem_nil, or_false] at hends
    rcases hends with rfl | rfl | rfl
    all_goals
      rw [show s'.terminal = _ from congrArg Facets.terminal (h.record rfl).2]
      simp only [Facets.step, terminalStep, FoldState.terminalOf]
      try split_ifs
      all_goals rfl

theorem Accepted.getU64_seq {kind : EventKind} {seq : Nat} (h : Accepted api s kind event s')
    (hseq : event.getU64 "seq" = some seq) : seq = s'.lastSeq ∧ s.lastSeq < s'.lastSeq := by
  have hcheck := h.seq
  simp only [checkSeq, hseq] at hcheck
  split_ifs at hcheck with hzero hle
  rw [Except.ok.injEq] at hcheck
  omega

theorem applyChecked_seq (h : s.applyChecked api event = .ok s') :
    event.getU64 "seq" = some s'.lastSeq ∧ s.lastSeq < s'.lastSeq := by
  obtain ⟨⟨parsed, hparsed⟩, happly⟩ := applyChecked_eq_ok h
  obtain ⟨hseq, -, -⟩ := RunEvent.fromFlat_eq_ok hparsed
  obtain ⟨kind, hs⟩ := accepted_of_apply happly
  obtain ⟨heq, hlt⟩ := hs.getU64_seq hseq
  exact ⟨heq ▸ hseq, hlt⟩

theorem foldFrom_recorded {events : List Value} (h : foldFrom api s events = .ok s') :
    (∀ package, s.packageSha256 = some package → s'.packageSha256 = some package) ∧
      ∀ generator, s.generatorId = some generator → s'.generatorId = some generator := by
  induction events generalizing s with
  | nil =>
    cases h
    exact ⟨fun _ => id, fun _ => id⟩
  | cons event events ih =>
    obtain ⟨mid, hmid, hrest⟩ := foldlM_cons_eq_ok.mp h
    have hlaw := applyChecked_law hmid
    obtain ⟨hpackage, hgenerator⟩ := ih hrest
    constructor
    · intro package hs
      exact hpackage package ((hlaw.package (by simp [hs])).trans hs)
    · intro generator hs
      exact hgenerator generator ((hlaw.generator (by simp [hs])).trans hs)

/-- Identity, end and counters along every journal that the fold accepts. -/
theorem fold_identity_and_counters {events : List Value} {s : RunState}
    (h : foldValues api events = .ok s) :
    (∀ before event after, events = before ++ event :: after →
      ∃ p q, foldValues api before = .ok p ∧ p.applyChecked api event = .ok q ∧
        StepLaw p event q) ∧
    (∀ before after p, events = before ++ after → foldValues api before = .ok p →
      (∀ package, p.packageSha256 = some package → s.packageSha256 = some package) ∧
      (∀ generator, p.generatorId = some generator → s.generatorId = some generator) ∧
      ∀ counter, p.budget.count counter ≤ s.budget.count counter) ∧
    ∀ counter, s.budget.count counter = (events.map (eventIncrement counter)).sum := by
  refine ⟨?_, ?_, ?_⟩
  · intro before event after hsplit
    rw [hsplit] at h
    obtain ⟨p, hp, hrest⟩ := Except.foldlM_append_eq_ok.mp h
    obtain ⟨q, hq, -⟩ := foldlM_cons_eq_ok.mp hrest
    exact ⟨p, q, hp, hq, applyChecked_law hq⟩
  · intro before after p hsplit hp
    rw [hsplit] at h
    obtain ⟨p', hp', hrest⟩ := Except.foldlM_append_eq_ok.mp h
    rw [show before.foldlM (applyChecked api) {} = .ok p from hp] at hp'
    cases hp'
    obtain ⟨hpackage, hgenerator⟩ := foldFrom_recorded hrest
    refine ⟨hpackage, hgenerator, fun counter => ?_⟩
    rw [foldlM_count (foldlM_apply_of_foldFrom hrest) counter]
    exact Nat.le_add_right _ _
  · intro counter
    rw [foldlM_count (foldlM_apply_of_foldFrom h) counter]
    cases counter <;> exact Nat.zero_add _

end RunState

def journaled (seq : Nat) (kind : EventKind) (runId : String) (payload : Members) : Value :=
  .obj ([("t", .str kind.name), ("ts", .str "now"), ("seq", .num seq), ("run_id", .str runId),
    ("trace_id", .str "trace"), ("span_id", .str "span")] ++ payload)

def forkedEvents : List Value :=
  [journaled 1 .runQueued "source" [], journaled 2 .stepStarted "source" [],
    journaled 3 .runForked "fork" []]

def forkedState : RunState :=
  (RunState.foldValues .plain forkedEvents).toOption.get (by decide +kernel)

theorem fold_identity_and_counters_forked :
    RunState.foldValues .plain forkedEvents = .ok forkedState ∧
      forkedState.budget.count .stepsExecuted =
        (forkedEvents.map (eventIncrement .stepsExecuted)).sum := by
  have hfold : RunState.foldValues .plain forkedEvents = .ok forkedState := by decide +kernel
  exact ⟨hfold, (RunState.fold_identity_and_counters hfold).2.2 .stepsExecuted⟩

/-- A fork marker moves the identity although it is no admission. -/
theorem marker_rebinds :
    (RunState.foldValues .plain (forkedEvents.take 2)).map RunState.runId = .ok (some "source") ∧
      (RunState.foldValues .plain forkedEvents).map RunState.runId = .ok (some "fork") := by
  decide +kernel

end Qcg
