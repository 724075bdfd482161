import Qcg.State.Steps
import Mathlib.Data.List.Chain

/-!
# The ledger of active execution time

Admission opens the ledger and only `elapsed_accounted` writes it. From then on its mode
stays, its episodes open and close in turn and its total never falls, whatever else the
journal records in between.
-/

namespace Qcg

open Json (Value Members)

variable {next : ElapsedAccounted}

namespace ElapsedAccounted

/-- An episode is open while its start is on record. -/
def isOpen (l : ElapsedAccounted) : Bool := l.activeStartedAt.isSome

/-- One entry of the ledger after another. -/
def Follows (l next : ElapsedAccounted) : Prop :=
  FoldState.legalElapsed (some l) next = true

theorem Follows.flips {l : ElapsedAccounted} (h : l.Follows next) : l.isOpen ≠ next.isOpen := by
  unfold Follows FoldState.legalElapsed at h
  unfold isOpen
  cases hl : l.activeStartedAt <;> cases hn : next.activeStartedAt <;> simp_all

theorem Follows.total_le {l : ElapsedAccounted} (h : l.Follows next) :
    l.activeNanoseconds ≤ next.activeNanoseconds := by
  unfold Follows FoldState.legalElapsed at h
  cases hl : l.activeStartedAt <;> cases hn : next.activeStartedAt <;> simp_all

end ElapsedAccounted

def ledgerEntry (api : Api) (event : Value) : Option ElapsedAccounted :=
  if event.getStr "t" = some EventKind.elapsedAccounted.name then
    (FoldState.elapsedOf api event).toOption
  else none

def ledgerEntries (api : Api) (events : List Value) : List ElapsedAccounted :=
  events.filterMap (ledgerEntry api)

/-- The part of the budget that admission and the ledger write. -/
def BudgetState.clock (b : BudgetState) :
    ElapsedBudgetMode × Option ElapsedAccounted × Option String :=
  (b.elapsedBudgetMode, b.elapsed, b.startedAt)

theorem BudgetState.step_clock (b : BudgetState) (kind : EventKind) (event : Value) :
    (b.step kind event).clock = b.clock := by
  unfold BudgetState.step
  split
  case h_6 =>
    simp only
    split_ifs <;> rfl
  all_goals rfl

namespace EventKind

theorem name_injective {a b : EventKind} (h : a.name = b.name) : a = b := by
  have hname := congrArg ofName h
  rwa [ofName_name, ofName_name, Option.some.injEq] at hname

/-- The kinds with an arm of their own in `applyKind`. -/
theorem isRecord_or (kind : EventKind) : kind.isRecord = true ∨ kind = .runForked ∨
    kind = .elapsedAccounted ∨ kind = .runQueued ∨ kind = .runStarted := by
  cases kind <;> simp [isRecord]

end EventKind

theorem ledgerEntry_of_ne {api : Api} {event : Value} {kind : EventKind}
    (hkind : event.getStr "t" = some kind.name) (hne : kind ≠ .elapsedAccounted) :
    ledgerEntry api event = none := by
  unfold ledgerEntry
  rw [if_neg]
  rw [hkind, Option.some.injEq]
  exact fun hname => hne (EventKind.name_injective hname)

namespace RunState

variable {api : Api} {s s' : RunState} {event : Value} {kind : EventKind} {l : ElapsedAccounted}

theorem noteBudget_clock (b : BudgetState) : (noteBudget b kind event).clock = b.clock := by
  unfold noteBudget FoldState.noteSearchCost
  split_ifs <;> rfl

theorem Accepted.record_clock (h : Accepted api s kind event s') (hrecord : kind.isRecord = true) :
    s'.budget.clock = s.budget.clock := by
  obtain ⟨-, hfacets⟩ := h.record hrecord
  have hbudget : s'.budget = (noteBudget s.budget kind event).step kind event :=
    congrArg Facets.budget hfacets
  rw [hbudget, BudgetState.step_clock, noteBudget_clock]

/-- What holds of a budget with a ledger: its run was admitted at some time under active
accounting, and the entry itself is well formed. -/
def LedgerValid (api : Api) (b : BudgetState) : Prop :=
  ∀ l, b.elapsed = some l → b.startedAt.isSome = true ∧ b.elapsedBudgetMode = .activeExecution ∧
    l.activeNanoseconds < 2 ^ 64 ∧ ∀ anchor, l.activeStartedAt = some anchor →
      api.rfc3339 anchor = true

theorem LedgerValid.of_clock {b b' : BudgetState} (h : b'.clock = b.clock)
    (hvalid : LedgerValid api b) : LedgerValid api b' := by
  simp only [BudgetState.clock, Prod.mk.injEq] at h
  unfold LedgerValid
  rw [h.1, h.2.1, h.2.2]
  exact hvalid

theorem elapsedOf_eq_ok (h : FoldState.elapsedOf api event = .ok next) :
    next.activeNanoseconds < 2 ^ 64 ∧ ∀ anchor, next.activeStartedAt = some anchor →
      api.rfc3339 anchor = true := by
  obtain ⟨total, -, h⟩ := Except.bind_eq_ok.mp h
  obtain ⟨anchor, -, h⟩ := Except.bind_eq_ok.mp h
  simp only at h
  split at h
  · next n hn =>
    have hbound := (Value.asU64_eq_some hn).2
    obtain ⟨_, hok, h⟩ := Except.bind_eq_ok.mp h
    cases hok
    split at h
    · obtain ⟨_, hok, h⟩ := Except.bind_eq_ok.mp h
      cases hok
      cases h
      exact ⟨hbound, by simp⟩
    · next text =>
      obtain ⟨_, hok, h⟩ := Except.bind_eq_ok.mp h
      cases hok
      simp only at h
      split_ifs at h with hvalid
      · cases h
        exact ⟨hbound, by simpa using hvalid⟩
      · cases h
    · obtain ⟨_, hrefused, -⟩ := Except.bind_eq_ok.mp h
      cases hrefused
  · obtain ⟨_, hrefused, -⟩ := Except.bind_eq_ok.mp h
    cases hrefused

theorem apply_ledgerValid (h : s.apply api event = .ok s')
    (hts : (event.getStr "ts").isSome = true) (hvalid : LedgerValid api s.budget) :
    LedgerValid api s'.budget := by
  obtain ⟨kind, h⟩ := accepted_of_apply h
  rcases kind.isRecord_or with hrecord | rfl | rfl | hidentity
  · exact hvalid.of_clock (h.record_clock hrecord)
  · rw [show s'.budget = s.budget from congrArg Facets.budget h.forked.2]
    exact hvalid
  · obtain ⟨hmode, -, next, hnext, hlegal, hfacets⟩ := h.elapsed
    rw [show s'.budget = { s.budget with elapsed := some next } from
      congrArg Facets.budget hfacets]
    intro l hl
    cases hl
    -- Without a ledger no entry is legal.
    cases helapsed : s.budget.elapsed with
    | none => simp [FoldState.legalElapsed, helapsed] at hlegal
    | some previous => exact ⟨(hvalid previous helapsed).1, hmode, elapsedOf_eq_ok hnext⟩
  · obtain ⟨-, -, -, mode, -, hsame, hfacets⟩ := h.admitted hidentity
    rw [show s'.budget = _ from congrArg Facets.budget hfacets]
    intro l hl
    have hdated : (s.budget.startedAt.or (event.getStr "ts")).isSome = true := by simp [hts]
    cases helapsed : s.budget.elapsed with
    | none =>
      have hopened : (openLedger s.budget mode).elapsed = some l := hl
      simp only [openLedger, helapsed, Option.none_or] at hopened
      split_ifs at hopened with hmode
      cases hopened
      exact ⟨hdated, hmode, by simp, by simp⟩
    | some previous =>
      have hopened : (openLedger s.budget mode).elapsed = some l := hl
      obtain ⟨hstarted, hactive, hentry⟩ := hvalid previous helapsed
      have hmode : mode = .activeExecution := (hsame hstarted).symm.trans hactive
      simp only [openLedger, helapsed, Option.some_or, ite_self, Option.some.injEq] at hopened
      subst hopened
      exact ⟨hdated, hmode, hentry⟩

theorem apply_ledger (h : s.apply api event = .ok s') (hvalid : LedgerValid api s.budget)
    (hl : s.budget.elapsed = some l) :
    s'.budget.elapsedBudgetMode = s.budget.elapsedBudgetMode ∧
      ∃ l', s'.budget.elapsed = some l' ∧
        (ledgerEntry api event = none ∧ l' = l ∨ ledgerEntry api event = some l' ∧
          l.Follows l') := by
  obtain ⟨kind, h⟩ := accepted_of_apply h
  rcases kind.isRecord_or with hrecord | rfl | rfl | hidentity
  · have hclock := h.record_clock hrecord
    simp only [BudgetState.clock, Prod.mk.injEq] at hclock
    have hnone : ledgerEntry api event = none :=
      ledgerEntry_of_ne h.kind_eq (by rintro rfl; simp [EventKind.isRecord] at hrecord)
    exact ⟨hclock.1, l, hclock.2.1.trans hl, .inl ⟨hnone, rfl⟩⟩
  · have hbudget : s'.budget = s.budget := congrArg Facets.budget h.forked.2
    rw [hbudget]
    exact ⟨rfl, l, hl, .inl ⟨ledgerEntry_of_ne h.kind_eq (by decide), rfl⟩⟩
  · obtain ⟨-, -, next, hnext, hlegal, hfacets⟩ := h.elapsed
    have hbudget : s'.budget = { s.budget with elapsed := some next } :=
      congrArg Facets.budget hfacets
    rw [hl] at hlegal
    have hentry : ledgerEntry api event = some next := by
      rw [ledgerEntry, if_pos h.kind_eq, hnext]
      rfl
    rw [hbudget]
    exact ⟨rfl, next, rfl, .inr ⟨hentry, hlegal⟩⟩
  · obtain ⟨-, -, -, mode, -, hsame, hfacets⟩ := h.admitted hidentity
    have hbudget := congrArg Facets.budget hfacets
    have hmode : s.budget.elapsedBudgetMode = mode := hsame (hvalid l hl).1
    have hnone : ledgerEntry api event = none :=
      ledgerEntry_of_ne h.kind_eq (by rcases hidentity with rfl | rfl <;> decide)
    refine ⟨?_, l, ?_, .inl ⟨hnone, rfl⟩⟩
    · rw [show s'.budget = _ from hbudget]
      exact hmode.symm
    · rw [show s'.budget = _ from hbudget]
      have hkept : s.facets.budget.elapsed = some l := hl
      simp [admitFacets, openLedger, hkept]

theorem foldlM_ledger {events : List Value} (h : events.foldlM (RunState.apply api) s = .ok s')
    (hts : ∀ event ∈ events, (event.getStr "ts").isSome = true)
    (hvalid : LedgerValid api s.budget) (hl : s.budget.elapsed = some l) :
    s'.budget.elapsedBudgetMode = s.budget.elapsedBudgetMode ∧
      (l :: ledgerEntries api events).IsChain ElapsedAccounted.Follows ∧
      s'.budget.elapsed = some ((ledgerEntries api events).getLastD l) := by
  induction events generalizing s l with
  | nil =>
    cases h
    exact ⟨rfl, by simp [ledgerEntries], hl⟩
  | cons event events ih =>
    obtain ⟨mid, hmid, hrest⟩ := Except.foldlM_cons_eq_ok.mp h
    have hvalid' := apply_ledgerValid hmid (hts event (by simp)) hvalid
    obtain ⟨hmode, l', hl', hentry⟩ := apply_ledger hmid hvalid hl
    obtain ⟨hmode', hchain, hlast⟩ := ih hrest (fun e he => hts e (by simp [he])) hvalid' hl'
    refine ⟨hmode'.trans hmode, ?_⟩
    rcases hentry with ⟨hnone, rfl⟩ | ⟨hsome, hfollows⟩
    · have hentries : ledgerEntries api (event :: events) = ledgerEntries api events := by
        simp [ledgerEntries, hnone]
      rw [hentries]
      exact ⟨hchain, hlast⟩
    · have hentries : ledgerEntries api (event :: events) = l' :: ledgerEntries api events := by
        simp [ledgerEntries, hsome]
      rw [hentries, List.getLastD_cons]
      exact ⟨List.isChain_cons_cons.mpr ⟨hfollows, hchain⟩, hlast⟩

theorem foldlM_ledgerValid {events : List Value}
    (h : events.foldlM (RunState.apply api) s = .ok s')
    (hts : ∀ event ∈ events, (event.getStr "ts").isSome = true)
    (hvalid : LedgerValid api s.budget) : LedgerValid api s'.budget :=
  Except.foldlM_induction (P := fun s => LedgerValid api s.budget) h hvalid
    fun _ event _ hevent hvalid hstep => apply_ledgerValid hstep (hts event hevent) hvalid

end RunState

namespace ElapsedAccounted

theorem total_le_getLastD {l : ElapsedAccounted} {entries : List ElapsedAccounted}
    (h : (l :: entries).IsChain Follows) :
    l.activeNanoseconds ≤ (entries.getLastD l).activeNanoseconds := by
  induction entries generalizing l with
  | nil => simp
  | cons next entries ih =>
    obtain ⟨hnext, hrest⟩ := List.isChain_cons_cons.mp h
    rw [List.getLastD_cons]
    exact hnext.total_le.trans (ih hrest)

end ElapsedAccounted

end Qcg
