import Qcg.State.Facets

/-!
# One accepted event

What `RunState.apply` has checked when it accepts an event, and what it has then done to
the identity and to the accounts of the run.
-/

namespace Qcg

open Except (bind_eq_ok)

open Json (Value Members)

namespace RunState

variable {api : Api} {s s' : RunState} {event : Value} {kind : EventKind}

structure Accepted (api : Api) (s : RunState) (kind : EventKind) (event : Value)
    (s' : RunState) : Prop where
  kind_eq : event.getStr "t" = some kind.name
  seq : checkSeq s.lastSeq event = .ok s'.lastSeq
  identity : checkIdentity s.runId kind.name event = .ok ()
  running : checkTerminal s.terminal kind = .ok ()
  schema : checkSchema kind event = .ok ()
  arm : applyKind api
    { s with lastSeq := s'.lastSeq, toFoldState := s.toFoldState.noteSearchCost kind event }
    kind event = .ok s'

theorem applyKind_lastSeq (h : s.applyKind api kind event = .ok s') : s'.lastSeq = s.lastSeq := by
  have hidentity : s.applyIdentity kind event = .ok s' → s'.lastSeq = s.lastSeq := by
    intro h
    obtain ⟨_, _, h⟩ := bind_eq_ok.mp h
    obtain ⟨_, _, h⟩ := bind_eq_ok.mp h
    obtain ⟨_, _, h⟩ := bind_eq_ok.mp h
    obtain ⟨_, _, h⟩ := bind_eq_ok.mp h
    cases h
    rfl
  cases kind
  case runQueued => exact hidentity h
  case runStarted => exact hidentity h
  case runForked =>
    cases h
    rfl
  all_goals
    obtain ⟨_, _, h⟩ := bind_eq_ok.mp h
    cases h
    rfl

theorem accepted_of_apply (h : s.apply api event = .ok s') :
    ∃ kind, Accepted api s kind event s' := by
  obtain ⟨lastSeq, hseq, h⟩ := bind_eq_ok.mp h
  obtain ⟨name, hname, h⟩ := bind_eq_ok.mp h
  obtain ⟨_, hidentity, h⟩ := bind_eq_ok.mp h
  obtain ⟨kind, hkind, h⟩ := bind_eq_ok.mp h
  obtain ⟨_, hterminal, h⟩ := bind_eq_ok.mp h
  obtain ⟨_, hschema, harm⟩ := bind_eq_ok.mp h
  rw [FoldState.required_eq_ok] at hname hkind
  have hlast : s'.lastSeq = lastSeq := applyKind_lastSeq harm
  rw [← EventKind.name_of_ofName hkind] at hname hidentity
  subst hlast
  exact ⟨kind, hname, hseq, hidentity, hterminal, hschema, harm⟩

/-- The budget with the search liability of a record noted. -/
def noteBudget (b : BudgetState) (kind : EventKind) (event : Value) : BudgetState :=
  ({ budget := b } : FoldState).noteSearchCost kind event |>.budget

variable (f : FoldState)

theorem noteSearchCost_facets :
    (f.noteSearchCost kind event).facets =
      { f.facets with budget := noteBudget f.budget kind event } := by
  unfold noteBudget FoldState.noteSearchCost
  split_ifs <;> rfl

theorem Accepted.record (h : Accepted api s kind event s') (hrecord : kind.isRecord = true) :
    s'.runId = s.runId ∧ s'.facets = Facets.step api
      { s.facets with budget := noteBudget s.budget kind event } kind event := by
  obtain ⟨f, hf, hs'⟩ := applyKind_record hrecord h.arm
  constructor
  · rw [hs']
  · rw [show s'.toFoldState = f by rw [hs'], FoldState.applyRecord_facets hf, noteSearchCost_facets]

theorem Accepted.armOf (h : Accepted api s kind event s') (hrecord : kind.isRecord = false) :
    applyKind api { s with lastSeq := s'.lastSeq } kind event = .ok s' := by
  have harm := h.arm
  rwa [noteSearchCost_eq _ (by rintro rfl; simp [EventKind.isRecord] at hrecord)
    (by rintro rfl; simp [EventKind.isRecord] at hrecord)] at harm

theorem Accepted.forked (h : Accepted api s .runForked event s') :
    s'.runId = event.getStr "run_id" ∧ s'.facets = s.facets := by
  have harm := h.armOf rfl
  rw [applyKind, Except.ok.injEq] at harm
  constructor
  · rw [← harm]
  · rw [← harm]

theorem Accepted.elapsed (h : Accepted api s .elapsedAccounted event s') :
    s.budget.elapsedBudgetMode = .activeExecution ∧ s'.runId = s.runId ∧
      ∃ next, FoldState.elapsedOf api event = .ok next ∧
        FoldState.legalElapsed s.budget.elapsed next = true ∧
        s'.facets = { s.facets with budget := { s.budget with elapsed := some next } } := by
  obtain ⟨f, hf, hs'⟩ := bind_eq_ok.mp (h.armOf rfl)
  unfold FoldState.applyElapsedAccounted at hf
  split_ifs at hf with hactive
  · obtain ⟨_, hrefused, -⟩ := bind_eq_ok.mp hf
    cases hrefused
  · obtain ⟨next, hnext, hf⟩ := bind_eq_ok.mp hf
    split_ifs at hf with hlegal
    rw [not_or, not_not] at hactive
    cases hf
    rw [Except.pure_eq_ok] at hs'
    refine ⟨hactive.1, ?_, next, hnext, hlegal, ?_⟩
    · rw [← hs']
    · rw [← hs']
      rfl

/-- The ledger of a run that is admitted under an accounting mode. -/
def openLedger (b : BudgetState) (mode : ElapsedBudgetMode) : BudgetState :=
  { b with
    elapsedBudgetMode := mode
    elapsed :=
      if mode = .activeExecution then
        b.elapsed.or (some { activeNanoseconds := 0, activeStartedAt := none })
      else b.elapsed }

variable {f' : FoldState}

theorem identityLedger_eq_ok {f : FoldState} {mode : ElapsedBudgetMode}
    (h : identityLedger f mode = .ok f') :
    f' = { f with budget := openLedger f.budget mode } ∧
      (f.budget.startedAt.isSome = true → f.budget.elapsedBudgetMode = mode) := by
  unfold identityLedger at h
  split_ifs at h with hchanged hnew hold
  · rw [not_and, not_not] at hchanged
    cases h
    obtain ⟨hmode, hnone⟩ := hnew
    rw [Option.isNone_iff_eq_none] at hnone
    exact ⟨by simp [openLedger, hmode, hnone], hchanged⟩
  · rw [not_and, not_not] at hchanged
    cases h
    refine ⟨?_, hchanged⟩
    by_cases hmode : mode = .activeExecution
    · cases helapsed : f.budget.elapsed with
      | none => exact absurd ⟨hmode, by simp [helapsed]⟩ hnew
      | some ledger => simp [openLedger, helapsed]
    · simp [openLedger, hmode]

/-- The answers and decisions that come with the admission. -/
def admitResponses (r : Responses) (event : Value) : Responses :=
  { r with
    answers := BTreeMap.extend r.answers ((FoldState.objectField event "answers").getD [])
    confirmations := BTreeMap.extend r.confirmations
      (boolMembers ((FoldState.objectField event "confirmations").getD [])) }

def admitFacets (f : Facets) (kind : EventKind) (event : Value) (mode : ElapsedBudgetMode) :
    Facets :=
  { f with
    contractSha256 := event.getStr "contract_sha256"
    packageSha256 := event.getStr "package_sha256"
    generatorId := f.generatorId.or ((event.getStr "generator").map generatorIdOf)
    executionStarted := if kind = .runStarted then true else f.executionStarted
    budget := { openLedger f.budget mode with
      startedAt := f.budget.startedAt.or (event.getStr "ts") }
    terminal := none
    responses := if kind = .runQueued then admitResponses f.responses event else f.responses }

theorem admitPackage_eq_ok {f : FoldState} (h : admitPackage f event = .ok f') :
    (f.packageSha256.isSome = true → f.packageSha256 = event.getStr "package_sha256") ∧
      f'.facets = { f.facets with
        contractSha256 := event.getStr "contract_sha256"
        packageSha256 := event.getStr "package_sha256"
        generatorId := f.generatorId.or ((event.getStr "generator").map generatorIdOf)
        budget := { f.budget with startedAt := f.budget.startedAt.or (event.getStr "ts") }
        terminal := none } := by
  unfold admitPackage at h
  simp only at h
  split_ifs at h with hchanged
  rw [not_and, not_not] at hchanged
  refine ⟨hchanged, ?_⟩
  cases h
  cases FoldState.objectField event "inputs" <;> rfl

theorem admitQueued_facets :
    (admitQueued f event).facets =
      { f.facets with responses := admitResponses f.responses event } := by
  unfold admitQueued
  cases (event.get "priority").bind Value.asI64 <;> rfl

theorem admitLabels_facets : (admitLabels f event).facets = f.facets := by
  unfold admitLabels
  cases FoldState.objectField event "labels" <;> rfl

theorem Accepted.admitted (h : Accepted api s kind event s')
    (hkind : kind = .runQueued ∨ kind = .runStarted) :
    s'.runId = event.getStr "run_id" ∧ checkLineage s.runId event = .ok () ∧
      (s.packageSha256.isSome = true → s.packageSha256 = event.getStr "package_sha256") ∧
      ∃ mode, identityMode event = .ok mode ∧
        (s.budget.startedAt.isSome = true → s.budget.elapsedBudgetMode = mode) ∧
        s'.facets = admitFacets s.facets kind event mode := by
  have harm : applyIdentity { s with lastSeq := s'.lastSeq } kind event = .ok s' := by
    rcases hkind with rfl | rfl <;> exact h.armOf rfl
  obtain ⟨mode, hmode, harm⟩ := bind_eq_ok.mp harm
  obtain ⟨f, hf, harm⟩ := bind_eq_ok.mp harm
  obtain ⟨_, hlineage, harm⟩ := bind_eq_ok.mp harm
  obtain ⟨g, hg, hend⟩ := bind_eq_ok.mp harm
  obtain ⟨hledger, hsame⟩ := identityLedger_eq_ok hf
  rw [hledger] at hg
  obtain ⟨hpackage, hfacets⟩ := admitPackage_eq_ok hg
  rw [Except.pure_eq_ok] at hend
  refine ⟨?_, hlineage, hpackage, mode, hmode, hsame, ?_⟩
  · rw [← hend]
  · rw [← hend, admitLabels_facets]
    rcases hkind with rfl | rfl
    · have hresponses : g.responses = s.responses := congrArg Facets.responses hfacets
      simp only [if_true, reduceCtorEq, if_false]
      rw [admitQueued_facets, hresponses, hfacets]
      rfl
    · exact congrArg (fun f : Facets => { f with executionStarted := true }) hfacets

end RunState

end Qcg
