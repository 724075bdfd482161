import Qcg.Service.ForkStreams

/-!
# Folding the records of a fork

The fold of the rewritten records follows the fold of the source: after every record of the
source the fork has the same carried state, is still running and has the fork's identity.
-/

namespace Qcg

open Except (bind_eq_ok ok_of_map_eq)

open Json (Value Members)
open Except (Respects respects_of_view map_bind_congr map_ite_congr)

variable {f : FoldState} {g : FoldState}

namespace RunState

variable {api : Api} {e e' event : Value} {kind : EventKind} {s s' t : RunState}

theorem apply_of_checks {lastSeq : Nat} (hkind : event.getStr "t" = some kind.name)
    (hseq : checkSeq s.lastSeq event = .ok lastSeq)
    (hidentity : checkIdentity s.runId kind.name event = .ok ())
    (hrunning : checkTerminal s.terminal kind = .ok ())
    (hschema : checkSchema kind event = .ok ()) :
    s.apply api event =
      applyKind api { s with lastSeq, toFoldState := s.toFoldState.noteSearchCost kind event }
        kind event := by
  simp only [apply, hseq, hkind, required, hidentity, EventKind.ofName_name, hrunning, hschema,
    bind, Except.bind]

theorem applyKind_of_record (hrecord : kind.isRecord = true) :
    s.applyKind api kind event =
      (s.toFoldState.applyRecord api kind event).map fun f => { s with toFoldState := f } := by
  cases kind <;> simp only [EventKind.isRecord, Bool.false_eq_true] at hrecord <;> rfl

/-- What an admission leaves in the folded state once package and ledger are checked. -/
def admitRest (kind : EventKind) (event : Value) (f : FoldState) : FoldState :=
  let f := if kind = .runQueued then admitQueued f event else f
  let f := if kind = .runStarted then { f with executionStarted := true } else f
  admitLabels f event

/-- The part of an admission that does not look at the identity before it. -/
def admission (kind : EventKind) (event : Value) (f : FoldState) :
    Except JournalError FoldState := do
  let mode ← identityMode event
  let f ← identityLedger f mode
  let f ← admitPackage f event
  return admitRest kind event f

theorem applyIdentity_eq_ok : s.applyIdentity kind event = .ok s' ↔
    checkLineage s.runId event = .ok () ∧ ∃ f, admission kind event s.toFoldState = .ok f ∧
      s' = { s with toFoldState := f, runId := event.getStr "run_id" } := by
  constructor
  · intro h
    obtain ⟨mode, hmode, h⟩ := bind_eq_ok.mp h
    obtain ⟨f, hf, h⟩ := bind_eq_ok.mp h
    obtain ⟨_, hlineage, h⟩ := bind_eq_ok.mp h
    obtain ⟨g, hg, h⟩ := bind_eq_ok.mp h
    cases h
    refine ⟨hlineage, admitRest kind event g, ?_, rfl⟩
    simp only [admission, hmode, hf, hg, bind, Except.bind]
    rfl
  · rintro ⟨hlineage, f, hf, rfl⟩
    obtain ⟨mode, hmode, hf⟩ := bind_eq_ok.mp hf
    obtain ⟨g, hg, hf⟩ := bind_eq_ok.mp hf
    obtain ⟨g', hg', hf⟩ := bind_eq_ok.mp hf
    cases hf
    simp only [applyIdentity, hmode, hg, hlineage, hg', bind, Except.bind]
    rfl

theorem respects_identityLedger (mode : ElapsedBudgetMode) :
    Respects FoldState.carried fun f => identityLedger f mode := by
  apply respects_of_view
  intro f
  apply map_ite_congr Iff.rfl
  · rfl
  · apply map_ite_congr Iff.rfl
    · apply map_ite_congr Iff.rfl
      · rfl
      · rfl
    · rfl

theorem respects_admitPackage : Respects FoldState.carried fun f => admitPackage f event := by
  apply respects_of_view
  intro f
  apply map_ite_congr Iff.rfl
  · rfl
  · cases FoldState.objectField event "inputs" <;> rfl

theorem carried_admitQueued (f : FoldState) :
    (admitQueued f event).carried = admitQueued f.carried event := by
  unfold admitQueued
  cases (event.get "priority").bind Value.asI64 <;> rfl

theorem carried_admitLabels (f : FoldState) :
    (admitLabels f event).carried = admitLabels f.carried event := by
  unfold admitLabels
  cases FoldState.objectField event "labels" <;> rfl

theorem carried_admitRest (f : FoldState) :
    (admitRest kind event f).carried = admitRest kind event f.carried := by
  unfold admitRest
  rw [carried_admitLabels]
  by_cases hqueued : kind = .runQueued
  · simp only [hqueued, if_true, reduceCtorEq, if_false, carried_admitQueued]
  · simp only [hqueued, if_false]
    split_ifs <;> rfl

theorem respects_admission : Respects FoldState.carried (admission kind event) := by
  intro f g h
  apply map_bind_congr
  intro mode
  exact (respects_identityLedger mode).bind
    (respects_admitPackage.bind (FoldState.respects_total fun f => by
      rw [carried_admitRest, carried_admitRest, FoldState.carried_carried])) f g h

theorem admission_same (h : SamePayload e e') (f : FoldState) :
    admission kind e' f = admission kind e f := by
  have hmode : identityMode e' = identityMode e := by
    simp (disch := decide) only [identityMode, h.get, h.getU64]
  have hpackage (f : FoldState) : admitPackage f e' = admitPackage f e := by
    simp (disch := decide) only [admitPackage, FoldState.objectField, h.get, h.getStr]
  have hrest (f : FoldState) : admitRest kind e' f = admitRest kind e f := by
    simp (disch := decide) only [admitRest, admitQueued, admitLabels, FoldState.objectField,
      FoldState.queuedAtOf, h.get, h.getStr]
  simp only [admission, hmode, hpackage, hrest]

theorem admission_terminal {f' : FoldState} (h : admission kind event f = .ok f') :
    f'.terminal = none := by
  obtain ⟨mode, -, h⟩ := bind_eq_ok.mp h
  obtain ⟨g, -, h⟩ := bind_eq_ok.mp h
  obtain ⟨g', hg', h⟩ := bind_eq_ok.mp h
  cases h
  have hrest : (admitRest kind event g').facets.terminal = g'.facets.terminal := by
    rw [admitRest, admitLabels_facets]
    by_cases hqueued : kind = .runQueued
    · simp only [hqueued, if_true, reduceCtorEq, if_false, admitQueued_facets]
    · simp only [hqueued, if_false]
      split_ifs <;> rfl
  exact hrest.trans (congrArg Facets.terminal (admitPackage_eq_ok hg').2)

theorem respects_applyElapsedAccounted (runId : Option String) :
    Respects FoldState.carried fun f => f.applyElapsedAccounted api runId event := by
  apply respects_of_view
  intro f
  apply map_ite_congr Iff.rfl
  · rfl
  · apply map_bind_congr
    intro next
    apply map_ite_congr Iff.rfl
    · rfl
    · rfl

theorem applyElapsedAccounted_same (h : SamePayload e e') (f : FoldState) (runId : Option String) :
    f.applyElapsedAccounted api runId e' = f.applyElapsedAccounted api runId e := by
  have helapsed : FoldState.elapsedOf api e' = FoldState.elapsedOf api e := by
    simp (disch := decide) only [FoldState.elapsedOf, h.get]
  simp only [FoldState.applyElapsedAccounted, helapsed]

variable {runId : Option String}

theorem applyElapsedAccounted_terminal (h : f.applyElapsedAccounted api runId event = .ok g) :
    g.terminal = f.terminal := by
  unfold FoldState.applyElapsedAccounted at h
  split_ifs at h
  · obtain ⟨_, hrefused, -⟩ := bind_eq_ok.mp h
    cases hrefused
  · obtain ⟨next, -, h⟩ := bind_eq_ok.mp h
    split_ifs at h
    cases h
    rfl

/-- The ledger asks only whether there is an identity. -/
theorem applyElapsedAccounted_congr {runId' : Option String} (f : FoldState)
    (h : runId = none ↔ runId' = none) :
    f.applyElapsedAccounted api runId event = f.applyElapsedAccounted api runId' event := by
  simp only [FoldState.applyElapsedAccounted, h]

end RunState

namespace Fork

variable {api : Api} {e w event : Value} {kind : EventKind} {s s' t : RunState}
  {targetId : String} {seq : Nat}

/-- The fork has the carried state of the source, still runs, and has its own identity as soon
as the source has one. -/
structure Follows (targetId : String) (s t : RunState) : Prop where
  carried : t.toFoldState.carried = s.toFoldState.carried
  running : t.terminal = none
  identity : t.runId = s.runId.map fun _ => targetId

/-- A record of the source at its place in the fork. -/
structure Placed (targetId : String) (seq : Nat) (e w : Value) : Prop where
  same : SamePayload e w
  seq : w.getU64 "seq" = some seq
  runId : w.getStr "run_id" = some targetId

/-- The checks before the arm pass at a later place of the fork. -/
theorem Placed.apply_eq (hw : Placed targetId seq e w) (hkind : e.getStr "t" = some kind.name)
    (hschema : RunState.checkSchema kind e = .ok ()) (hrunning : t.terminal = none)
    (hidentity : t.runId = none ∨ t.runId = some targetId) (hlt : t.lastSeq < seq) :
    t.apply api w = RunState.applyKind api
      { t with lastSeq := seq, toFoldState := t.toFoldState.noteSearchCost kind w } kind w := by
  apply RunState.apply_of_checks
  · rw [hw.same.getStr "t" (by decide), hkind]
  · have hzero : seq ≠ 0 := by omega
    have hle : ¬ seq ≤ t.lastSeq := by omega
    simp [RunState.checkSeq, hw.seq, hzero, hle]
  · rcases hidentity with hidentity | hidentity <;>
      simp [RunState.checkIdentity, hidentity, hw.runId]
  · simp [RunState.checkTerminal, hrunning]
  · rw [← hschema]
    simp (disch := decide) only [RunState.checkSchema, hw.same.getU64]

/-- Kinds whose records a fork takes over unchanged. -/
def isKept : EventKind → Bool
  | .runFinished | .runError | .runCanceled | .runInterrupted | .runWaiting | .confirmRequest =>
    false
  | _ => true

theorem terminalStep_kept (hkind : isKept kind = true) : terminalStep none kind event = none := by
  cases kind <;> simp [isKept] at hkind <;> rfl

section

variable (h : Follows targetId s t)

include h

theorem Follows.noted (hw : SamePayload e w) :
    (t.toFoldState.noteSearchCost kind w).carried =
      (s.toFoldState.noteSearchCost kind e).carried := by
  rw [FoldState.noteSearchCost_same hw, FoldState.carried_noteSearchCost,
    FoldState.carried_noteSearchCost, h.carried]

/-- A record that both sides fold keeps them together. -/
theorem Follows.record (hs : RunState.Accepted api s kind e s')
    (hw : Placed targetId seq e w) (hkept : isKept kind = true) (hrecord : kind.isRecord = true) :
    ∃ t', RunState.applyKind api
        { t with lastSeq := seq, toFoldState := t.toFoldState.noteSearchCost kind w } kind w =
          .ok t' ∧ Follows targetId s' t' := by
  obtain ⟨f, hf, hs'⟩ := RunState.applyKind_record hrecord hs.arm
  have hfold : s'.toFoldState = f := by rw [hs']
  have hrunId : s'.runId = s.runId := by rw [hs']
  have hconfirm : kind ≠ .confirmRequest := by
    rintro rfl
    cases hkept
  have hwaiting : kind ≠ .runWaiting := by
    rintro rfl
    cases hkept
  have hmap : ((t.toFoldState.noteSearchCost kind w).applyRecord api kind w).map
        FoldState.carried =
      ((s.toFoldState.noteSearchCost kind e).applyRecord api kind e).map FoldState.carried := by
    rw [FoldState.applyRecord_same hw.same hconfirm hwaiting]
    exact FoldState.respects_applyRecord _ _ (h.noted hw.same)
  obtain ⟨g, hg, hcarried⟩ := ok_of_map_eq hmap hf
  refine ⟨{ t with lastSeq := seq, toFoldState := g }, ?_, ?_, ?_, ?_⟩
  · rw [RunState.applyKind_of_record hrecord, hg]
    rfl
  · rw [hfold]
    exact hcarried
  · have hfacets := congrArg Facets.terminal (FoldState.applyRecord_facets hg)
    rw [RunState.noteSearchCost_facets] at hfacets
    have hrunning : t.toFoldState.facets.terminal = none := h.running
    exact hfacets.trans (by simp only [Facets.step, hrunning, terminalStep_kept hkept])
  · rw [hrunId]
    exact h.identity

theorem Follows.admission (hs : RunState.Accepted api s kind e s')
    (hid : (e.getStr "run_id").isSome = true) (hw : Placed targetId seq e w)
    (hkind : kind = .runQueued ∨ kind = .runStarted) :
    ∃ t', RunState.applyKind api
        { t with lastSeq := seq, toFoldState := t.toFoldState.noteSearchCost kind w } kind w =
          .ok t' ∧ Follows targetId s' t' := by
  have harm := hs.arm
  have happly (u : RunState) (event : Value) :
      u.applyKind api kind event = u.applyIdentity kind event := by
    rcases hkind with rfl | rfl <;> rfl
  rw [happly] at harm ⊢
  obtain ⟨-, f, hf, hs'⟩ := RunState.applyIdentity_eq_ok.mp harm
  have hfold : s'.toFoldState = f := by rw [hs']
  have hrunId : s'.runId = e.getStr "run_id" := by rw [hs']
  have hmap : (RunState.admission kind w (t.toFoldState.noteSearchCost kind w)).map
        FoldState.carried =
      (RunState.admission kind e (s.toFoldState.noteSearchCost kind e)).map FoldState.carried := by
    rw [RunState.admission_same hw.same]
    exact RunState.respects_admission _ _ (h.noted hw.same)
  obtain ⟨g, hg, hcarried⟩ := ok_of_map_eq hmap hf
  refine ⟨_, RunState.applyIdentity_eq_ok.mpr ⟨?_, g, hg, rfl⟩, ?_, RunState.admission_terminal hg,
    ?_⟩
  · -- The fork's admissions all carry its own identity.
    show RunState.checkLineage t.runId w = .ok ()
    rw [h.identity]
    cases s.runId <;> simp [RunState.checkLineage, hw.runId]
  · rw [hfold]
    exact hcarried
  · obtain ⟨id, hid⟩ := Option.isSome_iff_exists.mp hid
    rw [hrunId, hid]
    exact hw.runId

theorem Follows.elapsed
    (hs : RunState.Accepted api s .elapsedAccounted e s') (hw : Placed targetId seq e w) :
    ∃ t', RunState.applyKind api
        { t with lastSeq := seq, toFoldState := t.toFoldState.noteSearchCost .elapsedAccounted w }
          .elapsedAccounted w = .ok t' ∧ Follows targetId s' t' := by
  obtain ⟨f, hf, hs'⟩ := bind_eq_ok.mp hs.arm
  rw [Except.pure_eq_ok] at hs'
  have hpresent : t.runId = none ↔ s.runId = none := by
    rw [h.identity]
    simp
  have hmap : ((t.toFoldState.noteSearchCost .elapsedAccounted w).applyElapsedAccounted api
        t.runId w).map FoldState.carried =
      ((s.toFoldState.noteSearchCost .elapsedAccounted e).applyElapsedAccounted api
        s.runId e).map FoldState.carried := by
    rw [RunState.applyElapsedAccounted_same hw.same,
      RunState.applyElapsedAccounted_congr _ hpresent]
    exact RunState.respects_applyElapsedAccounted s.runId _ _ (h.noted hw.same)
  obtain ⟨g, hg, hcarried⟩ := ok_of_map_eq hmap hf
  have hopen := RunState.applyElapsedAccounted_terminal hg
  rw [RunState.noteSearchCost_eq _ (by decide) (by decide)] at hopen
  refine ⟨{ t with lastSeq := seq, toFoldState := g }, ?_, ?_, ?_, ?_⟩
  · show (_ >>= _) = _
    rw [hg]
    rfl
  · rw [← hs']
    exact hcarried
  · exact hopen.trans h.running
  · rw [← hs']
    exact h.identity

theorem Follows.forked
    (hs : RunState.Accepted api s .runForked e s') (hid : (e.getStr "run_id").isSome = true)
    (hw : Placed targetId seq e w) :
    ∃ t', RunState.applyKind api
        { t with lastSeq := seq, toFoldState := t.toFoldState.noteSearchCost .runForked w }
          .runForked w = .ok t' ∧ Follows targetId s' t' := by
  have harm := hs.arm
  rw [RunState.applyKind, Except.ok.injEq] at harm
  refine ⟨_, rfl, ?_, ?_, ?_⟩
  · rw [← harm]
    exact h.noted hw.same
  · exact h.running
  · obtain ⟨id, hid⟩ := Option.isSome_iff_exists.mp hid
    rw [← harm, hid]
    exact hw.runId

theorem Follows.kept (hs : RunState.Accepted api s kind e s')
    (hid : (e.getStr "run_id").isSome = true) (hw : Placed targetId seq e w)
    (hkept : isKept kind = true) (hlt : t.lastSeq < seq) :
    ∃ t', t.apply api w = .ok t' ∧ Follows targetId s' t' ∧ t'.lastSeq = seq := by
  have hidentity : t.runId = none ∨ t.runId = some targetId := by
    rw [h.identity]
    cases s.runId <;> simp
  have harm : ∃ t', RunState.applyKind api
      { t with lastSeq := seq, toFoldState := t.toFoldState.noteSearchCost kind w } kind w =
        .ok t' ∧ Follows targetId s' t' := by
    rcases kind.isRecord_or with hrecord | rfl | rfl | hadmission
    · exact h.record hs hw hkept hrecord
    · exact h.forked hs hid hw
    · exact h.elapsed hs hw
    · exact h.admission hs hid hw hadmission
  obtain ⟨t', ht', hfollows⟩ := harm
  refine ⟨t', ?_, hfollows, RunState.applyKind_lastSeq ht'⟩
  rw [hw.apply_eq hs.kind_eq hs.schema h.running hidentity hlt, ht']

end

theorem Follows.of_carried (h : Follows targetId s t)
    (hcarried : s'.toFoldState.carried = s.toFoldState.carried) (hrunId : s'.runId = s.runId) :
    Follows targetId s' t := by
  constructor
  · rw [hcarried]
    exact h.carried
  · exact h.running
  · rw [hrunId]
    exact h.identity

/-- The end of the source and its prompts are no part of what a fork follows. -/
theorem Follows.leftBehind (h : Follows targetId s t) (hs : RunState.Accepted api s kind e s')
    (hkind : leftBehind.contains kind.name = true) : Follows targetId s' t := by
  have hcases : kind = .runFinished ∨ kind = .runError ∨ kind = .runCanceled ∨
      kind = .runInterrupted ∨ kind = .runWaiting := by
    cases kind <;> first | decide | exact absurd hkind (by decide)
  have hrecord : kind.isRecord = true := by
    rcases hcases with rfl | rfl | rfl | rfl | rfl <;> rfl
  obtain ⟨f, hf, hs'⟩ := RunState.applyKind_record hrecord hs.arm
  have hfold : s'.toFoldState = f := by rw [hs']
  apply h.of_carried
  · rw [hfold]
    rcases hcases with rfl | rfl | rfl | rfl | rfl
    case inr.inr.inr.inr =>
      obtain ⟨g, hg, hinstall⟩ := bind_eq_ok.mp hf
      cases hg
      exact FoldState.installInteraction_carried hinstall
    all_goals
      cases hf
      rfl
  · rw [hs']

theorem Follows.nodeless (h : Follows targetId s t)
    (hs : RunState.Accepted api s .confirmRequest e s') (hnode : e.getStr "node" = none) :
    Follows targetId s' t := by
  obtain ⟨f, hf, hs'⟩ := RunState.applyKind_record rfl hs.arm
  rw [RunState.noteSearchCost_eq _ (by decide) (by decide)] at hf
  have hfold : s'.toFoldState = f := by rw [hs']
  apply h.of_carried
  · rw [hfold]
    have hf : s.toFoldState.applyInteractionRequest api .confirmRequest e = .ok f := hf
    unfold FoldState.applyInteractionRequest at hf
    cases e with
    | obj members =>
      simp only at hf
      split_ifs at hf
      · -- Listed files need a node that is a text.
        obtain ⟨g, hg, -⟩ := bind_eq_ok.mp hf
        obtain ⟨⟨path, hpath⟩, -⟩ := FoldState.confirmReport_facets hg
        rw [hnode] at hpath
        cases hpath
      · obtain ⟨g, hg, hinstall⟩ := bind_eq_ok.mp hf
        cases hg
        exact FoldState.installInteraction_carried hinstall
    | _ =>
      obtain ⟨g, hg, hinstall⟩ := bind_eq_ok.mp hf
      cases hg
      exact FoldState.installInteraction_carried hinstall
  · rw [hs']

variable {members : Members}

theorem get_suspended {key : String} (hconfirm : key ≠ "confirm")
    (hkind : key ≠ "t") (hstatus : key ≠ "status") :
    Members.get (suspended members) key = Members.get members key := by
  simp [suspended, Members.get_insert, Members.get_remove, hconfirm, hkind, hstatus]

variable {path : String}

theorem confirm_carried (hpath : Value.getStr (.obj members) "node" = some path)
    (hfailed : Members.get members "failed_files" = none)
    (h : f.applyInteractionRequest api .confirmRequest (.obj members) = .ok g) :
    ∃ files, pinsOf (.obj members) "files" = .ok files ∧
      g.carried = (f.carried.recordHistoricalPins files).applyWorkspaceFilePins files := by
  have hnode : (Value.get (.obj members) "node").isSome = true := by
    obtain ⟨v, hv, -⟩ := Option.bind_eq_some_iff.mp hpath
    rw [hv]
    rfl
  have hnone : pinsOf (.obj members) "failed_files" = .ok [] := by
    simp [pinsOf, hfailed]
  unfold FoldState.applyInteractionRequest at h
  simp only at h
  split_ifs at h with hlists
  · obtain ⟨u, hu, hinstall⟩ := bind_eq_ok.mp h
    have hget (key : String) (hkey : key ≠ "status") :
        Value.get (.obj (Members.insert members "status" (.str "needs_confirm"))) key =
          Value.get (.obj members) key :=
      Members.get_insert_of_ne members _ hkey
    have hpins (key : String) (hkey : key ≠ "status") :
        pinsOf (.obj (Members.insert members "status" (.str "needs_confirm"))) key =
          pinsOf (.obj members) key := by
      rw [pinsOf, hget key hkey, pinsOf]
    have hstatus : Value.getStr (.obj (Members.insert members "status" (.str "needs_confirm")))
        "status" = some "needs_confirm" := by
      simp [Value.getStr]
    have hpath' : Value.getStr (.obj (Members.insert members "status" (.str "needs_confirm")))
        "node" = some path := by
      rw [Value.getStr, hget "node" (by decide)]
      exact hpath
    obtain ⟨_, -, hparts⟩ := bind_eq_ok.mp hu
    obtain ⟨_, -, hparts⟩ := bind_eq_ok.mp hparts
    obtain ⟨files, hfiles, -⟩ := bind_eq_ok.mp hparts
    rw [hpins "files" (by decide)] at hfiles
    obtain ⟨hreport, hcarried⟩ := FoldState.applyStepFinished_waiting (s := f) hpath' hstatus
      ((hpins "files" (by decide)).trans hfiles) ((hpins "failed_files" (by decide)).trans hnone)
    rw [hreport] at hu
    refine ⟨files, hfiles, ?_⟩
    rw [FoldState.installInteraction_carried hinstall, FoldState.installInteraction_carried hu,
      hcarried, List.append_nil]
  · have hfiles : Members.get members "files" = none := by
      rw [not_and_or, or_iff_left (not_not_intro hnode)] at hlists
      simpa using hlists
    obtain ⟨u, hu, hinstall⟩ := bind_eq_ok.mp h
    cases hu
    refine ⟨[], ?_, FoldState.installInteraction_carried hinstall⟩
    simp [pinsOf, hfiles]

theorem Follows.suspended (h : Follows targetId s t)
    (hs : RunState.Accepted api s .confirmRequest (.obj members) s')
    (hpath : Value.getStr (.obj members) "node" = some path)
    (hfailed : Members.get members "failed_files" = none)
    (hw : Placed targetId seq (.obj (suspended members)) w) (hlt : t.lastSeq < seq) :
    ∃ t', t.apply api w = .ok t' ∧ Follows targetId s' t' ∧ t'.lastSeq = seq := by
  obtain ⟨f, hf, hs'⟩ := RunState.applyKind_record rfl hs.arm
  rw [RunState.noteSearchCost_eq _ (by decide) (by decide)] at hf
  have hfold : s'.toFoldState = f := by rw [hs']
  have hrunId : s'.runId = s.runId := by rw [hs']
  obtain ⟨files, hfiles, hcarried⟩ := confirm_carried hpath hfailed hf
  have hidentity : t.runId = none ∨ t.runId = some targetId := by
    rw [h.identity]
    cases s.runId <;> simp
  have hkind : Value.getStr (.obj (Fork.suspended members)) "t" =
      some EventKind.stepFinished.name := by
    simp [Value.getStr, Fork.suspended, Members.get_insert, EventKind.name]
  -- What the fork reads in the record it writes.
  have hget (key : String) (hkey : key ∉ placeKeys) (hconfirm : key ≠ "confirm")
      (hkind : key ≠ "t") (hstatus : key ≠ "status") :
      w.get key = Value.get (.obj members) key := by
    rw [hw.same.get key hkey, Value.get_obj, get_suspended hconfirm hkind hstatus, Value.get_obj]
  have hnode : w.getStr "node" = some path := by
    rw [Value.getStr, hget "node" (by decide) (by decide) (by decide) (by decide)]
    exact hpath
  have hstatus : w.getStr "status" = some "needs_confirm" := by
    rw [hw.same.getStr "status" (by decide)]
    simp [Value.getStr, Fork.suspended]
  have hconfirm : w.get "confirm" = none := by
    rw [hw.same.get "confirm" (by decide)]
    simp [Fork.suspended, Members.get_insert, Members.get_remove]
  have hpins : pinsOf w "files" = .ok files := by
    rw [← hfiles, pinsOf, hget "files" (by decide) (by decide) (by decide) (by decide), pinsOf]
  have hnone : pinsOf w "failed_files" = .ok [] := by
    rw [pinsOf, hget "failed_files" (by decide) (by decide) (by decide) (by decide), Value.get_obj,
      hfailed]
  obtain ⟨hreport, hreported⟩ := @FoldState.applyStepFinished_waiting api w
    t.toFoldState path files [] hnode hstatus hpins hnone
  generalize t.toFoldState.reported files [] path "needs_confirm" = g at hreport hreported
  have hg : t.toFoldState.applyRecord api .stepFinished w = .ok g := by
    refine hreport.trans ?_
    simp only [FoldState.installInteraction, if_true, hconfirm]
  refine ⟨{ t with lastSeq := seq, toFoldState := g }, ?_, ⟨?_, ?_, ?_⟩, rfl⟩
  · rw [hw.apply_eq hkind rfl h.running hidentity hlt,
      RunState.noteSearchCost_eq _ (by decide) (by decide), RunState.applyKind_of_record rfl, hg]
    rfl
  · rw [hfold, hcarried, ← h.carried, hreported, List.append_nil]
  · have hfacets := congrArg Facets.terminal (FoldState.applyRecord_facets hg)
    have hrunning : t.toFoldState.facets.terminal = none := h.running
    exact hfacets.trans (by simp only [Facets.step, hrunning, terminalStep])
  · rw [hrunId]
    exact h.identity

end Fork

end Qcg
