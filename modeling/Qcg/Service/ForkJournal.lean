import Qcg.Service.ForkFold

/-!
# The journal of a fork

Every journal that the fold accepts can be forked after its first admission: the records of the
fork carry consecutive numbers in the order of the source, and fold to the state of the source
at the checkpoint, without its prompts and its end.
-/

namespace Qcg

open List
open Except (foldlM_cons_eq_ok bind_eq_ok)

open Json (Value Members)

def confirmRequestFields : List String := ["confirm", "parallel", "files"]

def Api.DeniesUnknown (api : Api) : Prop :=
  ∀ members, api.decodes .confirmRequest (.obj members) = true →
    onlyFields confirmRequestFields members = true

namespace RunState

variable {api : Api} {e : Value} {s s' : RunState} {events : List Value}

theorem foldFrom_seqs (h : foldFrom api s events = .ok s') :
    (∀ e ∈ events, ∃ n, e.getU64 "seq" = some n ∧ s.lastSeq < n) ∧
      events.Pairwise fun a b => (a.getU64 "seq").getD 0 < (b.getU64 "seq").getD 0 := by
  induction events generalizing s with
  | nil => simp
  | cons e events ih =>
    obtain ⟨mid, hmid, hrest⟩ := foldlM_cons_eq_ok.mp h
    obtain ⟨hseq, hlt⟩ := applyChecked_seq hmid
    obtain ⟨hall, hpairwise⟩ := ih hrest
    constructor
    · intro event hevent
      rcases mem_cons.mp hevent with rfl | hevent
      · exact ⟨_, hseq, hlt⟩
      · obtain ⟨n, hn, hafter⟩ := hall event hevent
        exact ⟨n, hn, hlt.trans hafter⟩
    · rw [pairwise_cons]
      refine ⟨?_, hpairwise⟩
      intro event hevent
      obtain ⟨n, hn, hafter⟩ := hall event hevent
      simpa [hseq, hn] using hafter

end RunState

namespace Fork

variable {api : Api} {stamps : Stamps} {sourceId targetId : String} {atSeq seq : Nat}
  {e : Value} {s s' t : RunState} {members : Members} {events : List Value}

/-- The events up to a sequence number are the beginning of a journal in order. -/
theorem through_prefix (hnumbered : ∀ e ∈ events, ∃ n, e.getU64 "seq" = some n)
    (h : events.Pairwise fun a b => (a.getU64 "seq").getD 0 < (b.getU64 "seq").getD 0) :
    through events atSeq <+: events := by
  induction events with
  | nil => exact prefix_rfl
  | cons e events ih =>
    rw [pairwise_cons] at h
    obtain ⟨seq, hseq⟩ := hnumbered e mem_cons_self
    by_cases hle : seq ≤ atSeq
    · have hthrough : through (e :: events) atSeq = e :: through events atSeq := by
        simp [through, hseq, hle]
      rw [hthrough, prefix_cons_inj]
      exact ih (fun e he => hnumbered e (mem_cons_of_mem _ he)) h.2
    · -- Everything behind the first later record is later still.
      have hthrough : through (e :: events) atSeq = [] := by
        rw [through, filter_eq_nil_iff]
        intro event hevent
        rcases mem_cons.mp hevent with rfl | hevent
        · simpa [hseq] using hle
        · obtain ⟨n, hn⟩ := hnumbered event (mem_cons_of_mem _ hevent)
          have hafter := h.1 event hevent
          simp only [hseq, hn, Option.getD_some] at hafter
          simp only [hn, Option.any_some, decide_eq_true_eq]
          omega
      rw [hthrough]
      exact nil_prefix

theorem through_prefix_of_fold (h : RunState.foldFrom api s events = .ok s') :
    through events atSeq <+: events := by
  obtain ⟨hall, hincreasing⟩ := RunState.foldFrom_seqs h
  apply through_prefix _ hincreasing
  intro e he
  obtain ⟨n, hn, -⟩ := hall e he
  exact ⟨n, hn⟩

theorem fold_through (h : RunState.foldFrom api s events = .ok s') :
    ∃ cut, RunState.foldFrom api s (through events atSeq) = .ok cut := by
  have hprefix : through events atSeq <+: events := through_prefix_of_fold h
  obtain ⟨rest, hrest⟩ := hprefix
  rw [← hrest] at h
  obtain ⟨cut, hcut, -⟩ := Except.foldlM_append_eq_ok.mp h
  exact ⟨cut, hcut⟩

theorem enveloped_suspended (h : RunEvent.Enveloped (.obj members)) :
    RunEvent.Enveloped (.obj (suspended members)) := by
  have hget (key : String) (hconfirm : key ≠ "confirm") (hkind : key ≠ "t")
      (hstatus : key ≠ "status") :
      Value.get (.obj (suspended members)) key = Value.get (.obj members) key :=
    get_suspended hconfirm hkind hstatus
  constructor
  · rw [Value.getU64, hget "seq" (by decide) (by decide) (by decide)]
    exact h.seq
  · rw [Value.getStr, hget "ts" (by decide) (by decide) (by decide)]
    exact h.ts
  · simp [Value.getStr, suspended, Members.get_insert]
  · rw [Value.getStr, hget "run_id" (by decide) (by decide) (by decide)]
    exact h.runId
  · rw [Value.getStr, hget "trace_id" (by decide) (by decide) (by decide)]
    exact h.traceId
  · rw [Value.getStr, hget "span_id" (by decide) (by decide) (by decide)]
    exact h.spanId

theorem failedFiles_of_confirm {parsed : RunEvent} (hapi : api.DeniesUnknown)
    (h : RunEvent.fromFlat api (.obj members) = .ok parsed)
    (hkind : Value.getStr (.obj members) "t" = some EventKind.confirmRequest.name) :
    Members.get members "failed_files" = none := by
  obtain ⟨envelope, henvelope, h⟩ := bind_eq_ok.mp h
  obtain ⟨data, hdata, -⟩ := bind_eq_ok.mp h
  obtain ⟨-, -, hname, -⟩ := RunEvent.envelope_members henvelope
  obtain ⟨envelope', henvelope', -, hpayload⟩ :=
    RunEvent.envelope_of_enveloped (RunEvent.enveloped_of_envelope henvelope)
  rw [henvelope] at henvelope'
  cases henvelope'
  rw [hkind, Option.some.injEq] at hname
  simp only [RunEvent.parseData, ← hname, EventKind.ofName_name] at hdata
  rw [if_pos (by decide)] at hdata
  split_ifs at hdata with hdecodes
  rw [hpayload] at hdecodes
  have honly := hapi _ hdecodes
  rw [onlyFields, all_eq_true] at honly
  by_contra hsome
  obtain ⟨v, hv⟩ := Option.ne_none_iff_exists'.mp hsome
  have hkept : ("failed_files", v) ∈
      members.filter fun member => !RunEvent.commonFields.contains member.1 := by
    rw [mem_filter]
    exact ⟨Members.mem_of_get hv, by simp [RunEvent.commonFields]⟩
  have hfield := honly _ hkept
  simp [confirmRequestFields] at hfield

theorem placed_restamp (h : RunEvent.Enveloped (.obj members)) (hseq : seq < 2 ^ 64) :
    Placed targetId seq (.obj members) (.obj (restamp stamps targetId seq members)) where
  same := samePayload_restamp h hseq
  seq := getU64_restamp hseq
  runId := getStr_restamp_runId

theorem carryOver_eq {kind : EventKind} (hkind : e.getStr "t" = some kind.name) :
    carryOver e =
      if leftBehind.contains kind.name then none
      else if kind = .confirmRequest then
        match e.getStr "node", e with
        | some _, .obj members => some (.obj (suspended members))
        | _, _ => none
      else some e := by
  have hname : kind.name = "confirm_request" ↔ kind = .confirmRequest := by
    constructor
    · intro h
      exact EventKind.name_injective (h.trans rfl)
    · rintro rfl
      rfl
  have h : carryOver e = carryOver e := rfl
  conv_rhs at h => simp only [carryOver, hkind, Option.getD_some, hname]
  exact h

theorem isKept_of {kind : EventKind} (hleft : ¬ leftBehind.contains kind.name = true)
    (hconfirm : kind ≠ .confirmRequest) : isKept kind = true := by
  cases kind <;> first | rfl | exact absurd rfl hconfirm | exact absurd (by decide) hleft

/-- One record of the source: it stays behind, or the fork takes a step of its own for it. -/
theorem Follows.step (hapi : api.DeniesUnknown) (h : Follows targetId s t)
    (hs : s.applyChecked api e = .ok s') :
    (carryOver e = none → Follows targetId s' t) ∧
      ∀ members seq, carryOver e = some (.obj members) → seq < 2 ^ 64 → t.lastSeq < seq →
        ∃ t', t.apply api (.obj (restamp stamps targetId seq members)) = .ok t' ∧
          Follows targetId s' t' ∧ t'.lastSeq = seq := by
  obtain ⟨⟨parsed, hparsed⟩, happly⟩ := RunState.applyChecked_eq_ok hs
  obtain ⟨kind, hs⟩ := RunState.accepted_of_apply happly
  have henveloped : RunEvent.Enveloped e := by
    obtain ⟨envelope, henvelope, -⟩ := bind_eq_ok.mp hparsed
    exact RunEvent.enveloped_of_envelope henvelope
  rw [carryOver_eq hs.kind_eq]
  split_ifs with hleft hconfirm
  · exact ⟨fun _ => h.leftBehind hs hleft, by simp⟩
  · subst hconfirm
    cases hnode : e.getStr "node" with
    | none => exact ⟨fun _ => h.nodeless hs hnode, by simp⟩
    | some path =>
      cases e with
      | obj members =>
        refine ⟨by simp, ?_⟩
        intro members' seq hmembers hseq hlt
        cases hmembers
        exact h.suspended hs hnode (failedFiles_of_confirm hapi hparsed hs.kind_eq)
          (placed_restamp (enveloped_suspended henveloped) hseq) hlt
      | _ => cases hnode
  · refine ⟨by simp, ?_⟩
    intro members seq hmembers hseq hlt
    cases hmembers
    exact h.kept hs henveloped.runId (placed_restamp henveloped hseq) (isKept_of hleft hconfirm) hlt

theorem Follows.run (hapi : api.DeniesUnknown) {written : List Entry}
    (hs : RunState.foldFrom api s events = .ok s') (h : Follows targetId s t)
    (hwritten : List.Forall₂ (Rewritten stamps targetId)
      (durableEntries (events.filterMap carryOver)) written)
    (hgrows : written.Pairwise fun a b => a.seq < b.seq)
    (hplace : ∀ w ∈ written, t.lastSeq < w.seq ∧ w.seq < 2 ^ 64) :
    ∃ t', (written.map Entry.event).foldlM (RunState.apply api) t = .ok t' ∧
      Follows targetId s' t' ∧ (t'.lastSeq = t.lastSeq ∨ ∃ w ∈ written, t'.lastSeq = w.seq) := by
  induction events generalizing s t written with
  | nil =>
    cases hs
    cases hwritten
    exact ⟨t, rfl, h, .inl rfl⟩
  | cons e events ih =>
    obtain ⟨mid, hmid, hrest⟩ := foldlM_cons_eq_ok.mp hs
    obtain ⟨hleft, hstep⟩ := @Follows.step api stamps targetId e s mid t hapi h hmid
    cases hcarry : carryOver e with
    | none =>
      rw [filterMap_cons_none hcarry] at hwritten
      exact ih hrest (hleft hcarry) hwritten hgrows hplace
    | some e' =>
      rw [filterMap_cons_some hcarry] at hwritten
      obtain ⟨w, rest, hw, hrestWritten, rfl⟩ := List.forall₂_cons_left_iff.mp hwritten
      obtain ⟨members, hmembers, hevent⟩ := hw.event
      rw [pairwise_cons] at hgrows
      obtain ⟨hlt, hfits⟩ := hplace w (by simp)
      have hmembers : e' = .obj members := hmembers
      rw [hmembers] at hcarry
      obtain ⟨u, hu, hfollows, hlast⟩ := hstep members w.seq hcarry hfits hlt
      obtain ⟨t', ht', hfollows', hend⟩ := ih hrest hfollows hrestWritten hgrows.2 (by
        intro w' hw'
        rw [hlast]
        exact ⟨hgrows.1 w' hw', (hplace w' (by simp [hw'])).2⟩)
      refine ⟨t', ?_, hfollows', .inr ?_⟩
      · rw [map_cons, hevent]
        exact foldlM_cons_eq_ok.mpr ⟨u, hu, ht'⟩
      · rcases hend with hend | ⟨w', hw', hend⟩
        · exact ⟨w, by simp, hend.trans hlast⟩
        · exact ⟨w', by simp [hw'], hend⟩

theorem isObj_of_getU64 {key : String} {n : Nat} (h : e.getU64 key = some n) :
    ∃ members, e = .obj members := by
  cases e with
  | obj members => exact ⟨members, rfl⟩
  | _ => cases h

/-- A record keeps its number until it is written anew. -/
theorem getU64_carryOver {e' : Value} (h : carryOver e = some e') :
    e'.getU64 "seq" = e.getU64 "seq" := by
  unfold carryOver at h
  dsimp only at h
  split_ifs at h
  · split at h
    · next members _ =>
      cases h
      simp [Value.getU64, get_suspended]
    · cases h
  · cases h
    rfl

theorem pairwise_durableEntries
    (h : events.Pairwise fun a b => (a.getU64 "seq").getD 0 < (b.getU64 "seq").getD 0) :
    (durableEntries (selected events atSeq)).Pairwise fun a b => a.seq < b.seq := by
  rw [durableEntries, pairwise_map, selected, pairwise_filterMap]
  apply (h.sublist filter_sublist).imp
  intro a b hlt a' ha' b' hb'
  rw [getU64_carryOver ha', getU64_carryOver hb']
  exact hlt

variable {audit : List Value} {entry : Entry}

theorem seq_of_mem_auditEntries (h : entry ∈ auditEntries audit atSeq) :
    entry.event.getU64 "seq" = some entry.seq := by
  obtain ⟨event, hevent, hsome⟩ := mem_filterMap.mp h
  split at hsome
  · next n hn =>
    split_ifs at hsome
    cases hsome
    exact hn
  · cases hsome

theorem history_numbered (h : RunState.foldFrom api s events = .ok s')
    (hentry : entry ∈ history (selected events atSeq) audit atSeq) :
    entry.event.getU64 "seq" = some entry.seq := by
  rw [history, mem_insertionSort, mem_append] at hentry
  rcases hentry with hentry | hentry
  · obtain ⟨event, hevent, rfl⟩ := mem_map.mp hentry
    obtain ⟨source, hsource, hcarry⟩ := mem_filterMap.mp hevent
    obtain ⟨n, hn, -⟩ := (RunState.foldFrom_seqs h).1 source (mem_of_mem_filter hsource)
    simp [getU64_carryOver hcarry, hn]
  · exact seq_of_mem_auditEntries hentry

theorem durableEntries_seqs_sublist (atSeq : Nat)
    (h : ∀ e ∈ events, (e.getU64 "seq").isSome = true) :
    ((durableEntries (selected events atSeq)).map Entry.seq).Sublist
      (events.filterMap (·.getU64 "seq")) := by
  induction events with
  | nil => exact List.Sublist.slnil
  | cons e events ih =>
    have ih := ih fun e he => h e (by simp [he])
    obtain ⟨n, hn⟩ := Option.isSome_iff_exists.mp (h e (by simp))
    simp only [filterMap_cons, hn]
    by_cases hle : n ≤ atSeq
    · have hthrough : through (e :: events) atSeq = e :: through events atSeq := by
        simp [through, hn, hle]
      rw [selected, hthrough]
      cases hcarry : carryOver e with
      | none =>
        rw [filterMap_cons_none hcarry]
        exact ih.cons n
      | some e' =>
        rw [filterMap_cons_some hcarry]
        have hseq : (e'.getU64 "seq").getD 0 = n := by
          rw [getU64_carryOver hcarry, hn]
          rfl
        have hcons := ih.cons_cons n
        rw [← hseq] at hcons ⊢
        exact hcons
    · have hthrough : through (e :: events) atSeq = through events atSeq := by
        simp [through, hn, hle]
      rw [selected, hthrough]
      exact ih.cons n

theorem auditEntries_seqs_sublist (atSeq : Nat) (audit : List Value) :
    ((auditEntries audit atSeq).map Entry.seq).Sublist (audit.filterMap (·.getU64 "seq")) := by
  induction audit with
  | nil => exact List.Sublist.slnil
  | cons e audit ih =>
    cases hn : e.getU64 "seq" with
    | none =>
      simp only [auditEntries, filterMap_cons, hn]
      exact ih
    | some n =>
      simp only [auditEntries, filterMap_cons, hn]
      split_ifs
      · exact ih.cons_cons n
      · exact ih.cons n

/-- With distinct numbers in the source the order of the history is strict. -/
theorem history_strict (h : RunState.foldFrom api s events = .ok s')
    (hdistinct : ((events ++ audit).filterMap (·.getU64 "seq")).Nodup) :
    (history (selected events atSeq) audit atSeq).Pairwise fun a b => a.seq < b.seq := by
  have hnumbered : ∀ e ∈ events, (e.getU64 "seq").isSome = true := by
    intro e he
    obtain ⟨n, hn, -⟩ := (RunState.foldFrom_seqs h).1 e he
    simp [hn]
  have hsublist := (durableEntries_seqs_sublist atSeq hnumbered).append
    (auditEntries_seqs_sublist atSeq audit)
  rw [← map_append, ← filterMap_append] at hsublist
  have hnodup : ((history (selected events atSeq) audit atSeq).map Entry.seq).Nodup :=
    ((perm_insertionSort Entry.le _).map Entry.seq).nodup_iff.mpr (hdistinct.sublist hsublist)
  rw [nodup_iff_pairwise_ne, pairwise_map] at hnodup
  apply (hnodup.and (pairwise_insertionSort Entry.le _)).imp
  rintro a b ⟨hne, hlt | ⟨heq, -⟩⟩
  · exact hlt
  · exact absurd heq hne

theorem writeStreams_ok {audit : List Value} (h : RunState.foldFrom api s events = .ok s') :
    ∃ written, renumber stamps targetId 0 (history (selected events atSeq) audit atSeq) =
        .ok written ∧
      writeStreams stamps sourceId targetId atSeq {} (selected events atSeq) audit =
        .ok { written, own := [forkEvent stamps sourceId targetId atSeq
          (written.length + 1)] } := by
  obtain ⟨written, hwritten⟩ := @renumber_ok stamps targetId 0
    (history (selected events atSeq) audit atSeq)
    (fun entry hentry => isObj_of_getU64 (history_numbered h hentry))
  refine ⟨written, hwritten, ?_⟩
  simp only [writeStreams, hwritten, bind, Except.bind]
  rfl

theorem get_forkEvent (key : String) : (forkEvent stamps sourceId targetId atSeq seq).get key =
    Members.get (ownMembers stamps "run_forked" targetId seq ++
      [("source_run_id", Value.str sourceId), ("source_seq", Value.num atSeq)]).reverse key :=
  Members.get_ofList _ key

theorem getU64_forkEvent (hseq : seq < 2 ^ 64) :
    (forkEvent stamps sourceId targetId atSeq seq).getU64 "seq" = some seq := by
  rw [Value.getU64, get_forkEvent]
  simp only [ownMembers, cons_append, nil_append, reverse_cons, reverse_nil,
    Members.get_cons, String.reduceEq, if_false, if_true]
  exact Value.asU64_natCast hseq

theorem apply_forkEvent (hrunning : t.terminal = none) (hlt : t.lastSeq < seq)
    (hseq : seq < 2 ^ 64) :
    t.apply api (forkEvent stamps sourceId targetId atSeq seq) =
      .ok { t with lastSeq := seq, runId := some targetId } := by
  have hid : (forkEvent stamps sourceId targetId atSeq seq).getStr "run_id" = some targetId := by
    rw [Value.getStr, get_forkEvent]
    simp [ownMembers, Members.get_cons]
  have happly := @RunState.apply_of_checks api (forkEvent stamps sourceId targetId atSeq seq)
    .runForked t seq ?_ ?_ ?_ ?_ ?_
  · rw [happly, RunState.noteSearchCost_eq _ (by decide) (by decide), RunState.applyKind, hid]
  · rw [Value.getStr, get_forkEvent]
    simp [ownMembers, Members.get_cons, EventKind.name]
  · have hzero : seq ≠ 0 := by omega
    have hle : ¬ seq ≤ t.lastSeq := by omega
    simp [RunState.checkSeq, getU64_forkEvent hseq, hzero, hle]
  · simp only [RunState.checkIdentity, hid]
    cases t.runId <;> simp [EventKind.name]
  · simp [RunState.checkTerminal, hrunning]
  · rfl

/-- Agreement on what a run has done, apart from its prompts and its end. -/
structure SameProgress (s t : FoldState) : Prop where
  nodes : s.nodes = t.nodes
  vars : s.vars = t.vars
  checkpoints : s.checkpoints = t.checkpoints
  nodeExecutions : s.nodeExecutions = t.nodeExecutions
  operationRecords : s.operationRecords = t.operationRecords
  operationAttempts : s.operationAttempts = t.operationAttempts
  budget : s.budget = t.budget
  latestFilePins : s.latestFilePins = t.latestFilePins
  historicalFilePins : s.historicalFilePins = t.historicalFilePins
  removedFiles : s.removedFiles = t.removedFiles

theorem sameProgress_of_carried {f g : FoldState} (h : f.carried = g.carried) :
    SameProgress f g := by
  have hcarried : SameProgress f.carried g.carried := by
    rw [h]
    constructor <;> rfl
  exact ⟨hcarried.nodes, hcarried.vars, hcarried.checkpoints, hcarried.nodeExecutions,
    hcarried.operationRecords, hcarried.operationAttempts, hcarried.budget,
    hcarried.latestFilePins, hcarried.historicalFilePins, hcarried.removedFiles⟩

theorem length_history_le (source : Source) (atSeq : Nat) :
    (history (selected source.durable atSeq) source.audit atSeq).length ≤
      source.durable.length + source.audit.length := by
  rw [history, length_insertionSort, length_append]
  apply Nat.add_le_add
  · rw [durableEntries, length_map]
    exact (length_filterMap_le _ _).trans (length_filter_le _ _)
  · exact length_filterMap_le _ _

theorem carryOver_admission (h : isAdmission e = true) : carryOver e = some e := by
  simp only [isAdmission, Bool.or_eq_true, decide_eq_true_eq] at h
  rcases h with h | h <;> simp [carryOver, h, leftBehind]

theorem select_ok (hat : ∃ e ∈ events, e.getU64 "seq" = some atSeq)
    (hadmitted : ∃ e ∈ events, isAdmission e = true ∧ ∃ n ≤ atSeq, e.getU64 "seq" = some n) :
    select sourceId events atSeq = .ok (selected events atSeq) := by
  obtain ⟨checkpoint, hcheckpoint, hseq⟩ := hat
  obtain ⟨admission, hadmission, hkind, n, hle, hn⟩ := hadmitted
  have hpresent : events.any (fun event => event.getU64 "seq" = some atSeq) = true :=
    any_eq_true.mpr ⟨checkpoint, hcheckpoint, by simp [hseq]⟩
  have hselected : (selected events atSeq).any isAdmission = true := by
    apply any_eq_true.mpr
    refine ⟨admission, mem_filterMap.mpr ⟨admission, ?_, carryOver_admission hkind⟩, hkind⟩
    rw [through, mem_filter]
    exact ⟨hadmission, by simp [hn, hle]⟩
  simp [select, hpresent, hselected]

theorem Rewritten.getU64_seq {written : Entry} (h : Rewritten stamps targetId entry written)
    (hseq : written.seq < 2 ^ 64) : written.event.getU64 "seq" = some written.seq := by
  obtain ⟨members, -, hevent⟩ := h.event
  rw [hevent]
  exact getU64_restamp hseq

theorem renumber_places {entries written : List Entry}
    (h : renumber stamps targetId 0 entries = .ok written) :
    (∀ w ∈ written, 0 < w.seq ∧ w.seq ≤ written.length) ∧
      written.Pairwise fun a b => a.seq < b.seq := by
  obtain ⟨hrewritten, hseqs⟩ := renumber_eq_ok h
  have hlength := hrewritten.length_eq
  constructor
  · intro w hw
    have hmem : w.seq ∈ written.map Entry.seq := mem_map_of_mem hw
    rw [hseqs, List.mem_range'_1] at hmem
    omega
  · rw [← pairwise_map (f := Entry.seq), hseqs]
    exact pairwise_lt_range'

theorem seqs_of_rewritten {entries written : List Entry}
    (h : List.Forall₂ (Rewritten stamps targetId) entries written)
    (hfits : ∀ w ∈ written, w.seq < 2 ^ 64) :
    (written.map Entry.event).map (·.getU64 "seq") = (written.map Entry.seq).map some := by
  induction h with
  | nil => rfl
  | @cons entry w entries written hw _ ih =>
    have hseq := hw.getU64_seq (hfits w (by simp))
    simp only [map_cons, hseq]
    rw [ih fun w hw => hfits w (by simp [hw])]

theorem follows_start : Follows targetId {} {} :=
  ⟨rfl, rfl, rfl⟩

/-- A fork is a renumbered copy of the source up to its checkpoint: both streams carry
consecutive numbers in the order of the source, and the journal folds to the progress that the
source had there, under the identity of the fork and without an end. -/
theorem fork_journal_faithful {source : Source} {src : RunState} (hapi : api.DeniesUnknown)
    (hfold : RunState.foldValues api source.durable = .ok src)
    (hdistinct : ((source.durable ++ source.audit).filterMap (·.getU64 "seq")).Nodup)
    (hat : ∃ e ∈ source.durable, e.getU64 "seq" = some atSeq)
    (hadmitted : ∃ e ∈ source.durable, isAdmission e = true ∧
      ∃ n ≤ atSeq, e.getU64 "seq" = some n) :
    ∃ streams cut state,
      select sourceId source.durable atSeq = .ok (selected source.durable atSeq) ∧
      writeStreams stamps sourceId targetId atSeq {} (selected source.durable atSeq)
        source.audit = .ok streams ∧
      (∃ order : List Entry,
        order.Perm (durableEntries (selected source.durable atSeq) ++
          auditEntries source.audit atSeq) ∧
        order.Pairwise (fun a b => a.seq < b.seq) ∧
        List.Forall₂ (Rewritten stamps targetId) order streams.written ∧
        (streams.written.map Entry.event ++ streams.own).map (·.getU64 "seq") =
          (List.range' 1 (order.length + 1)).map some) ∧
      through source.durable atSeq <+: source.durable ∧
      RunState.foldValues api (through source.durable atSeq) = .ok cut ∧
      streams.journal.foldlM (RunState.apply api) {} = .ok state ∧
      state.terminal = none ∧ state.runId = some targetId ∧
      SameProgress state.toFoldState cut.toFoldState ∧
      ∀ store forked, populateCheckpointFork api stamps store sourceId targetId atSeq {} source =
        .ok forked → forked.streams = streams ∧ forked.state = state := by
  obtain ⟨cut, hcut⟩ := @fold_through api atSeq {} src source.durable hfold
  obtain ⟨written, hwritten, hstreams⟩ := @writeStreams_ok api stamps sourceId targetId atSeq {} src
    source.durable source.audit hfold
  obtain ⟨hrewritten, hseqs⟩ := renumber_eq_ok hwritten
  obtain ⟨hplace, hgrows⟩ := renumber_places hwritten
  have hlength := hrewritten.length_eq
  have hfits : written.length + 2 < 2 ^ 64 := by
    have hsource := source.fits
    have hle := length_history_le source atSeq
    omega
  -- The durable records follow the fold of the source, and the marker comes behind them.
  have hdurable := Rewritten.durable hrewritten
  rw [history_durable (pairwise_durableEntries (RunState.foldFrom_seqs hfold).2)] at hdurable
  obtain ⟨t, ht, hfollows, hlast⟩ := Follows.run hapi hcut follows_start hdurable
    (hgrows.sublist filter_sublist) (by
      intro w hw
      obtain ⟨hpos, hle⟩ := hplace w (mem_of_mem_filter hw)
      exact ⟨hpos, by omega⟩)
  have hbefore : t.lastSeq < written.length + 1 := by
    rcases hlast with hlast | ⟨w, hw, hlast⟩
    · rw [hlast]
      exact Nat.succ_pos _
    · have hle := (hplace w (mem_of_mem_filter hw)).2
      omega
  have hmarker := @apply_forkEvent api stamps sourceId targetId atSeq (written.length + 1) t
    hfollows.running hbefore (by omega)
  have hjournal : (Streams.journal { written, own :=
      [forkEvent stamps sourceId targetId atSeq (written.length + 1)] }).foldlM
        (RunState.apply api) {} =
      .ok { t with lastSeq := written.length + 1, runId := some targetId } :=
    Except.foldlM_append_eq_ok.mpr ⟨t, ht, foldlM_cons_eq_ok.mpr ⟨_, hmarker, rfl⟩⟩
  have hselect := @select_ok sourceId atSeq source.durable hat hadmitted
  refine ⟨_, cut, _, hselect, hstreams, ⟨history (selected source.durable atSeq) source.audit atSeq,
    perm_insertionSort Entry.le _, history_strict hfold hdistinct, hrewritten, ?_⟩,
    through_prefix_of_fold hfold, hcut, hjournal, hfollows.running, rfl,
    sameProgress_of_carried hfollows.carried, ?_⟩
  · rw [map_append, seqs_of_rewritten hrewritten fun w hw => by
      have hle := (hplace w hw).2
      omega, hseqs, map_singleton, getU64_forkEvent (by omega), ← hlength, List.range'_1_concat,
      map_append, Nat.add_comm 1, hlength]
    rfl
  · intro store forked hforked
    obtain ⟨events, hevents, hforked⟩ := bind_eq_ok.mp hforked
    rw [hselect] at hevents
    cases hevents
    obtain ⟨plan, -, hforked⟩ := bind_eq_ok.mp hforked
    obtain ⟨workspace, -, hforked⟩ := bind_eq_ok.mp hforked
    obtain ⟨streams, hwrite, hforked⟩ := bind_eq_ok.mp hforked
    rw [hstreams] at hwrite
    cases hwrite
    dsimp only at hforked
    split at hforked
    · next state hfolded =>
      cases hforked
      have happly := RunState.foldlM_apply_of_foldFrom hfolded
      rw [hjournal] at happly
      cases happly
      exact ⟨rfl, rfl⟩
    · cases hforked

/-- Takes every payload but a confirmation request with members that are not its own. -/
def closedApi : Api :=
  { Api.plain with decodes := fun kind data =>
      kind ≠ .confirmRequest || data.asObject.all (onlyFields confirmRequestFields) }

theorem closedApi_deniesUnknown : closedApi.DeniesUnknown := by
  intro members h
  simpa [closedApi, Value.asObject] using h

/-- A step that asked for a confirmation after an observation was written. -/
def waitingSource : Source where
  durable :=
    [journaled 1 .runQueued "source" [], journaled 2 .stepStarted "source" [("node", .str "a")],
      journaled 4 .confirmRequest "source" [("node", .str "a"),
        ("confirm", .obj [("id", .str "c")]),
        ("files", FilePin.listToValue [⟨"out.txt", "draft"⟩])],
      journaled 5 .runWaiting "source" []]
  audit := [journaled 3 .toolCall "source" []]
  fits := by decide

def waitingState : RunState :=
  (RunState.foldValues closedApi waitingSource.durable).toOption.get (by decide +kernel)

def plainStamps : Stamps where
  now _ := "now"
  traceIdForRun run := run
  spanIdForSeq seq := toString seq
  spanIdForScope run scope := run ++ scope

theorem fork_journal_faithful_waiting :
    ∃ streams state,
      writeStreams plainStamps "source" "fork" 5 {} (selected waitingSource.durable 5)
        waitingSource.audit = .ok streams ∧
      streams.journal.foldlM (RunState.apply closedApi) {} = .ok state ∧
      state.terminal = none ∧ state.runId = some "fork" := by
  have hfold : RunState.foldValues closedApi waitingSource.durable = .ok waitingState := by
    decide +kernel
  obtain ⟨streams, cut, state, -, hstreams, -, -, -, hjournal, hrunning, hid, -, -⟩ :=
    @fork_journal_faithful closedApi plainStamps "source" "fork" 5 waitingSource waitingState
      closedApi_deniesUnknown hfold (by decide +kernel) (by decide +kernel) (by decide +kernel)
  exact ⟨streams, state, hstreams, hjournal, hrunning, hid⟩

end Fork

end Qcg
