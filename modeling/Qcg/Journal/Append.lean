import Qcg.Journal.Read
import Qcg.Journal.Stamp
import Qcg.State.Identity

/-!
# Conditional appends

`append_events_with`: a batch is selected from the state that the journal folds to and then
appended, all of it under the journal lock. The records are checked one after the other, each
against the state that the ones before it leave, and each is written as soon as it passes.
-/

namespace Qcg.Journal

open Json

/-- The serializer of records and of the folded state. -/
structure Codec where
  serialize : Value → Bytes
  stateBytes : RunState → Nat

/-- What the calls of one process have in common. -/
structure AppendEnv where
  api : Api
  stamps : Stamps
  codec : Codec
  limits : JournalLimits
  runId : String

/-- A record that is offered for an append. -/
abbrev Draft := EventKind × Value

namespace AppendEnv

variable (env : AppendEnv)

/-- An object payload is taken as it is, any other value becomes its only member. -/
def normalize (draft : Draft) : Except JournalError (EventKind × Members) :=
  let members := match draft.2 with
    | .obj members => members
    | value => [("value", value)]
  match (Members.get members "run_id").bind Value.asStr with
  | some payloadRunId =>
    if payloadRunId ≠ env.runId then
      .error (.invalidEvent ("journal event run_id mismatch: expected `" ++ env.runId ++
        "`, found `" ++ payloadRunId ++ "`"))
    else .ok (draft.1, members)
  | none => .ok (draft.1, members)

def stampRecord (seq : Nat) (kind : EventKind) (payload : Members) : Value :=
  .obj ((env.stamps.common env.runId seq kind).foldl
    (fun members entry => Members.insert members entry.1 entry.2) payload)

/-- Both streams share one sequence space. -/
def nextSeq (lastSeq auditSeq : Nat) : Except JournalError Nat :=
  let seq := max lastSeq auditSeq + 1
  if seq < 2 ^ 64 then .ok seq else .error (.invalidEvent "journal seq overflowed")

def serializeBounded (limit : Option Nat) (resource : String) (size : Nat) :
    Except JournalError Unit :=
  match limit with
  | none => .ok ()
  | some 0 => .error (.invalidLimit resource)
  | some limit =>
    if limit < size then .error (.limitExceeded resource (limit + 1) limit) else .ok ()

/-- The limits of a line with its newline, after the records that are already there. -/
def appendLine (stats : JournalStats) (size : Nat) : Except JournalError JournalStats := do
  checkLimit env.limits.maxEventCount (stats.events + 1) (.eventCountExceeded (stats.events + 1))
  checkLimit env.limits.maxEventBytes size (.limitExceeded "event" size)
  checkLimit env.limits.maxTotalBytes (stats.bytes + (size + 1))
    (.limitExceeded "total journal" (stats.bytes + (size + 1)))
  return ⟨stats.bytes + (size + 1), stats.events + 1⟩

/-- The state in memory and the counts of the file while a batch is written. -/
structure Writing where
  state : RunState
  stats : JournalStats

def appendRecord (auditSeq : Nat) (w : Writing) (record : EventKind × Members) :
    Except JournalError (Value × Writing) := do
  let seq ← nextSeq w.state.lastSeq auditSeq
  let event := env.stampRecord seq record.1 record.2
  match RunEvent.fromFlat env.api event with
  | .error message => .error (.invalidEvent message)
  | .ok _ =>
    let state ← w.state.apply env.api event
    serializeBounded env.limits.maxEventBytes "event" (env.codec.serialize event).length
    let stats ← env.appendLine w.stats (env.codec.serialize event).length
    return (event, ⟨state, stats⟩)

/-- The records that reach the file, and how the batch ends. -/
def appendRecords (auditSeq : Nat) (w : Writing) :
    List (EventKind × Members) → List Value × Except JournalError Writing
  | [] => ([], .ok w)
  | record :: records =>
    match env.appendRecord auditSeq w record with
    | .error error => ([], .error error)
    | .ok (event, w') =>
      let rest := appendRecords auditSeq w' records
      (event :: rest.1, rest.2)

def checkRunId (state : RunState) : Except JournalError Unit :=
  match state.runId with
  | some existing =>
    if existing ≠ env.runId then
      .error (.invalidEvent ("journal run_id mismatch: expected `" ++ env.runId ++
        "`, found `" ++ existing ++ "`"))
    else .ok ()
  | none => .ok ()

/-- The checks before the first record. -/
def prepareBatch (state : RunState) (select : RunState → Except JournalError (List Draft)) :
    Except JournalError (List (EventKind × Members)) := do
  env.checkRunId state
  let drafts ← select state
  drafts.mapM env.normalize

/-- The part of `append_events_with` behind the fold: `state` is what the journal of `bytes`
bytes folds to, `auditTail` the last position of the observation stream. -/
def appendEventsWith (state : RunState) (bytes auditTail : Nat)
    (select : RunState → Except JournalError (List Draft)) :
    List Value × Except JournalError (List Value) :=
  match env.prepareBatch state select with
  | .error error => ([], .error error)
  | .ok [] => ([], .ok [])
  | .ok records =>
    match env.appendRecords (max state.auditSeq auditTail) ⟨state, ⟨bytes, state.lastSeq⟩⟩
        records with
    | (events, .error error) => (events, .error error)
    | (events, .ok w) =>
      -- the state is stored after the records, so that a refusal leaves them in the file
      match serializeBounded env.limits.maxStateBytes "state" (env.codec.stateBytes w.state) with
      | .error error => (events, .error error)
      | .ok () => (events, .ok events)

def appendSingleEventIf (state : RunState) (bytes auditTail : Nat) (draft : Draft)
    (check : RunState → Except JournalError Unit) :
    List Value × Except JournalError (List Value) :=
  env.appendEventsWith state bytes auditTail fun state => do
    check state
    return [draft]

variable {env}

theorem serializeBounded_eq_ok {limit : Option Nat} {resource : String} {size : Nat} :
    serializeBounded limit resource size = .ok () ↔ ∀ l ∈ limit, 0 < l ∧ size ≤ l := by
  unfold serializeBounded
  split
  · simp
  · simp
  · next limit hne =>
    have hpos : 0 < limit := Nat.pos_of_ne_zero fun hzero => hne (by rw [hzero])
    split_ifs with h
    · simpa [hpos] using h
    · simpa [hpos] using h

theorem appendLine_eq_ok {stats stats' : JournalStats} {size : Nat} :
    env.appendLine stats size = .ok stats' ↔
      (∀ l ∈ env.limits.maxEventCount, stats.events + 1 ≤ l) ∧
        (∀ l ∈ env.limits.maxEventBytes, size ≤ l) ∧
        (∀ l ∈ env.limits.maxTotalBytes, stats.bytes + (size + 1) ≤ l) ∧
        stats' = ⟨stats.bytes + (size + 1), stats.events + 1⟩ := by
  simp only [appendLine, Except.unit_bind_eq_ok, checkLimit_eq_ok, pure, Except.pure,
    Except.ok.injEq, @eq_comm _ stats']

/-- What a record has to pass: its position, the fold after the records before it, its own
size, and the count and the bytes of the file with it. -/
theorem appendRecord_eq_ok {auditSeq : Nat} {w w' : Writing} {record : EventKind × Members}
    {event : Value} : env.appendRecord auditSeq w record = .ok (event, w') ↔
      max w.state.lastSeq auditSeq + 1 < 2 ^ 64 ∧
      event = env.stampRecord (max w.state.lastSeq auditSeq + 1) record.1 record.2 ∧
      w.state.applyChecked env.api event = .ok w'.state ∧
      (∀ l ∈ env.limits.maxEventBytes, 0 < l ∧ (env.codec.serialize event).length ≤ l) ∧
      (∀ l ∈ env.limits.maxEventCount, w.stats.events + 1 ≤ l) ∧
      (∀ l ∈ env.limits.maxTotalBytes,
        w.stats.bytes + ((env.codec.serialize event).length + 1) ≤ l) ∧
      w'.stats = ⟨w.stats.bytes + ((env.codec.serialize event).length + 1),
        w.stats.events + 1⟩ := by
  rw [appendRecord, Except.bind_eq_ok]
  constructor
  · rintro ⟨seq, hseq, h⟩
    simp only [nextSeq] at hseq
    split_ifs at hseq with hfits
    cases hseq
    simp only at h
    split at h
    · cases h
    · next parsed hparsed =>
      obtain ⟨state, hstate, h⟩ := Except.bind_eq_ok.mp h
      obtain ⟨hsize, h⟩ := Except.unit_bind_eq_ok.mp h
      obtain ⟨stats, hstats, h⟩ := Except.bind_eq_ok.mp h
      obtain ⟨hcount, -, hbytes, rfl⟩ := appendLine_eq_ok.mp hstats
      cases h
      refine ⟨hfits, rfl, ?_, serializeBounded_eq_ok.mp hsize, hcount, hbytes, rfl⟩
      rw [RunState.applyChecked, hparsed]
      exact hstate
  · rintro ⟨hfits, rfl, happly, hsize, hcount, hbytes, hstats⟩
    refine ⟨_, if_pos hfits, ?_⟩
    obtain ⟨⟨parsed, hparsed⟩, hstate⟩ := RunState.applyChecked_eq_ok happly
    have hline := appendLine_eq_ok.mpr ⟨hcount, fun l hl => (hsize l hl).2, hbytes, hstats⟩
    simp only [hparsed, hstate, serializeBounded_eq_ok.mpr hsize, hline, bind, Except.bind]
    rfl

theorem get_stampRecord (seq : Nat) (kind : EventKind) (payload : Members) {key : String}
    (h : key ∉ Stamps.stampKeys) :
    (env.stampRecord seq kind payload).get key = Members.get payload key := by
  have hnone : Members.get (env.stamps.common env.runId seq kind).reverse key = none := by
    simp only [Stamps.stampKeys, List.mem_cons, List.not_mem_nil, or_false, not_or] at h
    obtain ⟨h1, h2, h3, h4, h5, h6, -⟩ := h
    simp [Stamps.common, Members.get_cons, h1, h2, h3, h4, h5, h6]
  rw [stampRecord, Value.get_obj, Members.get_foldl_insert, hnone, Option.none_or]

theorem kindOf_stampRecord (seq : Nat) (kind : EventKind) (payload : Members) :
    kindOf (env.stampRecord seq kind payload) = some kind := by
  have hname : (env.stampRecord seq kind payload).getStr "t" = some kind.name := by
    rw [Value.getStr, stampRecord, Value.get_obj, Members.get_foldl_insert]
    simp [Stamps.common, Members.get_cons]
  rw [kindOf, hname, Option.bind_some, EventKind.ofName_name]

theorem getU64_stampRecord {seq : Nat} (h : seq < 2 ^ 64) (kind : EventKind) (payload : Members) :
    (env.stampRecord seq kind payload).getU64 "seq" = some seq := by
  rw [Value.getU64, stampRecord, Value.get_obj, Members.get_foldl_insert]
  simpa [Stamps.common, Members.get_cons, Value.asU64] using h

theorem appendSingleEventIf_cases (state : RunState) (bytes auditTail : Nat) (kind : EventKind)
    (payload : Members) (check : RunState → Except JournalError Unit) :
    (env.appendSingleEventIf state bytes auditTail (kind, .obj payload) check).1 = [] ∨
      ∃ event seq state',
        (env.appendSingleEventIf state bytes auditTail (kind, .obj payload) check).1 = [event] ∧
        check state = .ok () ∧ event = env.stampRecord seq kind payload ∧
        state.applyChecked env.api event = .ok state' := by
  rw [appendSingleEventIf, appendEventsWith]
  cases hprepared : env.prepareBatch state fun state => do
      check state
      return [(kind, Value.obj payload)] with
  | error error => exact .inl rfl
  | ok records =>
    obtain ⟨-, hbatch⟩ := Except.unit_bind_eq_ok.mp hprepared
    obtain ⟨drafts, hdrafts, hbatch⟩ := Except.bind_eq_ok.mp hbatch
    obtain ⟨hcheck, hdrafts⟩ := Except.unit_bind_eq_ok.mp hdrafts
    cases hdrafts
    have hrecords : records = [(kind, payload)] := by
      rw [List.mapM_cons, Except.bind_eq_ok] at hbatch
      obtain ⟨record, hrecord, hbatch⟩ := hbatch
      cases hbatch
      unfold normalize at hrecord
      simp only at hrecord
      split at hrecord
      · split at hrecord
        · cases hrecord
        · cases hrecord
          rfl
      · cases hrecord
        rfl
    subst hrecords
    simp only [appendRecords]
    cases happend : env.appendRecord (max state.auditSeq auditTail)
        ⟨state, ⟨bytes, state.lastSeq⟩⟩ (kind, payload) with
    | error error => exact .inl rfl
    | ok written =>
      right
      obtain ⟨event, w⟩ := written
      obtain ⟨-, hevent, happly, -⟩ := appendRecord_eq_ok.mp happend
      refine ⟨event, _, w.state, ?_, hcheck, hevent, happly⟩
      simp only
      split <;> rfl

/-- The journal once the records have reached it, each as a line of its own. -/
def journalAfter (env : AppendEnv) (journal : Bytes) (events : List Value) : Bytes :=
  journal ++ (events.map fun event => env.codec.serialize event ++ [newline]).flatten

theorem journalAfter_eq_self {journal : Bytes} {events : List Value} :
    env.journalAfter journal events = journal ↔ events = [] := by
  cases events <;> simp [journalAfter]

/-- The events of a batch, the first of which gets `seq`. -/
def stampAll (env : AppendEnv) (seq : Nat) : List (EventKind × Members) → List Value
  | [] => []
  | record :: records => env.stampRecord seq record.1 record.2 :: env.stampAll (seq + 1) records

/-- Events that can be appended one after the other, ending in the state `final`. -/
structure Admits (env : AppendEnv) (auditSeq : Nat) (w : Writing) (events : List Value)
    (final : RunState) : Prop where
  folds : RunState.foldFrom env.api w.state events = .ok final
  sizes : ∀ event ∈ events, ∀ l ∈ env.limits.maxEventBytes,
    0 < l ∧ (env.codec.serialize event).length ≤ l
  seqs : events ≠ [] → max w.state.lastSeq auditSeq + events.length < 2 ^ 64
  count : events ≠ [] → ∀ l ∈ env.limits.maxEventCount, w.stats.events + events.length ≤ l
  bytes : events ≠ [] → ∀ l ∈ env.limits.maxTotalBytes,
    w.stats.bytes + (events.map fun event => (env.codec.serialize event).length + 1).sum ≤ l

theorem admits_nil {auditSeq : Nat} {w : Writing} {final : RunState} :
    env.Admits auditSeq w [] final ↔ w.state = final := by
  constructor
  · intro h
    exact Except.ok.inj h.folds
  · rintro rfl
    exact ⟨rfl, by simp, by simp, by simp, by simp⟩

theorem admits_cons {auditSeq : Nat} {w : Writing} {record : EventKind × Members}
    {records : List (EventKind × Members)} {final : RunState} :
    env.Admits auditSeq w (env.stampAll (max w.state.lastSeq auditSeq + 1) (record :: records))
        final ↔
      ∃ event w', env.appendRecord auditSeq w record = .ok (event, w') ∧
        env.Admits auditSeq w' (env.stampAll
          (max w'.state.lastSeq auditSeq + 1) records) final := by
  -- the next position is the one after this record
  have hnext {state : RunState} (hfits : max w.state.lastSeq auditSeq + 1 < 2 ^ 64)
      (happly : w.state.applyChecked env.api
        (env.stampRecord (max w.state.lastSeq auditSeq + 1) record.1 record.2) = .ok state) :
      max state.lastSeq auditSeq = max w.state.lastSeq auditSeq + 1 := by
    have hlast := (RunState.applyChecked_seq happly).1
    rw [getU64_stampRecord hfits, Option.some.injEq] at hlast
    omega
  rw [stampAll]
  constructor
  · rintro ⟨hfolds, hsizes, hseqs, hcount, hbytes⟩
    obtain ⟨state, happly, hrest⟩ := Except.foldlM_cons_eq_ok.mp hfolds
    rw [List.forall_mem_cons] at hsizes
    have hseqs := hseqs (by simp)
    have hcount := hcount (by simp)
    have hbytes := hbytes (by simp)
    simp only [List.length_cons, List.map_cons, List.sum_cons] at hseqs hcount hbytes
    have hpos := hnext (by omega) happly
    refine ⟨_, ⟨state, _⟩, appendRecord_eq_ok.mpr ⟨by omega, rfl, happly, hsizes.1,
      fun l hl => ?_, fun l hl => ?_, rfl⟩, ?_⟩
    · have := hcount l hl
      omega
    · have := hbytes l hl
      omega
    · rw [hpos]
      refine ⟨hrest, hsizes.2, fun _ => ?_, fun _ l hl => ?_, fun _ l hl => ?_⟩
      · rw [hpos]
        omega
      · have := hcount l hl
        simp only
        omega
      · have := hbytes l hl
        simp only
        omega
  · rintro ⟨event, w', happend, hadmits⟩
    obtain ⟨hfits, rfl, happly, hsize, hcount, hbytes, hstats⟩ := appendRecord_eq_ok.mp happend
    have hpos := hnext hfits happly
    rw [hpos] at hadmits
    obtain ⟨hfolds, hsizes, hseqs, hcounts, hsum⟩ := hadmits
    rw [hpos] at hseqs
    simp only [hstats] at hcounts hsum
    refine ⟨Except.foldlM_cons_eq_ok.mpr ⟨w'.state, happly, hfolds⟩,
      List.forall_mem_cons.mpr ⟨hsize, hsizes⟩, fun _ => ?_, fun _ l hl => ?_, fun _ l hl => ?_⟩
    · rcases List.eq_nil_or_concat' (env.stampAll _ records) with hlast | ⟨others, last, hlast⟩
      · rw [hlast]
        exact hfits
      · have := hseqs (by simp [hlast])
        simp only [List.length_cons]
        omega
    · rcases List.eq_nil_or_concat' (env.stampAll _ records) with hlast | ⟨others, last, hlast⟩
      · rw [hlast]
        exact hcount l hl
      · have := hcounts (by simp [hlast]) l hl
        simp only [List.length_cons]
        omega
    · rcases List.eq_nil_or_concat' (env.stampAll _ records) with hlast | ⟨others, last, hlast⟩
      · rw [hlast]
        simpa using hbytes l hl
      · have := hsum (by simp [hlast]) l hl
        simp only [List.map_cons, List.sum_cons]
        omega

theorem appendRecords_eq_ok {auditSeq : Nat} {w : Writing} {records : List (EventKind × Members)}
    {final : RunState} :
    (∃ w', (env.appendRecords auditSeq w records).2 = .ok w' ∧ w'.state = final) ↔
      env.Admits auditSeq w (env.stampAll (max w.state.lastSeq auditSeq + 1) records) final := by
  induction records generalizing w with
  | nil => simp [appendRecords, stampAll, admits_nil]
  | cons record records ih =>
    rw [admits_cons]
    simp only [← ih, appendRecords]
    cases happend : env.appendRecord auditSeq w record with
    | error error => simp
    | ok written => simp [Prod.ext_iff]

theorem appendRecords_fits {auditSeq : Nat} {w : Writing} {records : List (EventKind × Members)}
    {P : RunState → Prop} :
    (∃ w', (env.appendRecords auditSeq w records).2 = .ok w' ∧ P w'.state) ↔
      ∃ final, env.Admits auditSeq w (env.stampAll (max w.state.lastSeq auditSeq + 1) records)
        final ∧ P final := by
  constructor
  · rintro ⟨w', hw', hfits⟩
    exact ⟨w'.state, appendRecords_eq_ok.mp ⟨w', hw', rfl⟩, hfits⟩
  · rintro ⟨final, hadmits, hfits⟩
    obtain ⟨w', hw', rfl⟩ := appendRecords_eq_ok.mpr hadmits
    exact ⟨w', hw', hfits⟩

/-- A batch that can be appended as a whole, with a state that can be stored, or that is refused
at its first record. -/
def AllOrNothing (env : AppendEnv) (state : RunState) (bytes auditTail : Nat)
    (select : RunState → Except JournalError (List Draft)) : Prop :=
  ∀ record records, env.prepareBatch state select = .ok (record :: records) →
    let auditSeq := max state.auditSeq auditTail
    let seq := max state.lastSeq auditSeq + 1
    (∃ final, env.Admits auditSeq ⟨state, ⟨bytes, state.lastSeq⟩⟩
        (env.stampAll seq (record :: records)) final ∧
      ∀ l ∈ env.limits.maxStateBytes, 0 < l ∧ env.codec.stateBytes final ≤ l) ∨
    ¬∃ final, env.Admits auditSeq ⟨state, ⟨bytes, state.lastSeq⟩⟩
      (env.stampAll seq [record]) final

/-- The records that reach the file, and when the call succeeds. -/
theorem appendEventsWith_spec {state : RunState} {bytes auditTail : Nat}
    {select : RunState → Except JournalError (List Draft)} {record : EventKind × Members}
    {records : List (EventKind × Members)}
    (h : env.prepareBatch state select = .ok (record :: records)) :
    (env.appendEventsWith state bytes auditTail select).1 =
        (env.appendRecords (max state.auditSeq auditTail) ⟨state, ⟨bytes, state.lastSeq⟩⟩
          (record :: records)).1 ∧
      ((∃ error, (env.appendEventsWith state bytes auditTail select).2 = .error error) ↔
        ¬∃ w, (env.appendRecords (max state.auditSeq auditTail) ⟨state, ⟨bytes, state.lastSeq⟩⟩
          (record :: records)).2 = .ok w ∧
          ∀ l ∈ env.limits.maxStateBytes, 0 < l ∧ env.codec.stateBytes w.state ≤ l) := by
  simp only [appendEventsWith, h]
  generalize env.appendRecords (max state.auditSeq auditTail) ⟨state, ⟨bytes, state.lastSeq⟩⟩
    (record :: records) = written
  obtain ⟨events, result⟩ := written
  cases result with
  | error error => simp
  | ok w =>
    have hstate := @serializeBounded_eq_ok env.limits.maxStateBytes "state"
      (env.codec.stateBytes w.state)
    cases hstored : serializeBounded env.limits.maxStateBytes "state"
        (env.codec.stateBytes w.state) with
    | error error => simpa [hstored] using hstate
    | ok => simpa [hstored] using hstate

theorem appendRecords_eq_nil {auditSeq : Nat} {w : Writing} {record : EventKind × Members}
    {records : List (EventKind × Members)} :
    (env.appendRecords auditSeq w (record :: records)).1 = [] ↔
      ¬∃ final, env.Admits auditSeq w
        (env.stampAll (max w.state.lastSeq auditSeq + 1) [record]) final := by
  rw [exists_congr fun final => @admits_cons env auditSeq w record [] final]
  simp only [stampAll, admits_nil, appendRecords]
  cases env.appendRecord auditSeq w record with
  | error error => simp
  | ok written => simp [Prod.ext_iff]

/-- A failing call leaves the journal as it was exactly for the batches that can be appended as
a whole or are refused at the first record. -/
theorem failed_batch_unchanged_iff (env : AppendEnv) (state : RunState) (journal : Bytes)
    (auditTail : Nat) (select : RunState → Except JournalError (List Draft)) :
    ((∃ error, (env.appendEventsWith state journal.length auditTail select).2 = .error error) →
      env.journalAfter journal (env.appendEventsWith state journal.length auditTail select).1 =
        journal) ↔
    env.AllOrNothing state journal.length auditTail select := by
  rw [journalAfter_eq_self]
  cases hbatch : env.prepareBatch state select with
  | error error => simp [AllOrNothing, appendEventsWith, hbatch]
  | ok records =>
    cases records with
    | nil => simp [AllOrNothing, appendEventsWith, hbatch]
    | cons record records =>
      obtain ⟨hevents, hfails⟩ :=
        @appendEventsWith_spec env state journal.length auditTail select record records hbatch
      rw [hevents, hfails, appendRecords_eq_nil, AllOrNothing, hbatch]
      rw [@appendRecords_fits env _ ⟨state, ⟨journal.length, state.lastSeq⟩⟩ _ fun final =>
        ∀ l ∈ env.limits.maxStateBytes, 0 < l ∧ env.codec.stateBytes final ≤ l]
      constructor
      · intro h first rest heq
        cases heq
        exact or_iff_not_imp_left.mpr h
      · intro h hnot
        exact (h record records rfl).resolve_left hnot

/-- An interface that insists on the members of an admission record. -/
def admissionApi : Api :=
  { Api.plain with
    decodes kind value :=
      if kind = .runQueued ∨ kind = .runStarted then
        ["generator", "generator_path", "contract_sha256", "elapsed_budget_mode"].all
            (fun key => (value.getStr key).isSome) &&
          ((value.get "inputs").bind Value.asObject).isSome &&
          (value.getU64 "schema_version").isSome
      else true }

def plainAppend : AppendEnv where
  api := admissionApi
  stamps := ⟨fun _ => "now", fun _ => "trace", fun _ => "span", fun _ _ => "scope"⟩
  codec := ⟨fun _ => [], fun _ => 0⟩
  limits := .unlimited
  runId := "run"

/-- An admission record and an answer without its values. -/
def admittedAndAnswered : List Draft :=
  [(.runQueued, .obj [("generator", .str "g@1"), ("generator_path", .str "g"),
      ("contract_sha256", .str "c"), ("inputs", .obj []), ("schema_version", .num 1)]),
    (.userAnswered, .obj [("question_id", .str "q")])]

/-- The fold refuses the answer; the record before it stays. -/
theorem refused_answer_leaves_record :
    (plainAppend.appendEventsWith {} 0 0 fun _ => .ok admittedAndAnswered).2.toOption = none ∧
      plainAppend.journalAfter []
          (plainAppend.appendEventsWith {} 0 0 fun _ => .ok admittedAndAnswered).1 =
        [newline] := by
  decide +kernel

end AppendEnv

end Qcg.Journal
