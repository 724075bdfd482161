import Qcg.Journal.Repair

/-!
# Crashes of the journal writers

`durable_event` appends its line and then writes or clears the clean-shutdown marker;
`append_events_with` clears the marker before its lines unless its batch seals the run. A crash
cuts a call short between two of these effects or within a line, and the next writer repairs
the tail.
-/

namespace Qcg.Journal.Crashes

open List

open LineFile

/-- A record as it is written. The text of an object is no beginning of another one. -/
structure Record (parse : Parser) where
  kind : EventKind
  line : LineFile.Line newline
  line_ne_nil : line.1 ≠ []
  whole : ∀ part, part <+: line.1 → part ≠ line.1 → completeEvent parse part = false

structure RunDir where
  journal : Bytes
  marker : Bool

inductive Effect where
  | append (line : LineFile.Line newline)
  | writeMarker
  | clearMarker

def RunDir.perform (dir : RunDir) : Effect → RunDir
  | .append line => { dir with journal := dir.journal ++ encode [line] }
  | .writeMarker => { dir with marker := true }
  | .clearMarker => { dir with marker := false }

inductive WriterCall (parse : Parser) where
  | durableEvent (record : Record parse)
  | appendEventsWith (records : List (Record parse))

namespace WriterCall

variable {parse : Parser}

def records : WriterCall parse → List (Record parse)
  | durableEvent record => [record]
  | appendEventsWith records => records

def appends (records : List (Record parse)) : List Effect :=
  records.map fun record => .append record.line

/-- What a call does to the directory, in its order. -/
def effects : WriterCall parse → List Effect
  | durableEvent record =>
    appends [record] ++ [if record.kind.isTerminal then .writeMarker else .clearMarker]
  | appendEventsWith records =>
    if records.isEmpty then []
    else if records.any (·.kind.isTerminal) then appends records ++ [.writeMarker]
    else .clearMarker :: appends records

/-- The marker goes before anything is appended: a batch that does not seal the run. -/
def clearsFirst : WriterCall parse → Bool
  | durableEvent _ => false
  | appendEventsWith records => !records.any (·.kind.isTerminal)

end WriterCall

variable {parse : Parser}

def RunDir.complete (dir : RunDir) (call : WriterCall parse) : RunDir :=
  call.effects.foldl RunDir.perform dir

def RunDir.after (calls : List (WriterCall parse)) : RunDir :=
  calls.foldl RunDir.complete ⟨[], false⟩

inductive Crash : RunDir → List Effect → RunDir → Prop
  | stop (dir : RunDir) (effects : List Effect) : Crash dir effects dir
  | torn (dir : RunDir) (line : LineFile.Line newline) (effects : List Effect) {part : Bytes}
      (hpart : part <+: line.1) :
      Crash dir (.append line :: effects) { dir with journal := dir.journal ++ part }
  | next {dir dir' : RunDir} {effect : Effect} {effects : List Effect}
      (h : Crash (dir.perform effect) effects dir') : Crash dir (effect :: effects) dir'

def markerFile (marker : Bool) : Marker :=
  if marker then .file cleanShutdownMagic false else .absent

def reopen (parse : Parser) (limits : JournalLimits) (dir : RunDir) :
    Except JournalError (Option Bytes) :=
  repairTruncatedTailLocked parse (markerFile dir.marker) limits (some dir.journal)

/-- The journal is reopened with the lines it had and some of the call's own. -/
def Reopens (limits : JournalLimits) (dir : RunDir) (records : List (Record parse))
    (crashed : RunDir) : Prop :=
  ∃ k, reopen parse limits crashed =
    .ok (some (dir.journal ++ encode ((records.take k).map Record.line)))

/-- A repair looks back far enough for every line of a call. Seventeen windows are read for the
newline before the torn line; without one in the file, sixteen are the most that is read. -/
def Reachable (limits : JournalLimits) (dir : RunDir) (records : List (Record parse)) : Prop :=
  ∀ k record, records[k]? = some record →
    if dir.journal = [] ∧ k = 0 then record.line.1.length ≤ (scanWindow limits).1 * 16
    else record.line.1.length < (scanWindow limits).1 * 17

theorem terminated_encode (lines : List (LineFile.Line newline)) :
    Terminated newline (encode lines) := by
  by_cases h : lines = []
  · exact .inl (by simp [h])
  · exact .inr (getLast?_encode h)

variable {dir crashed : RunDir} {byte : UInt8} (limits : JournalLimits)

theorem reopen_terminated (h : Terminated newline dir.journal) :
    reopen parse limits dir = .ok (some dir.journal) := by
  rw [reopen, repairTruncatedTailLocked_eq, if_pos h]
  rfl

variable {front part : Bytes}

theorem not_terminated_append (hfront : Terminated newline front) (hfree : newline ∉ part)
    (hpart : part ≠ []) : ¬Terminated newline (front ++ part) := by
  intro h
  have hsettled := settled_eq_self h
  rw [(settled_torn_append hfront hfree).1] at hsettled
  simp [hpart] at hsettled

theorem oversized_append_iff {window : ScanWindow} (hfront : Terminated newline front)
    (hfree : newline ∉ part) :
    Oversized window (front ++ part) ↔
      if front = [] then window.1 * 16 < part.length else window.1 * 17 ≤ part.length := by
  have hwindow := window.2
  unfold Oversized
  rcases hfront with rfl | hlast
  · have hdrop : newline ∉ part.drop (part.length - window.1 * 17) :=
      fun hmem => hfree (mem_of_mem_drop hmem)
    simpa using fun _ => hdrop
  · obtain ⟨body, rfl⟩ := List.getLast?_eq_some_iff.mp hlast
    rw [if_neg (by simp)]
    constructor
    · rintro ⟨-, hnone⟩
      by_contra hshort
      refine hnone ?_
      rw [append_assoc, drop_append]
      have hzero : (body ++ ([newline] ++ part)).length - window.1 * 17 - body.length = 0 := by
        simp only [length_append, length_singleton]
        omega
      refine mem_append_right _ ?_
      rw [hzero]
      simp
    · intro hlong
      refine ⟨by simp only [length_append]; omega, ?_⟩
      rw [drop_append, drop_eq_nil_of_le (by simp only [length_append]; omega), nil_append]
      exact fun hmem => hfree (mem_of_mem_drop hmem)

/-- Without the marker a torn record within reach is completed or dropped. -/
theorem reopen_torn (record : Record parse) (hfront : Terminated newline front)
    (hpart : part <+: record.line.1) (hfits : ¬Oversized (scanWindow limits) (front ++ part)) :
    reopen parse limits ⟨front ++ part, false⟩ = .ok (some front) ∨
    reopen parse limits ⟨front ++ part, false⟩ = .ok (some (front ++ encode [record.line])) := by
  have hfree : newline ∉ part := fun h => record.line.2 (hpart.subset h)
  by_cases hnil : part = []
  · subst hnil
    rw [append_nil]
    exact .inl (reopen_terminated limits hfront)
  have hopen := not_terminated_append hfront hfree hnil
  rw [reopen, repairTruncatedTailLocked_eq, if_neg hopen, if_neg hfits]
  obtain ⟨hsettled, htorn⟩ := @settled_torn_append _ _ _ _ _ hfront hfree
  have hrepair : repairTorn parse (markerFile false) (front ++ part) =
      .ok (if completeEvent parse part then front ++ part ++ [newline] else front) := by
    simp [repairTorn, markerFile, tamperGate, repaired, hsettled, htorn, bind, Except.bind]
  rw [hrepair]
  by_cases hcomplete : completeEvent parse part = true
  · have hwhole : part = record.line.1 := by
      by_contra hne
      rw [record.whole part hpart hne] at hcomplete
      cases hcomplete
    refine .inr ?_
    rw [if_pos hcomplete, hwhole]
    simp [encode]
  · rw [if_neg hcomplete]
    exact .inl rfl

/-- A torn line behind whole lines that is out of reach, or that the marker forbids, is not
repaired. -/
theorem not_reopens_torn (hfront : Terminated newline front) (hfree : newline ∉ part)
    (hpart : part ≠ []) (dir : RunDir) (records : List (Record parse)) (marker : Bool)
    (h : marker = true ∨ Oversized (scanWindow limits) (front ++ part)) :
    ¬Reopens limits dir records ⟨front ++ part, marker⟩ := by
  rintro ⟨k, hok⟩
  rw [reopen, repairTruncatedTailLocked_eq,
    if_neg (not_terminated_append hfront hfree hpart)] at hok
  split_ifs at hok with hover
  · cases hok
  · rw [h.resolve_right hover] at hok
    cases hok

theorem reopen_marked (lines : List (LineFile.Line newline)) (hbyte : byte ≠ newline) :
    reopen parse limits ⟨encode lines ++ [byte], true⟩ = .error
      (.invalidEvent markerIsPresent) := by
  have hfree : newline ∉ [byte] := by simpa using hbyte.symm
  have hopen := not_terminated_append (terminated_encode lines) hfree (by simp)
  have hfits : ¬Oversized (scanWindow limits) (encode lines ++ [byte]) := by
    have hwindow := (scanWindow limits).2
    rw [oversized_append_iff (terminated_encode lines) hfree]
    split_ifs <;> simp only [length_singleton] <;> omega
  rw [reopen, repairTruncatedTailLocked_eq, if_neg hopen, if_neg hfits]
  rfl

theorem crash_keeps_journal {effects : List Effect} (hmarks : ∀ line, .append line ∉ effects)
    (h : Crash dir effects crashed) :
    crashed.journal = dir.journal := by
  induction h with
  | stop => rfl
  | torn dir line => exact absurd mem_cons_self (hmarks line)
  | @next dir dir' effect effects h ih =>
    rw [ih fun line hline => hmarks line (mem_cons_of_mem _ hline)]
    cases effect with
    | append line => exact absurd mem_cons_self (hmarks line)
    | writeMarker => rfl
    | clearMarker => rfl

theorem crash_appends {records : List (Record parse)} {tail : List Effect}
    (hmarks : ∀ line, .append line ∉ tail) (hmarker : dir.marker = false)
    (h : Crash dir (WriterCall.appends records ++ tail) crashed) :
    ∃ k, crashed.journal = dir.journal ++ encode ((records.take k).map Record.line) ∨
      ∃ record part, records[k]? = some record ∧ part <+: record.line.1 ∧
        crashed = ⟨dir.journal ++ encode ((records.take k).map Record.line) ++ part, false⟩ := by
  induction records generalizing dir with
  | nil => exact ⟨0, .inl (by simpa using crash_keeps_journal hmarks h)⟩
  | cons record records ih =>
    cases h with
    | stop => exact ⟨0, .inl (by simp)⟩
    | torn _ _ _ hpart =>
      exact ⟨0, .inr ⟨record, _, rfl, hpart, by simp [hmarker]⟩⟩
    | next hnext =>
      have hkept : (dir.perform (.append record.line)).marker = false := hmarker
      obtain ⟨k, hk⟩ := ih hkept hnext
      refine ⟨k + 1, ?_⟩
      have hjournal : dir.journal ++ encode (((record :: records).take (k + 1)).map Record.line) =
          (dir.perform (.append record.line)).journal ++
            encode ((records.take k).map Record.line) := by
        simp [RunDir.perform]
      rw [hjournal]
      simpa using hk

/-- A crash can leave any line of a batch torn. -/
theorem crash_torn_at {records : List (Record parse)} {record : Record parse} {k : Nat}
    (tail : List Effect) (hrecord : records[k]? = some record) (hpart : part <+: record.line.1)
    (dir : RunDir) :
    Crash dir (WriterCall.appends records ++ tail)
      ⟨dir.journal ++ encode ((records.take k).map Record.line) ++ part, dir.marker⟩ := by
  induction records generalizing dir k with
  | nil => simp at hrecord
  | cons first records ih =>
    cases k with
    | zero =>
      obtain rfl : first = record := by simpa using hrecord
      simpa [WriterCall.appends] using
        Crash.torn dir first.line (WriterCall.appends records ++ tail) hpart
    | succ k =>
      have hrest := ih (by simpa using hrecord) (dir.perform (.append first.line))
      simpa [WriterCall.appends, RunDir.perform] using hrest.next

section Appends

variable {records : List (Record parse)} {lines : List (LineFile.Line newline)} {tail : List Effect}

theorem terminated_front (hlines : dir.journal = encode lines) (k : Nat) :
    Terminated newline (dir.journal ++ encode ((records.take k).map Record.line)) := by
  rw [hlines, ← encode_append]
  exact terminated_encode _

/-- Whether the torn line of a crash is within reach. -/
theorem oversized_torn_iff (hlines : dir.journal = encode lines) {k : Nat} {record : Record parse}
    (hrecord : records[k]? = some record) (hpart : part <+: record.line.1) :
    Oversized (scanWindow limits)
        (dir.journal ++ encode ((records.take k).map Record.line) ++ part) ↔
      if dir.journal = [] ∧ k = 0 then (scanWindow limits).1 * 16 < part.length
      else (scanWindow limits).1 * 17 ≤ part.length := by
  have hfree : newline ∉ part := fun h => record.line.2 (hpart.subset h)
  rw [oversized_append_iff (terminated_front hlines k) hfree]
  have hpos : records ≠ [] := by
    rintro rfl
    simp at hrecord
  cases k with
  | zero => simp
  | succ k =>
    obtain ⟨first, rest, rfl⟩ := exists_cons_of_ne_nil hpos
    simp

theorem reopens_appends (limits : JournalLimits) (hmarks : ∀ line, .append line ∉ tail)
    (hmarker : dir.marker = false) (hlines : dir.journal = encode lines)
    (hreach : Reachable limits dir records)
    (h : Crash dir (WriterCall.appends records ++ tail) crashed) :
    Reopens limits dir records crashed := by
  obtain ⟨k, hk | ⟨record, part, hrecord, hpart, rfl⟩⟩ := crash_appends hmarks hmarker h
  · refine ⟨k, ?_⟩
    rw [← hk]
    exact reopen_terminated limits (by rw [hk]; exact terminated_front hlines k)
  · have hfits : ¬Oversized (scanWindow limits)
        (dir.journal ++ encode ((records.take k).map Record.line) ++ part) := by
      have hline := hreach k record hrecord
      have hle := hpart.length_le
      rw [oversized_torn_iff limits hlines hrecord hpart]
      split_ifs at hline ⊢ <;> omega
    rcases reopen_torn limits record (terminated_front hlines k) hpart hfits with
      hdropped | hcompleted
    · exact ⟨k, hdropped⟩
    · refine ⟨k + 1, ?_⟩
      rw [hcompleted, take_add_one, hrecord]
      simp

/-- A line that is out of reach can be left torn as a whole. -/
theorem reachable_of_reopens (hlines : dir.journal = encode lines)
    (h : ∀ crashed, Crash dir (WriterCall.appends records ++ tail) crashed →
      ∃ start, Reopens limits start records crashed) : Reachable limits dir records := by
  intro k record hrecord
  by_contra hlong
  have hfree : newline ∉ record.line.1 := record.line.2
  have hover := (oversized_torn_iff limits hlines hrecord (prefix_refl _)).mpr (by
    split_ifs at hlong ⊢ <;> omega)
  obtain ⟨start, hreopens⟩ := h _ (crash_torn_at tail hrecord (prefix_refl _) dir)
  exact not_reopens_torn limits (terminated_front hlines k) hfree record.line_ne_nil start records
    _ (.inr hover) hreopens

end Appends

theorem after_journal (calls : List (WriterCall parse)) :
    ∃ lines : List (LineFile.Line newline), (RunDir.after calls).journal = encode lines := by
  have hperform : ∀ (effects : List Effect) (dir : RunDir),
      (∃ lines : List (LineFile.Line newline), dir.journal = encode lines) →
      ∃ lines : List (LineFile.Line newline),
        (effects.foldl RunDir.perform dir).journal = encode lines := by
    intro effects
    induction effects with
    | nil => exact fun _ h => h
    | cons effect effects ih =>
      rintro dir ⟨lines, hlines⟩
      refine ih _ ?_
      cases effect with
      | append line => exact ⟨lines ++ [line], by simp [RunDir.perform, hlines]⟩
      | writeMarker => exact ⟨lines, hlines⟩
      | clearMarker => exact ⟨lines, hlines⟩
  have hcomplete : ∀ (calls : List (WriterCall parse)) (dir : RunDir),
      (∃ lines : List (LineFile.Line newline), dir.journal = encode lines) →
      ∃ lines : List (LineFile.Line newline),
        (calls.foldl RunDir.complete dir).journal = encode lines := by
    intro calls
    induction calls with
    | nil => exact fun _ h => h
    | cons call calls ih => exact fun dir h => ih _ (hperform call.effects dir h)
  exact hcomplete calls _ ⟨[], rfl⟩

/-- The effects of a call that appends, behind the removal of the marker if that comes first. -/
theorem effects_eq (call : WriterCall parse) (hsome : call.records ≠ []) :
    ∃ tail, (∀ line, .append line ∉ tail) ∧
      call.effects = if call.clearsFirst then .clearMarker :: WriterCall.appends call.records
        else WriterCall.appends call.records ++ tail := by
  cases call with
  | durableEvent record =>
    refine ⟨_, ?_, rfl⟩
    intro line
    split_ifs <;> simp
  | appendEventsWith records =>
    refine ⟨[.writeMarker], by simp, ?_⟩
    rw [WriterCall.effects, if_neg (by simpa [WriterCall.records] using hsome),
      WriterCall.clearsFirst]
    cases records.any (·.kind.isTerminal) <;> rfl

/-- After completed calls, every crash of a further call can be repaired exactly if the marker
is absent when the call begins or the call clears it before it appends, and a repair looks back
far enough for the lines of the call. -/
theorem crash_reopens_iff (limits : JournalLimits) (calls : List (WriterCall parse))
    (call : WriterCall parse) :
    (∀ crashed, Crash (RunDir.after calls) call.effects crashed →
      Reopens limits (RunDir.after calls) call.records crashed) ↔
    ((RunDir.after calls).marker = false ∨ call.clearsFirst = true) ∧
      Reachable limits (RunDir.after calls) call.records := by
  obtain ⟨lines, hlines⟩ := after_journal calls
  generalize RunDir.after calls = dir at hlines
  have hstopped : Reopens limits dir call.records dir := by
    refine ⟨0, ?_⟩
    rw [reopen_terminated limits (hlines ▸ terminated_encode lines)]
    simp
  by_cases hsome : call.records = []
  · -- a call without records does nothing
    cases call with
    | durableEvent record => simp [WriterCall.records] at hsome
    | appendEventsWith records =>
      obtain rfl : records = [] := hsome
      refine iff_of_true (fun crashed hcrash => ?_)
        ⟨.inr rfl, by simp [Reachable, WriterCall.records]⟩
      cases hcrash
      exact hstopped
  obtain ⟨tail, hmarks, heffects⟩ := effects_eq call hsome
  rw [heffects]
  cases hclears : call.clearsFirst with
  | true =>
    have hcleared : (dir.perform .clearMarker).journal = encode lines := hlines
    rw [if_pos rfl, ← append_nil (WriterCall.appends call.records)]
    constructor
    · intro hreopens
      have hreach : Reachable limits (dir.perform .clearMarker) call.records :=
        reachable_of_reopens limits hcleared fun crashed hcrash =>
          ⟨dir, hreopens crashed (.next hcrash)⟩
      exact ⟨.inr rfl, hreach⟩
    · rintro ⟨-, hreach⟩ crashed hcrash
      cases hcrash with
      | stop => exact hstopped
      | next hnext =>
        have hreopens : Reopens limits (dir.perform .clearMarker) call.records crashed :=
          reopens_appends limits (by simp) rfl hcleared hreach hnext
        exact hreopens
  | false =>
    rw [if_neg (by simp)]
    constructor
    · intro hreopens
      refine ⟨.inl ?_, reachable_of_reopens limits hlines fun crashed hcrash =>
        ⟨dir, hreopens crashed hcrash⟩⟩
      -- one byte of the first line is enough to meet the marker
      by_contra hmarker
      obtain ⟨record, records, hrecords⟩ := exists_cons_of_ne_nil hsome
      obtain ⟨byte, text, htext⟩ := exists_cons_of_ne_nil record.line_ne_nil
      have hfree : newline ∉ [byte] := fun hmem => record.line.2 (by
        rw [htext]
        exact mem_cons.mpr (.inl (mem_singleton.mp hmem)))
      have hcrash := crash_torn_at tail (show call.records[0]? = some record by simp [hrecords])
        (show [byte] <+: record.line.1 by simp [htext]) dir
      exact not_reopens_torn limits (terminated_front hlines 0) hfree (by simp) dir _ _
        (.inl (by simpa using hmarker)) (hreopens _ hcrash)
    · rintro ⟨hmarker, hreach⟩ crashed hcrash
      have hmarker : dir.marker = false := by simpa using hmarker
      exact reopens_appends limits hmarks hmarker hlines hreach hcrash

def emptyRecord (kind : EventKind) : Record parseEmptyObject where
  kind := kind
  line := ⟨[123, 125], by decide⟩
  line_ne_nil := by simp
  whole := by
    intro part hpart hne
    simp only [prefix_cons_iff, prefix_nil] at hpart
    rcases hpart with rfl | ⟨_, rfl, rfl | ⟨_, rfl, rfl⟩⟩
    · rfl
    · rfl
    · exact absurd rfl hne

/-- An interrupted run has its marker; the process dies while it appends the record that
resumes the run, and the torn line counts as tampering. -/
theorem torn_resume_refused :
    Crash (RunDir.after [.durableEvent (emptyRecord .runInterrupted)])
      (WriterCall.durableEvent (emptyRecord .runResumed)).effects
      ⟨[123, 125, newline, 123], true⟩ ∧
    reopen parseEmptyObject .unlimited ⟨[123, 125, newline, 123], true⟩ =
      .error (.invalidEvent markerIsPresent) := by
  constructor
  · exact .torn _ (emptyRecord .runResumed).line _ (by decide : ([123] : Bytes) <+: [123, 125])
  · exact reopen_marked .unlimited [(emptyRecord .runInterrupted).line] (by decide)

end Qcg.Journal.Crashes
