import Qcg.Journal.Sequence
import Qcg.Library.Checked

/-!
# Incremental merge of the two streams

An `EventCursor` remembers how far it has read in the durable and in the observation file and
the last seq it delivered. A read captures both files under the journal lock, goes on at the
two offsets and merges the lines by seq, a batch at a time.
-/

namespace Qcg.EventReader

open List

open Journal

/-- One file as a read captures it: its complete lines, the length of an unterminated tail and
its inode. -/
structure Snapshot where
  lines : List Line
  torn : Nat
  identity : Nat
  deriving DecidableEq, Repr

def Snapshot.size (file : Snapshot) : Nat := totalSize file.lines + file.torn

/-- There is always a journal; the observation file appears with its first record. -/
structure Snapshots where
  durable : Snapshot
  audit : Option Snapshot
  deriving DecidableEq, Repr

def Snapshots.auditLines (files : Snapshots) : List Line :=
  (files.audit.map (·.lines)).getD []

structure StreamCursor where
  offset : Nat
  count : Nat
  seq : Nat
  identity : Option Nat
  deriving DecidableEq, Repr

def StreamCursor.default : StreamCursor := ⟨0, 0, 0, none⟩

structure EventCursor where
  durable : StreamCursor
  audit : StreamCursor
  lastSeq : Nat
  deriving DecidableEq, Repr

def EventCursor.default : EventCursor := ⟨.default, .default, 0⟩

structure EventBatch where
  events : List Line
  cursor : EventCursor
  exhausted : Bool
  deriving DecidableEq, Repr

def eventBatchCount : Nat := 256

def eventBatchBytes : Nat := 4 * 1024 * 1024

/-- A file that was replaced or is shorter than the offset is read from its start again. -/
def StreamCursor.capture (cursor : StreamCursor) (file : Snapshot) : StreamCursor :=
  let cursor :=
    if cursor.identity.any (· != file.identity) || file.size < cursor.offset then
      { cursor with offset := 0, count := 0, seq := 0 }
    else cursor
  { cursor with identity := some file.identity }

def invalidLine : String := "journal line is not valid JSON"

/-- The lines from an offset on. The rest of a line never parses as an event: it closes a brace
it does not open, or starts inside a string. -/
def afterOffset : Nat → List Line → Except String (List Line)
  | 0, lines => .ok lines
  | _ + 1, [] => .ok []
  | offset + 1, line :: lines =>
    if line.size ≤ offset + 1 then afterOffset (offset + 1 - line.size) lines
    else .error invalidLine

def StreamCursor.advance (cursor : StreamCursor) (line : Line) : Except String StreamCursor :=
  if line.seq ≤ cursor.seq then .error "journal seq is not strictly increasing"
  else .ok ⟨cursor.offset + line.size, cursor.count + 1, line.seq, cursor.identity⟩

/-- A batch always takes its first event. -/
def batchFull (events : List Line) (bytes : Nat) (line : Line) : Bool :=
  !events.isEmpty && (eventBatchCount ≤ events.length || eventBatchBytes < bytes + line.size)

inductive Stream where
  | durable
  | audit
  deriving DecidableEq, Repr

def EventCursor.advance (cursor : EventCursor) (line : Line) : Stream → Except String EventCursor
  | .durable => (cursor.durable.advance line).map fun stream => { cursor with durable := stream }
  | .audit => (cursor.audit.advance line).map fun stream => { cursor with audit := stream }

/-- The stream whose head comes next. -/
def chooseHead : List Line → List Line → Except String (Option (Stream × Line))
  | [], [] => .ok none
  | a :: _, [] => .ok (some (.durable, a))
  | [], b :: _ => .ok (some (.audit, b))
  | a :: _, b :: _ =>
    if a.seq = b.seq then .error "durable and audit events have duplicate seq"
    else if b.seq < a.seq then .ok (some (.audit, b))
    else .ok (some (.durable, a))

def Stream.dropHead (durable audit : List Line) : Stream → List Line × List Line
  | .durable => (durable.tail, audit)
  | .audit => (durable, audit.tail)

/-- The loop over the heads of the two readers. Each turn takes a line, so as many turns as
there are lines are enough. -/
def mergeBatch : Nat → EventCursor → List Line → Nat → List Line → List Line →
    Except String EventBatch
  | 0, cursor, events, _, _, _ => .ok ⟨events, cursor, true⟩
  | turns + 1, cursor, events, bytes, durable, audit => do
    match ← chooseHead durable audit with
    | none => .ok ⟨events, cursor, true⟩
    | some (stream, line) =>
      if batchFull events bytes line then .ok ⟨events, cursor, false⟩
      else
        let cursor ← cursor.advance line stream
        let rest := stream.dropHead durable audit
        if cursor.lastSeq < line.seq then
          mergeBatch turns { cursor with lastSeq := line.seq } (events ++ [line])
            (bytes + line.size) rest.1 rest.2
        else mergeBatch turns cursor events bytes rest.1 rest.2

namespace EventCursor

def capture (cursor : EventCursor) (files : Snapshots) : EventCursor :=
  { cursor with
    durable := cursor.durable.capture files.durable
    audit := (files.audit.map cursor.audit.capture).getD cursor.audit }

def read (cursor : EventCursor) (files : Snapshots) : Except String EventBatch := do
  let cursor := cursor.capture files
  let durable ← afterOffset cursor.durable.offset files.durable.lines
  let audit ← afterOffset cursor.audit.offset files.auditLines
  mergeBatch (durable.length + audit.length) cursor [] 0 durable audit

/-- Reads until the files are exhausted, at most so many. -/
def poll (files : Snapshots) : Nat → EventCursor → Except String (List Line × EventCursor)
  | 0, cursor => .ok ([], cursor)
  | reads + 1, cursor => do
    let batch ← cursor.read files
    if batch.exhausted then .ok (batch.events, batch.cursor)
    else
      let rest ← poll files reads batch.cursor
      .ok (batch.events ++ rest.1, rest.2)

end EventCursor

/-- `prepare_replay`: the last seq of the files, and the cursor, which goes back to the start
if it is ahead of them. -/
def prepareReplay (files : Snapshots) (after : Nat) : Nat × Nat :=
  let last := max (tailSeq defaultWindow files.durable.lines)
    (tailSeq defaultWindow files.auditLines)
  (last, if last < after then 0 else after)

/-- The loop of `replay_stream`; a failed read ends the stream with an error. -/
def replayLoop (files : Snapshots) (after through : Nat) :
    Nat → EventCursor → Except String (List Line)
  | 0, _ => .ok []
  | reads + 1, cursor => do
    let batch ← cursor.read files
    let pending := batch.events.filter fun event => after < event.seq && event.seq ≤ through
    if batch.exhausted || batch.events.any (fun event => through < event.seq) then .ok pending
    else
      let rest ← replayLoop files after through reads batch.cursor
      .ok (pending ++ rest)

def historyEvents (files : Snapshots) (after : Nat) : Except String (List Line) :=
  let prepared := prepareReplay files after
  replayLoop files prepared.2 prepared.1 (files.durable.lines.length + files.auditLines.length + 1)
    .default

/-! ## A batch is the next part of the merge -/

def mergeBySeq (durable audit : List Line) : List Line :=
  durable.merge audit fun a b => a.seq ≤ b.seq

/-- Two streams that share one sequence space. -/
structure Apart (durable audit : List Line) : Prop where
  durable_increasing : Increasing durable
  audit_increasing : Increasing audit
  apart : ∀ a ∈ durable, ∀ b ∈ audit, a.seq ≠ b.seq

/-- How far a stream has been read, for a cursor that has delivered up to `lastSeq`. -/
structure StreamCursor.At (cursor : StreamCursor) (lastSeq : Nat) (done rest : List Line) :
    Prop where
  offset : cursor.offset = totalSize done
  seq : cursor.seq ≤ lastSeq
  done : ∀ line ∈ done, line.seq ≤ lastSeq
  rest : ∀ line ∈ rest, lastSeq < line.seq

theorem totalSize_append (lines new : List Line) :
    totalSize (lines ++ new) = totalSize lines + totalSize new := by
  simp [totalSize]

variable {rest : List Line} {lastSeq : Nat} {done : List Line}

theorem StreamCursor.At.advance {cursor : StreamCursor} {line : Line}
    (h : cursor.At lastSeq done (line :: rest)) (hrest : Increasing (line :: rest)) :
    ∃ stream, cursor.advance line = .ok stream ∧ stream.identity = cursor.identity ∧
      stream.At line.seq (done ++ [line]) rest := by
  have hline : lastSeq < line.seq := h.rest line mem_cons_self
  refine ⟨⟨cursor.offset + line.size, cursor.count + 1, line.seq, cursor.identity⟩, ?_, rfl, ?_⟩
  · have hseq := h.seq
    simp only [StreamCursor.advance]
    rw [if_neg (by omega)]
  · constructor
    · simp [h.offset, totalSize]
    · exact le_refl _
    · intro other hother
      rcases mem_append.mp hother with hother | hother
      · exact ((h.done other hother).trans hline.le)
      · rw [mem_singleton.mp hother]
    · exact (pairwise_cons.mp hrest).1

theorem StreamCursor.At.later {cursor : StreamCursor} {seq : Nat} (h : cursor.At lastSeq done rest)
    (hseq : lastSeq ≤ seq) (hrest : ∀ line ∈ rest, seq < line.seq) :
    cursor.At seq done rest :=
  ⟨h.offset, h.seq.trans hseq, fun line hline => (h.done line hline).trans hseq, hrest⟩

/-- How far both files have been read. -/
structure EventCursor.At (cursor : EventCursor) (durable durableRest audit auditRest : List Line) :
    Prop where
  last : cursor.lastSeq = 0 ∨ ∃ line ∈ durable ++ audit, line.seq = cursor.lastSeq
  durable : cursor.durable.At cursor.lastSeq durable durableRest
  audit : cursor.audit.At cursor.lastSeq audit auditRest

structure Turn (cursor : EventCursor) (durable durableRest audit auditRest : List Line)
    (stream : Stream) (line : Line) (next : EventCursor) : Prop where
  advance : cursor.advance line stream = .ok next
  above : next.lastSeq < line.seq
  merge : mergeBySeq durableRest auditRest =
    line :: mergeBySeq (stream.dropHead durableRest auditRest).1
      (stream.dropHead durableRest auditRest).2
  apart : Apart (stream.dropHead durableRest auditRest).1
    (stream.dropHead durableRest auditRest).2
  moved : ∃ durable' audit',
    durable ++ durableRest = durable' ++ (stream.dropHead durableRest auditRest).1 ∧
      audit ++ auditRest = audit' ++ (stream.dropHead durableRest auditRest).2 ∧
      EventCursor.At { next with lastSeq := line.seq } durable'
        (stream.dropHead durableRest auditRest).1 audit'
        (stream.dropHead durableRest auditRest).2
  identity : next.durable.identity = cursor.durable.identity ∧
    next.audit.identity = cursor.audit.identity

section Turn

variable {cursor : EventCursor} {durable durableRest audit auditRest : List Line} {line : Line}

theorem Apart.tail_left (h : Apart (line :: durableRest) auditRest) : Apart durableRest auditRest :=
  ⟨(pairwise_cons.mp h.durable_increasing).2, h.audit_increasing,
    fun a ha => h.apart a (mem_cons_of_mem _ ha)⟩

theorem Apart.tail_right (h : Apart durableRest (line :: auditRest)) :
    Apart durableRest auditRest :=
  ⟨h.durable_increasing, (pairwise_cons.mp h.audit_increasing).2,
    fun a ha b hb => h.apart a ha b (mem_cons_of_mem _ hb)⟩

theorem turn_durable (h : cursor.At durable (line :: durableRest) audit auditRest)
    (hapart : Apart (line :: durableRest) auditRest)
    (hfirst : ∀ other ∈ auditRest, line.seq < other.seq)
    (hmerge : mergeBySeq (line :: durableRest) auditRest =
      line :: mergeBySeq durableRest auditRest) :
    ∃ next, Turn cursor durable (line :: durableRest) audit auditRest .durable line next := by
  have hline : cursor.lastSeq < line.seq := h.durable.rest line mem_cons_self
  obtain ⟨stream, hadvance, hidentity, hat⟩ := h.durable.advance hapart.durable_increasing
  refine ⟨{ cursor with durable := stream }, ?_, hline, hmerge, hapart.tail_left, ?_, hidentity,
    rfl⟩
  · simp [EventCursor.advance, hadvance, Except.map]
  · exact ⟨durable ++ [line], audit, by simp [Stream.dropHead], rfl,
      Or.inr ⟨line, by simp, rfl⟩, hat, h.audit.later hline.le hfirst⟩

theorem turn_audit (h : cursor.At durable durableRest audit (line :: auditRest))
    (hapart : Apart durableRest (line :: auditRest))
    (hfirst : ∀ other ∈ durableRest, line.seq < other.seq)
    (hmerge : mergeBySeq durableRest (line :: auditRest) =
      line :: mergeBySeq durableRest auditRest) :
    ∃ next, Turn cursor durable durableRest audit (line :: auditRest) .audit line next := by
  have hline : cursor.lastSeq < line.seq := h.audit.rest line mem_cons_self
  obtain ⟨stream, hadvance, hidentity, hat⟩ := h.audit.advance hapart.audit_increasing
  refine ⟨{ cursor with audit := stream }, ?_, hline, hmerge, hapart.tail_right, ?_, rfl, hidentity⟩
  · simp [EventCursor.advance, hadvance, Except.map]
  · exact ⟨durable, audit ++ [line], rfl, by simp [Stream.dropHead],
      Or.inr ⟨line, by simp, rfl⟩, h.durable.later hline.le hfirst, hat⟩

theorem chooseHead_turn (h : cursor.At durable durableRest audit auditRest)
    (hapart : Apart durableRest auditRest) :
    (durableRest = [] ∧ auditRest = []) ∨
      ∃ stream line next, chooseHead durableRest auditRest = .ok (some (stream, line)) ∧
        Turn cursor durable durableRest audit auditRest stream line next := by
  match durableRest, auditRest with
  | [], [] => exact Or.inl ⟨rfl, rfl⟩
  | a :: durableRest, [] =>
    obtain ⟨next, hturn⟩ := turn_durable h hapart (by simp) (by simp [mergeBySeq])
    exact Or.inr ⟨.durable, a, next, rfl, hturn⟩
  | [], b :: auditRest =>
    obtain ⟨next, hturn⟩ := turn_audit h hapart (by simp) (by simp [mergeBySeq])
    exact Or.inr ⟨.audit, b, next, rfl, hturn⟩
  | a :: durableRest, b :: auditRest =>
    have hne : a.seq ≠ b.seq := hapart.apart a mem_cons_self b mem_cons_self
    right
    rcases lt_or_gt_of_ne hne with hlt | hlt
    · have hfirst : ∀ other ∈ b :: auditRest, a.seq < other.seq := by
        intro other hother
        rcases mem_cons.mp hother with rfl | hother
        · exact hlt
        · exact hlt.trans ((pairwise_cons.mp hapart.audit_increasing).1 other hother)
      obtain ⟨next, hturn⟩ := turn_durable h hapart hfirst
        (by simp [mergeBySeq, hlt.le])
      exact ⟨.durable, a, next, by simp [chooseHead, hne, not_lt.mpr hlt.le], hturn⟩
    · have hfirst : ∀ other ∈ a :: durableRest, b.seq < other.seq := by
        intro other hother
        rcases mem_cons.mp hother with rfl | hother
        · exact hlt
        · exact hlt.trans ((pairwise_cons.mp hapart.durable_increasing).1 other hother)
      obtain ⟨next, hturn⟩ := turn_audit h hapart hfirst
        (by simp [mergeBySeq, not_le.mpr hlt])
      exact ⟨.audit, b, next, by simp [chooseHead, hne, hlt], hturn⟩

variable {stream : Stream}

theorem length_dropHead (h : chooseHead durableRest auditRest = .ok (some (stream, line))) :
    (stream.dropHead durableRest auditRest).1.length +
      (stream.dropHead durableRest auditRest).2.length + 1 =
        durableRest.length + auditRest.length := by
  match durableRest, auditRest with
  | [], [] => simp [chooseHead] at h
  | a :: durableRest, [] =>
    simp only [chooseHead, Except.ok.injEq, Option.some.injEq, Prod.mk.injEq] at h
    simp [← h.1, Stream.dropHead]
  | [], b :: auditRest =>
    simp only [chooseHead, Except.ok.injEq, Option.some.injEq, Prod.mk.injEq] at h
    simp [← h.1, Stream.dropHead]
  | a :: durableRest, b :: auditRest =>
    simp only [chooseHead] at h
    split_ifs at h
    · simp only [Except.ok.injEq, Option.some.injEq, Prod.mk.injEq] at h
      simp [← h.1, Stream.dropHead]
      omega
    · simp only [Except.ok.injEq, Option.some.injEq, Prod.mk.injEq] at h
      simp [← h.1, Stream.dropHead]
      omega

theorem mergeBatch_take {turns bytes : Nat} {events : List Line} {next : EventCursor}
    (hhead : chooseHead durableRest auditRest = .ok (some (stream, line)))
    (hturn : Turn cursor durable durableRest audit auditRest stream line next) :
    mergeBatch (turns + 1) cursor events bytes durableRest auditRest =
      if batchFull events bytes line then .ok ⟨events, cursor, false⟩
      else mergeBatch turns { next with lastSeq := line.seq } (events ++ [line])
        (bytes + line.size) (stream.dropHead durableRest auditRest).1
        (stream.dropHead durableRest auditRest).2 := by
  simp only [mergeBatch, hhead, hturn.advance, bind, Except.bind, if_pos hturn.above]

end Turn

/-- What a batch leaves: its events are the next part of the merge, and its cursor stands
behind them. -/
structure EventBatch.Reads (batch : EventBatch) (cursor : EventCursor) (events : List Line)
    (durable durableRest audit auditRest : List Line) : Prop where
  left : ∃ out durable' durableRest' audit' auditRest',
    batch.events = events ++ out ∧
      mergeBySeq durableRest auditRest = out ++ mergeBySeq durableRest' auditRest' ∧
      durable ++ durableRest = durable' ++ durableRest' ∧
      audit ++ auditRest = audit' ++ auditRest' ∧
      batch.cursor.At durable' durableRest' audit' auditRest' ∧
      Apart durableRest' auditRest' ∧
      batch.exhausted = (durableRest'.isEmpty && auditRest'.isEmpty)
  progress : batch.exhausted = false → batch.events ≠ []
  identity : batch.cursor.durable.identity = cursor.durable.identity ∧
    batch.cursor.audit.identity = cursor.audit.identity

theorem mergeBatch_reads {turns : Nat} {cursor : EventCursor} {events : List Line} {bytes : Nat}
    {durable durableRest audit auditRest : List Line}
    (hturns : durableRest.length + auditRest.length ≤ turns)
    (hat : cursor.At durable durableRest audit auditRest) (hapart : Apart durableRest auditRest) :
    ∃ batch, mergeBatch turns cursor events bytes durableRest auditRest = .ok batch ∧
      batch.Reads cursor events durable durableRest audit auditRest := by
  induction turns generalizing cursor events bytes durable durableRest audit auditRest with
  | zero =>
    obtain ⟨hdurable, haudit⟩ : durableRest = [] ∧ auditRest = [] := by
      simpa [length_eq_zero_iff] using hturns
    subst hdurable haudit
    refine ⟨_, rfl, ⟨[], durable, [], audit, [], ?_⟩, by simp, rfl, rfl⟩
    exact ⟨by simp, rfl, rfl, rfl, hat, hapart, rfl⟩
  | succ turns ih =>
    rcases chooseHead_turn hat hapart with ⟨rfl, rfl⟩ | ⟨stream, line, next, hhead, hturn⟩
    · refine ⟨⟨events, cursor, true⟩, rfl, ⟨[], durable, [], audit, [], ?_⟩, by simp, rfl, rfl⟩
      exact ⟨by simp, rfl, rfl, rfl, hat, hapart, rfl⟩
    · have hlength := length_dropHead hhead
      rw [mergeBatch_take hhead hturn]
      split_ifs with hfull
      · -- the batch is full and stops before this line
        refine ⟨_, rfl, ⟨[], durable, durableRest, audit, auditRest, ?_⟩, ?_, rfl, rfl⟩
        · refine ⟨by simp, rfl, rfl, rfl, hat, hapart, ?_⟩
          cases durableRest <;> cases auditRest <;> simp_all
        · intro _
          simp only [batchFull, Bool.and_eq_true, Bool.not_eq_true', isEmpty_eq_false_iff]
            at hfull
          exact hfull.1
      · obtain ⟨durable', audit', hdurable, haudit, hat'⟩ := hturn.moved
        obtain ⟨batch, hbatch, hreads⟩ := @ih { next with lastSeq := line.seq } (events ++ [line])
          (bytes + line.size) durable' _ audit' _ (by omega) hat' hturn.apart
        obtain ⟨out, durable'', durableRest'', audit'', auditRest'', hevents, hmerge, hd, ha,
          hleft⟩ :=
          hreads.left
        refine ⟨batch, hbatch, ⟨line :: out, durable'', durableRest'', audit'', auditRest'', ?_⟩,
          hreads.progress, ?_⟩
        · refine ⟨by simp [hevents], ?_, hdurable.trans hd, haudit.trans ha, hleft⟩
          rw [hturn.merge, hmerge, cons_append]
        · exact ⟨hreads.identity.1.trans hturn.identity.1,
            hreads.identity.2.trans hturn.identity.2⟩

/-! ## Repeated reads deliver the merge -/

theorem afterOffset_append (done rest : List Line) :
    afterOffset (totalSize done) (done ++ rest) = .ok rest := by
  induction done with
  | nil => cases rest <;> rfl
  | cons line done ih =>
    have hpos := line.size_pos
    obtain ⟨offset, hoffset⟩ : ∃ offset, totalSize (line :: done) = offset + 1 :=
      ⟨totalSize (line :: done) - 1, by simp [totalSize]; omega⟩
    have hsize : line.size + totalSize done = offset + 1 := by
      rw [← hoffset]
      simp [totalSize]
    rw [hoffset, cons_append, afterOffset, if_pos (by omega)]
    rw [show offset + 1 - line.size = totalSize done by omega]
    exact ih

/-- A captured file is the one the cursor read before. -/
def StreamCursor.Knows (cursor : StreamCursor) (file : Snapshot) : Prop :=
  cursor.identity = none ∨ cursor.identity = some file.identity

theorem StreamCursor.capture_eq {cursor : StreamCursor} {file : Snapshot}
    (hknows : cursor.Knows file) (hsize : cursor.offset ≤ file.size) :
    cursor.capture file = { cursor with identity := some file.identity } := by
  have hkeep : (cursor.identity.any (· != file.identity) || file.size < cursor.offset) = false := by
    rcases hknows with h | h <;> simp [h, hsize]
  simp only [StreamCursor.capture, hkeep]
  rfl

/-- The part of the files that a cursor has not read. -/
structure EventCursor.Over (cursor : EventCursor) (files : Snapshots)
    (durableRest auditRest : List Line) : Prop where
  at_rest : ∃ durable audit, files.durable.lines = durable ++ durableRest ∧
    files.auditLines = audit ++ auditRest ∧ cursor.At durable durableRest audit auditRest
  apart : Apart durableRest auditRest
  durable : cursor.durable.Knows files.durable
  audit : ∀ file, files.audit = some file → cursor.audit.Knows file

variable {files : Snapshots}

theorem EventCursor.capture_eq {cursor : EventCursor} {durableRest auditRest : List Line}
    (h : cursor.Over files durableRest auditRest) :
    (cursor.capture files).lastSeq = cursor.lastSeq ∧
      (cursor.capture files).durable =
        { cursor.durable with identity := some files.durable.identity } ∧
      ((files.audit = none ∧ (cursor.capture files).audit = cursor.audit) ∨
        ∃ file, files.audit = some file ∧
          (cursor.capture files).audit = { cursor.audit with identity := some file.identity }) := by
  obtain ⟨durable, audit, hdurable, haudit, hat⟩ := h.at_rest
  refine ⟨rfl, ?_, ?_⟩
  · apply StreamCursor.capture_eq h.durable
    rw [hat.durable.offset, Snapshot.size, hdurable, totalSize_append]
    omega
  · cases hfile : files.audit with
    | none => exact Or.inl ⟨rfl, by simp [EventCursor.capture, hfile]⟩
    | some file =>
      right
      refine ⟨file, rfl, ?_⟩
      simp only [EventCursor.capture, hfile, Option.map_some, Option.getD_some]
      apply StreamCursor.capture_eq (h.audit file hfile)
      simp only [Snapshots.auditLines, hfile, Option.map_some, Option.getD_some] at haudit
      rw [hat.audit.offset, Snapshot.size, haudit, totalSize_append]
      omega

structure EventBatch.Next (batch : EventBatch) (files : Snapshots)
    (durableRest auditRest : List Line) : Prop where
  left : ∃ durableRest' auditRest',
    mergeBySeq durableRest auditRest = batch.events ++ mergeBySeq durableRest' auditRest' ∧
      batch.cursor.Over files durableRest' auditRest' ∧
      batch.exhausted = (durableRest'.isEmpty && auditRest'.isEmpty)
  progress : batch.exhausted = false → batch.events ≠ []

theorem EventCursor.Over.read {cursor : EventCursor} {durableRest auditRest : List Line}
    (h : cursor.Over files durableRest auditRest) :
    ∃ batch, cursor.read files = .ok batch ∧ batch.Next files durableRest auditRest ∧
      (files.audit = none → batch.cursor.audit.identity = cursor.audit.identity) := by
  obtain ⟨durable, audit, hdurable, haudit, hat⟩ := h.at_rest
  obtain ⟨hlast, hcapture, hcaptureAudit⟩ := EventCursor.capture_eq h
  set captured := cursor.capture files with hcaptured
  have hat' : captured.At durable durableRest audit auditRest := by
    refine ⟨hlast ▸ hat.last, ?_, ?_⟩
    · rw [hlast, hcapture]
      exact ⟨hat.durable.offset, hat.durable.seq, hat.durable.done, hat.durable.rest⟩
    · rw [hlast]
      rcases hcaptureAudit with ⟨-, heq⟩ | ⟨file, -, heq⟩
      · rw [heq]
        exact hat.audit
      · rw [heq]
        exact ⟨hat.audit.offset, hat.audit.seq, hat.audit.done, hat.audit.rest⟩
  obtain ⟨batch, hbatch, hreads⟩ :=
    @mergeBatch_reads _ captured [] 0 durable durableRest audit auditRest le_rfl hat' h.apart
  refine ⟨batch, ?_, ⟨?_, hreads.progress⟩, ?_⟩
  · simp only [EventCursor.read, ← hcaptured, hat'.durable.offset, hat'.audit.offset, hdurable,
      haudit, afterOffset_append]
    exact hbatch
  · obtain ⟨out, durable', durableRest', audit', auditRest', hevents, hmerge, hd, ha, hat'', hapart,
      hexhausted⟩ := hreads.left
    rw [nil_append] at hevents
    refine ⟨durableRest', auditRest', by rw [hevents, hmerge], ?_, hexhausted⟩
    refine ⟨⟨durable', audit', hdurable.trans hd, haudit.trans ha, hat''⟩, hapart, ?_, ?_⟩
    · right
      rw [hreads.identity.1, hcapture]
    · intro file hfile
      rcases hcaptureAudit with ⟨hnone, -⟩ | ⟨file', hfile', heq⟩
      · rw [hnone] at hfile
        cases hfile
      · rw [hfile'] at hfile
        cases hfile
        right
        rw [hreads.identity.2, heq]
  · intro hnone
    rcases hcaptureAudit with ⟨-, heq⟩ | ⟨file, hfile, -⟩
    · rw [hreads.identity.2, heq]
    · rw [hnone] at hfile
      cases hfile

theorem mergeBySeq_nil : mergeBySeq [] [] = [] := by
  simp [mergeBySeq]

theorem EventCursor.Over.poll {cursor : EventCursor} {reads : Nat}
    {durableRest auditRest : List Line} (h : cursor.Over files durableRest auditRest)
    (hreads : (mergeBySeq durableRest auditRest).length < reads) :
    ∃ next, cursor.poll files reads = .ok (mergeBySeq durableRest auditRest, next) := by
  induction reads generalizing cursor durableRest auditRest with
  | zero => omega
  | succ reads ih =>
    obtain ⟨batch, hbatch, hnext, -⟩ := h.read
    obtain ⟨durableRest', auditRest', hmerge, hover, hexhausted⟩ := hnext.left
    simp only [EventCursor.poll, hbatch, bind, Except.bind]
    cases hdone : batch.exhausted with
    | true =>
      simp only [hdone, Bool.true_eq, Bool.and_eq_true, List.isEmpty_iff] at hexhausted
      rw [hexhausted.1, hexhausted.2, mergeBySeq_nil, append_nil] at hmerge
      exact ⟨batch.cursor, by simp [hmerge]⟩
    | false =>
      have hpos := length_pos_iff.mpr (hnext.progress hdone)
      rw [hmerge, length_append] at hreads
      obtain ⟨next, hrest⟩ := ih hover (by omega)
      exact ⟨next, by simp [hrest, hmerge]⟩

theorem mergeBySeq_sorted {durable audit : List Line} (h : Apart durable audit) :
    (mergeBySeq durable audit).Pairwise (·.seq ≤ ·.seq) := by
  have hmerge := @List.pairwise_merge Line (fun a b => decide (a.seq ≤ b.seq))
    (fun a b c hab hbc => by simp only [decide_eq_true_eq] at *; omega)
    (fun a b => by simp only [Bool.or_eq_true, decide_eq_true_eq]; omega) durable audit
    (h.durable_increasing.imp fun h => by simpa using h.le)
    (h.audit_increasing.imp fun h => by simpa using h.le)
  simpa [mergeBySeq] using hmerge

/-- A batch with an event beyond the end leaves nothing before it. -/
theorem filter_through_eq_nil {events : List Line} {after through : Nat}
    (hsorted : (events ++ rest).Pairwise (·.seq ≤ ·.seq))
    (hbeyond : events.any (fun event => through < event.seq) = true) :
    rest.filter (fun event => after < event.seq && event.seq ≤ through) = [] := by
  obtain ⟨event, hevent, hseq⟩ := any_eq_true.mp hbeyond
  apply filter_eq_nil_iff.mpr
  intro line hline
  have hle := (pairwise_append.mp hsorted).2.2 event hevent line hline
  simp only [decide_eq_true_eq] at hseq
  simp only [Bool.and_eq_true, decide_eq_true_eq, not_and, not_le]
  intro _
  omega

theorem EventCursor.Over.replayLoop {cursor : EventCursor} {reads : Nat}
    {durableRest auditRest : List Line} (after through : Nat)
    (h : cursor.Over files durableRest auditRest)
    (hreads : (mergeBySeq durableRest auditRest).length < reads) :
    replayLoop files after through reads cursor =
      .ok ((mergeBySeq durableRest auditRest).filter
        fun event => after < event.seq && event.seq ≤ through) := by
  induction reads generalizing cursor durableRest auditRest with
  | zero => omega
  | succ reads ih =>
    obtain ⟨batch, hbatch, hnext, -⟩ := h.read
    obtain ⟨durableRest', auditRest', hmerge, hover, hexhausted⟩ := hnext.left
    have hsorted := mergeBySeq_sorted h.apart
    rw [hmerge] at hsorted
    simp only [EventReader.replayLoop, hbatch, bind, Except.bind]
    rw [hmerge, filter_append]
    split_ifs with hdone
    · have hrest : (mergeBySeq durableRest' auditRest').filter
          (fun event => after < event.seq && event.seq ≤ through) = [] := by
        rcases Bool.or_eq_true_iff.mp hdone with hdone | hdone
        · simp only [hdone, Bool.true_eq, Bool.and_eq_true, List.isEmpty_iff] at hexhausted
          rw [hexhausted.1, hexhausted.2, mergeBySeq_nil, filter_nil]
        · exact filter_through_eq_nil hsorted hdone
      rw [hrest, append_nil]
    · simp only [Bool.or_eq_true, not_or, Bool.not_eq_true] at hdone
      have hpos := length_pos_iff.mpr (hnext.progress hdone.1)
      rw [hmerge, length_append] at hreads
      rw [ih hover (by omega)]

/-- Two files as a reader may meet them. -/
structure Snapshots.Readable (files : Snapshots) : Prop where
  apart : Apart files.durable.lines files.auditLines
  pos : ∀ line ∈ files.durable.lines ++ files.auditLines, 0 < line.seq

theorem Snapshots.Readable.default_over (h : files.Readable) :
    EventCursor.default.Over files files.durable.lines files.auditLines := by
  refine ⟨⟨[], [], rfl, rfl, Or.inl rfl, ?_, ?_⟩, h.apart, Or.inl rfl, fun _ _ => Or.inl rfl⟩
  · refine ⟨rfl, le_refl _, by simp, fun line hline => ?_⟩
    exact h.pos line (mem_append_left _ hline)
  · refine ⟨rfl, le_refl _, by simp, fun line hline => ?_⟩
    exact h.pos line (mem_append_right _ hline)

theorem length_mergeBySeq (durable audit : List Line) :
    (mergeBySeq durable audit).length = durable.length + audit.length := by
  simp [mergeBySeq, length_merge]

theorem Snapshots.Readable.historyEvents (h : files.Readable) (after : Nat) :
    EventReader.historyEvents files after =
      .ok ((mergeBySeq files.durable.lines files.auditLines).filter
        fun event => (prepareReplay files after).2 < event.seq &&
          event.seq ≤ (prepareReplay files after).1) := by
  apply h.default_over.replayLoop
  rw [length_mergeBySeq]
  omega

end Qcg.EventReader
