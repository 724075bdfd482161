import Mathlib.Tactic

/-!
# The sequence space of a run directory

Durable records go to `journal.jsonl`, observation records to `audit.jsonl`, and both take
their `seq` from one space. A writer keeps two counters in memory. `durable_event` brings them
up to date from the files before it assigns a seq, `observation_event` does not. The model
keeps of a record its seq, its tag and its length, and of a call where, if at all, its payload,
the folded state or a byte limit refuses it. Repairs, reads that fail and the degraded state of
the audit stream are refusals of the call they happen in.
-/

namespace Qcg.Journal

open List

/-- A complete line of a stream; `size` counts its newline. -/
structure Line where
  seq : Nat
  kind : String
  size : Nat
  size_pos : 0 < size
  deriving DecidableEq, Repr

/-- How far a record gets, apart from `max_event_count`. -/
inductive Verdict where
  /-- Refused before a counter is read: the payload of a durable record is too large, a batch
  names another run. -/
  | early
  /-- Refused by `from_flat`, `apply`, the state's bytes or the event's. -/
  | late
  /-- Over `max_total_bytes`, which is compared after the event count. -/
  | overTotal
  | accepted
  deriving DecidableEq, Repr

/-- A record as it is handed to a writer. -/
structure Offer where
  kind : String
  size : Nat
  size_pos : 0 < size
  verdict : Verdict
  deriving DecidableEq, Repr

def Offer.line (offer : Offer) (seq : Nat) : Line :=
  ⟨seq, offer.kind, offer.size, offer.size_pos⟩

def Line.isCanceled (line : Line) : Bool :=
  line.kind == "run_canceled"

def totalSize (lines : List Line) : Nat :=
  (lines.map (·.size)).sum

/-- The `last_seq` of the fold, which refuses a journal that does not increase. -/
def lastSeq (lines : List Line) : Nat :=
  (lines.getLast?.map (·.seq)).getD 0

def maxSeq (lines : List Line) : Nat :=
  (lines.map (·.seq)).foldr max 0

/-- The lines that start behind the first newline of the last `window` bytes. -/
def shown (window : Nat) : List Line → List Line
  | [] => []
  | line :: lines =>
    if totalSize (line :: lines) < window then line :: lines else shown window lines

/-- `read_last_seq_from_file_tail`: the largest seq of the window. A window that shows none is
resolved by the final line alone. -/
def tailSeq (window : Nat) (lines : List Line) : Nat :=
  if totalSize lines ≤ window then maxSeq lines
  else if maxSeq (shown window lines) = 0 then lastSeq lines
  else maxSeq (shown window lines)

def tailWindow (scanWindowBytes : Option Nat) : Nat :=
  max (scanWindowBytes.getD (64 * 1024)) (4 * 1024) + 1024 * 1024

structure Limits where
  maxEventCount : Option Nat
  scanWindowBytes : Option Nat
  deriving DecidableEq, Repr

def Limits.window (limits : Limits) : Nat := tailWindow limits.scanWindowBytes

/-- `audit_read_limits` sets no scan window. -/
def auditWindow : Nat := tailWindow none

/-- `append_events_with` reads the audit tail with `JournalLimits::default()`. -/
def defaultWindow : Nat := tailWindow (some (1024 * 1024))

structure Counters where
  lastSeq : Nat
  auditSeq : Nat
  deriving DecidableEq, Repr

structure Streams where
  journal : List Line
  audit : List Line
  deriving DecidableEq, Repr

/-- The two files and the counters of `state.json`, if there is one. -/
structure Directory extends Streams where
  cache : Option Counters
  deriving DecidableEq, Repr

/-- A `JournalWriter`: its state's counters, `stats.events` and `floor_len`. -/
structure Writer extends Counters where
  events : Nat
  floorLen : Option Nat
  deriving DecidableEq, Repr

inductive Refusal where
  /-- The journal is shorter than this writer left it. -/
  | truncated
  | eventCountExceeded
  /-- The payload, the state or a byte limit. -/
  | invalid
  deriving DecidableEq, Repr

namespace Directory

/-- `create_with_policies`: fold the journal, take the audit counter from the audit tail. -/
def create (d : Directory) : Directory × Writer :=
  let counters := ⟨lastSeq d.journal, tailSeq auditWindow d.audit⟩
  ({ d with cache := some counters }, ⟨counters, d.journal.length, none⟩)

def stateJsonSeqFloor (d : Directory) : Nat :=
  (d.cache.map (·.lastSeq)).getD 0

def readLastSeqFromTail (limits : Limits) (d : Directory) : Nat :=
  max (tailSeq limits.window d.journal) d.stateJsonSeqFloor

def resyncDurableState (d : Directory) (durableSeq : Nat) : Counters :=
  match d.cache with
  | some counters =>
    if counters.lastSeq = durableSeq then counters else ⟨Journal.lastSeq d.journal, 0⟩
  | none => ⟨Journal.lastSeq d.journal, 0⟩

/-- The writer as `durable_event` has it when it assigns the seq. -/
def resync (limits : Limits) (d : Directory) (w : Writer) : Writer :=
  let durableSeq := d.readLastSeqFromTail limits
  let w :=
    if w.lastSeq < durableSeq then
      let state := d.resyncDurableState durableSeq
      { w with toCounters := state, events := state.lastSeq }
    else w
  { w with auditSeq := max w.auditSeq (tailSeq auditWindow d.audit) }

/-- The check of `append_serialized_json_line` against `max_event_count`. -/
def full (limits : Limits) (events : Nat) : Bool :=
  limits.maxEventCount.any (· ≤ events)

end Directory

/-- The files and the writers that are open on them. -/
structure Shared where
  directory : Directory
  writers : List Writer
  deriving DecidableEq, Repr

structure Reply where
  appended : List Line
  refusal : Option Refusal
  deriving DecidableEq, Repr

def Reply.refused (refusal : Refusal) : Reply := ⟨[], some refusal⟩

def Reply.idle : Reply := ⟨[], none⟩

open Directory

/-- A payload that is refused early leaves the writer's counters as they are; every later
refusal keeps the resync. -/
def durableEvent (limits : Limits) (d : Directory) (w : Writer) (offer : Offer) :
    Directory × Writer × Reply :=
  if offer.verdict = .early then (d, w, .refused .invalid)
  else if w.floorLen.any (totalSize d.journal < ·) then (d, w, .refused .truncated)
  else
    let durableSeq := d.readLastSeqFromTail limits
    let w := d.resync limits w
    let seq := max (max w.lastSeq w.auditSeq) durableSeq + 1
    if offer.verdict = .late then (d, w, .refused .invalid)
    else if full limits w.events then (d, w, .refused .eventCountExceeded)
    else if offer.verdict = .overTotal then (d, w, .refused .invalid)
    else
      let journal := d.journal ++ [offer.line seq]
      ({ d with journal := journal, cache := some ⟨seq, w.auditSeq⟩ },
        { w with lastSeq := seq, events := w.events + 1, floorLen := some (totalSize journal) },
        ⟨[offer.line seq], none⟩)

/-- A record that the audit policy drops, that breaches an audit limit or that comes after the
stream was degraded is not accepted and leaves no trace. -/
def observationEvent (d : Directory) (w : Writer) (offer : Offer) :
    Directory × Writer × Reply :=
  if offer.verdict = .accepted then
    let seq := max w.lastSeq w.auditSeq + 1
    ({ d with audit := d.audit ++ [offer.line seq] }, { w with auditSeq := seq },
      ⟨[offer.line seq], none⟩)
  else (d, w, .idle)

/-- The loop of `append_events_with` over a batch. A refused record ends it; what was appended
before stays. -/
def appendBatch (limits : Limits) (counters : Counters) (events : Nat) :
    List Offer → Counters × Reply
  | [] => (counters, .idle)
  | offer :: offers =>
    let seq := max counters.lastSeq counters.auditSeq + 1
    if offer.verdict = .late then (counters, .refused .invalid)
    else if full limits events then (counters, .refused .eventCountExceeded)
    else if offer.verdict = .overTotal then (counters, .refused .invalid)
    else
      let rest := appendBatch limits { counters with lastSeq := seq } (events + 1) offers
      (rest.1, ⟨offer.line seq :: rest.2.appended, rest.2.refusal⟩)

/-- `stateFits`: the state after the whole batch is within `max_state_bytes`, which is only
looked at when every record is in the journal. -/
def appendEventsWith (limits : Limits) (d : Directory) (offers : List Offer)
    (stateFits : Bool) : Directory × Reply :=
  if offers.isEmpty then (d, .idle)
  else if offers.any (·.verdict = .early) then (d, .refused .invalid)
  else
    -- the state is folded afresh, and its `last_seq` stands for the number of events
    let state : Counters := ⟨lastSeq d.journal, tailSeq defaultWindow d.audit⟩
    let result := appendBatch limits state state.lastSeq offers
    let journal := d.journal ++ result.2.appended
    match result.2.refusal with
    | some _ => ({ d with journal := journal }, result.2)
    | none =>
      if stateFits then ({ d with journal := journal, cache := some result.1 }, result.2)
      else ({ d with journal := journal }, ⟨result.2.appended, some .invalid⟩)

inductive Action where
  | create
  | durable (writer : Nat) (offer : Offer)
  | observation (writer : Nat) (offer : Offer)
  | batch (offers : List Offer) (stateFits : Bool)
  deriving DecidableEq, Repr

namespace Shared

def call (s : Shared) (index : Nat)
    (f : Directory → Writer → Directory × Writer × Reply) : Shared × Reply :=
  match s.writers[index]? with
  | none => (s, .idle)
  | some w =>
    let result := f s.directory w
    (⟨result.1, s.writers.set index result.2.1⟩, result.2.2)

def step (limits : Limits) (s : Shared) : Action → Shared × Reply
  | .create => (⟨s.directory.create.1, s.writers ++ [s.directory.create.2]⟩, .idle)
  | .durable index offer => s.call index fun d w => durableEvent limits d w offer
  | .observation index offer => s.call index fun d w => observationEvent d w offer
  | .batch offers stateFits =>
    let result := appendEventsWith limits s.directory offers stateFits
    ({ s with directory := result.1 }, result.2)

def run (limits : Limits) (s : Shared) (actions : List Action) : Shared :=
  actions.foldl (fun s action => (s.step limits action).1) s

/-- The records of a run in the order in which they were appended. -/
def appends (limits : Limits) : Shared → List Action → List Line
  | _, [] => []
  | s, action :: actions =>
    (s.step limits action).2.appended ++ appends limits (s.step limits action).1 actions

def empty : Shared := ⟨⟨⟨[], []⟩, none⟩, []⟩

@[simp] theorem run_nil (limits : Limits) (s : Shared) : s.run limits [] = s := rfl

@[simp] theorem run_cons (limits : Limits) (s : Shared) (action : Action)
    (actions : List Action) :
    s.run limits (action :: actions) = (s.step limits action).1.run limits actions := rfl

end Shared

/-! ## The tail of a stream -/

section Tail

variable {lines new : List Line}

@[simp] theorem lastSeq_nil : lastSeq [] = 0 := rfl

@[simp] theorem lastSeq_concat (lines : List Line) (line : Line) :
    lastSeq (lines ++ [line]) = line.seq := by
  simp [lastSeq]

theorem lastSeq_append (lines : List Line) (h : new ≠ []) :
    lastSeq (lines ++ new) = lastSeq new := by
  rcases eq_nil_or_concat' new with rfl | ⟨others, final, rfl⟩
  · exact absurd rfl h
  · rw [← append_assoc, lastSeq_concat, lastSeq_concat]

theorem lastSeq_mem (h : lines ≠ []) : ∃ line ∈ lines, line.seq = lastSeq lines := by
  rcases eq_nil_or_concat' lines with rfl | ⟨others, final, rfl⟩
  · exact absurd rfl h
  · exact ⟨final, by simp, by simp⟩

@[simp] theorem maxSeq_nil : maxSeq [] = 0 := rfl

theorem maxSeq_le_iff {bound : Nat} : maxSeq lines ≤ bound ↔ ∀ line ∈ lines, line.seq ≤ bound := by
  induction lines with
  | nil => simp [maxSeq]
  | cons line lines ih =>
    simp only [maxSeq, map_cons, foldr_cons, max_le_iff, forall_mem_cons]
    exact and_congr_right fun _ => ih

theorem lt_maxSeq_iff {bound : Nat} :
    bound < maxSeq lines ↔ ∃ line ∈ lines, bound < line.seq := by
  simpa using not_congr (@maxSeq_le_iff lines bound)

abbrev Increasing (lines : List Line) : Prop :=
  lines.Pairwise (·.seq < ·.seq)

theorem Increasing.le_lastSeq (h : Increasing lines) {line : Line} (hmem : line ∈ lines) :
    line.seq ≤ lastSeq lines := by
  induction lines using List.reverseRecOn with
  | nil => simp at hmem
  | append_singleton lines final ih =>
    obtain ⟨hlines, -, hbefore⟩ := pairwise_append.mp h
    rw [lastSeq_concat]
    rcases mem_append.mp hmem with hmem | hmem
    · exact (hbefore line hmem final (by simp)).le
    · rw [mem_singleton.mp hmem]

theorem Increasing.maxSeq_eq (h : Increasing lines) : maxSeq lines = lastSeq lines := by
  apply le_antisymm
  · exact maxSeq_le_iff.mpr fun line hline => h.le_lastSeq hline
  · by_cases hne : lines = []
    · simp [hne]
    · obtain ⟨line, hline, hseq⟩ := lastSeq_mem hne
      rw [← hseq]
      exact maxSeq_le_iff.mp le_rfl line hline

theorem shown_suffix (window : Nat) (lines : List Line) : shown window lines <:+ lines := by
  induction lines with
  | nil => exact suffix_rfl
  | cons line lines ih =>
    rw [shown]
    split_ifs
    · exact suffix_rfl
    · exact ih.trans (suffix_cons _ _)

/-- Whatever the window shows of a stream in order, its last seq is found. -/
theorem Increasing.tailSeq_eq (h : Increasing lines) (window : Nat) :
    tailSeq window lines = lastSeq lines := by
  unfold tailSeq
  split_ifs with hfits hzero
  · exact h.maxSeq_eq
  · rfl
  · have hne : shown window lines ≠ [] := by
      intro heq
      simp [heq] at hzero
    obtain ⟨before, hbefore⟩ := shown_suffix window lines
    rw [Increasing.maxSeq_eq (h.sublist (shown_suffix window lines).sublist)]
    conv_rhs => rw [← hbefore, lastSeq_append _ hne]

/-- New records are in order, and above a stream that is in order itself. -/
structure Continues (lines new : List Line) : Prop where
  increasing : Increasing new
  above : Increasing lines → ∀ line ∈ new, lastSeq lines < line.seq

theorem Continues.append (h : Continues lines new) (hlines : Increasing lines) :
    Increasing (lines ++ new) :=
  pairwise_append.mpr ⟨hlines, h.increasing, fun _ hline line hnew =>
    (hlines.le_lastSeq hline).trans_lt (h.above hlines line hnew)⟩

end Tail

/-! ## What a call does to the streams -/

variable {new : List Line}

namespace Streams

def lines (t : Streams) : List Line := t.journal ++ t.audit

/-- The largest seq of either stream. -/
def top (t : Streams) : Nat := maxSeq t.lines

/-- Records that continue the sequence space. -/
structure Fresh (t : Streams) (new : List Line) : Prop where
  increasing : Increasing new
  above : ∀ line ∈ new, t.top < line.seq

variable {t t' : Streams} {ordered : Prop}

theorem le_top {line : Line} (h : line ∈ t.lines) : line.seq ≤ t.top :=
  maxSeq_le_iff.mp le_rfl line h

theorem top_le_iff {bound : Nat} :
    t.top ≤ bound ↔ maxSeq t.journal ≤ bound ∧ maxSeq t.audit ≤ bound := by
  simp only [top, lines, maxSeq_le_iff, forall_mem_append]

/-- What a call does to the streams, with its records. Only an observation may be out of
order. -/
inductive Grows (t : Streams) (ordered : Prop) : List Line → Streams → Prop
  | durable (new : List Line) (journal : Continues t.journal new)
      (audit : Continues t.audit new) :
      Grows t ordered new { t with journal := t.journal ++ new }
  | observation (line : Line) (above : ordered → t.top < line.seq) :
      Grows t ordered [line] { t with audit := t.audit ++ [line] }

theorem Grows.idle (t : Streams) (ordered : Prop) : t.Grows ordered [] t := by
  have h := @Grows.durable t ordered [] ⟨List.Pairwise.nil, by simp⟩ ⟨List.Pairwise.nil, by simp⟩
  rwa [append_nil] at h

theorem Grows.lines_perm (h : t.Grows ordered new t') : t'.lines.Perm (t.lines ++ new) := by
  cases h with
  | durable _ _ _ =>
    simp only [lines, append_assoc]
    exact perm_append_comm.append_left _
  | observation line _ => simp [lines]

theorem Grows.sublists {past : List Line} (h : t.Grows ordered new t')
    (hjournal : t.journal.Sublist past) (haudit : t.audit.Sublist past) :
    t'.journal.Sublist (past ++ new) ∧ t'.audit.Sublist (past ++ new) := by
  cases h with
  | durable _ _ _ =>
    exact ⟨hjournal.append (Sublist.refl _), haudit.trans (sublist_append_left _ _)⟩
  | observation line _ =>
    exact ⟨hjournal.trans (sublist_append_left _ _), haudit.append (Sublist.refl _)⟩

theorem Grows.fresh (h : t.Grows ordered new t') (hordered : ordered)
    (hjournal : Increasing t.journal) (haudit : Increasing t.audit) : t.Fresh new := by
  cases h with
  | durable _ journal audit =>
    refine ⟨journal.increasing, fun line hline => ?_⟩
    have hbelow : t.top ≤ line.seq - 1 := by
      rw [top_le_iff, hjournal.maxSeq_eq, haudit.maxSeq_eq]
      exact ⟨Nat.le_sub_one_of_lt (journal.above hjournal line hline),
        Nat.le_sub_one_of_lt (audit.above haudit line hline)⟩
    exact Nat.lt_of_le_sub_one (Nat.zero_lt_of_lt (journal.above hjournal line hline)) hbelow
  | observation line above =>
    exact ⟨pairwise_singleton _ _, by simpa using above hordered⟩

end Streams

variable (d : Directory) (limits : Limits)

theorem tailSeq_le_resync (w : Writer) :
    tailSeq auditWindow d.audit ≤ (d.resync limits w).auditSeq := by
  simp [resync]

/-- The seq that `durable_event` assigns. -/
def durableSeq (w : Writer) : Nat :=
  max (max (d.resync limits w).lastSeq (d.resync limits w).auditSeq) (d.readLastSeqFromTail limits)
    + 1

theorem durableSeq_continues (w : Writer) (line : Line) (h : line.seq = durableSeq d limits w) :
    Continues d.journal [line] ∧ Continues d.audit [line] := by
  refine ⟨⟨pairwise_singleton _ _, fun hjournal => ?_⟩,
    ⟨pairwise_singleton _ _, fun haudit => ?_⟩⟩
  · have htail := hjournal.tailSeq_eq limits.window
    simp only [mem_singleton, forall_eq, h, durableSeq, readLastSeqFromTail]
    omega
  · have htail := haudit.tailSeq_eq auditWindow
    have hresync := tailSeq_le_resync d limits w
    simp only [mem_singleton, forall_eq, h, durableSeq]
    omega

theorem durableEvent_grows (w : Writer) (offer : Offer) (ordered : Prop) :
    d.Grows ordered (durableEvent limits d w offer).2.2.appended
      (durableEvent limits d w offer).1.toStreams := by
  obtain ⟨hjournal, haudit⟩ := durableSeq_continues d limits w
    (offer.line (durableSeq d limits w)) rfl
  simp only [durableEvent]
  split_ifs
  · exact .idle _ _
  · exact .idle _ _
  · exact .idle _ _
  · exact .idle _ _
  · exact .idle _ _
  · exact .durable _ hjournal haudit

theorem observationEvent_grows (w : Writer) (offer : Offer) :
    d.Grows (offer.verdict = .accepted → d.top ≤ max w.lastSeq w.auditSeq)
      (observationEvent d w offer).2.2.appended (observationEvent d w offer).1.toStreams := by
  simp only [observationEvent]
  split_ifs with haccepted
  · apply Streams.Grows.observation
    intro hordered
    exact Nat.lt_succ_of_le (hordered haccepted)
  · exact .idle _ _

theorem appendBatch_fresh (counters : Counters) (events : Nat) (offers : List Offer) :
    (∀ line ∈ (appendBatch limits counters events offers).2.appended,
      max counters.lastSeq counters.auditSeq < line.seq) ∧
      Increasing (appendBatch limits counters events offers).2.appended := by
  induction offers generalizing counters events with
  | nil => simp [appendBatch, Reply.idle]
  | cons offer offers ih =>
    simp only [appendBatch]
    split_ifs
    · simp [Reply.refused]
    · simp [Reply.refused]
    · simp [Reply.refused]
    · set seq := max counters.lastSeq counters.auditSeq + 1 with hseq
      obtain ⟨habove, hincreasing⟩ := ih { counters with lastSeq := seq } (events + 1)
      have hrest : ∀ line ∈ (appendBatch limits { counters with lastSeq := seq } (events + 1)
          offers).2.appended, seq < line.seq := by
        intro line hline
        exact lt_of_le_of_lt (le_max_left _ _) (habove line hline)
      constructor
      · intro line hline
        rcases mem_cons.mp hline with rfl | hline
        · exact Nat.lt_succ_self _
        · exact lt_trans (Nat.lt_succ_self _) (hrest line hline)
      · exact pairwise_cons.mpr ⟨hrest, hincreasing⟩

theorem appendBatch_continues (events : Nat) (offers : List Offer) :
    Continues d.journal (appendBatch limits ⟨lastSeq d.journal, tailSeq defaultWindow d.audit⟩
        events offers).2.appended ∧
      Continues d.audit (appendBatch limits ⟨lastSeq d.journal, tailSeq defaultWindow d.audit⟩
        events offers).2.appended := by
  obtain ⟨habove, hincreasing⟩ := appendBatch_fresh limits
    ⟨lastSeq d.journal, tailSeq defaultWindow d.audit⟩ events offers
  refine ⟨⟨hincreasing, fun _ line hline => ?_⟩, ⟨hincreasing, fun haudit line hline => ?_⟩⟩
  · exact (le_max_left _ _).trans_lt (habove line hline)
  · rw [← haudit.tailSeq_eq defaultWindow]
    exact (le_max_right _ _).trans_lt (habove line hline)

theorem appendEventsWith_grows (offers : List Offer) (stateFits : Bool) (ordered : Prop) :
    d.Grows ordered (appendEventsWith limits d offers stateFits).2.appended
      (appendEventsWith limits d offers stateFits).1.toStreams := by
  obtain ⟨hjournal, haudit⟩ := appendBatch_continues d limits (lastSeq d.journal) offers
  have hgrows := @Streams.Grows.durable d.toStreams ordered _ hjournal haudit
  simp only [appendEventsWith]
  split_ifs
  · exact .idle _ _
  · exact .idle _ _
  · split
    · exact hgrows
    · exact hgrows
  · split
    · exact hgrows
    · exact hgrows

variable {s : Shared} {action : Action}

namespace Shared

def InOrder (s : Shared) : Action → Prop
  | .observation index offer =>
    ∀ w, s.writers[index]? = some w → offer.verdict = .accepted →
      s.directory.top ≤ max w.lastSeq w.auditSeq
  | _ => True

theorem step_grows (s : Shared) (action : Action) :
    s.directory.Grows (s.InOrder action) (s.step limits action).2.appended
      (s.step limits action).1.directory.toStreams := by
  cases action with
  | create => exact .idle _ _
  | durable index offer =>
    cases hw : s.writers[index]? with
    | none => simpa only [step, call, hw] using .idle _ _
    | some w => simpa only [step, call, hw] using durableEvent_grows s.directory limits w offer _
  | observation index offer =>
    cases hw : s.writers[index]? with
    | none => simpa only [step, call, hw] using .idle _ _
    | some w =>
      simpa only [step, call, InOrder, hw, Option.some.injEq, forall_eq'] using
        observationEvent_grows s.directory w offer
  | batch offers stateFits => exact appendEventsWith_grows s.directory limits offers stateFits _

theorem observation_appended {index : Nat} {offer : Offer} {w : Writer}
    (hw : s.writers[index]? = some w) (haccepted : offer.verdict = .accepted) :
    (s.step limits (.observation index offer)).2.appended =
      [offer.line (max w.lastSeq w.auditSeq + 1)] := by
  simp [step, call, hw, observationEvent, haccepted]

theorem not_inOrder_iff :
    ¬s.InOrder action ↔
      ∃ index offer w, action = .observation index offer ∧ s.writers[index]? = some w ∧
        offer.verdict = .accepted ∧ max w.lastSeq w.auditSeq < s.directory.top := by
  cases action with
  | observation index offer => simp [InOrder]
  | create => simp [InOrder]
  | durable index offer => simp [InOrder]
  | batch offers stateFits => simp [InOrder]

/-- Every call of a run meets a condition at its own state. -/
def Throughout (P : Shared → Action → Prop) : Shared → List Action → Prop
  | _, [] => True
  | s, action :: actions => P s action ∧ Throughout P (s.step limits action).1 actions

end Shared

/-! ## One sequence space -/

namespace Shared

variable {actions : List Action} {past : List Line}

/-- The records so far are in order, each stream holds its part of them and they are all in
one of the two. -/
structure Past (s : Shared) (past : List Line) : Prop where
  increasing : Increasing past
  journal : s.directory.journal.Sublist past
  audit : s.directory.audit.Sublist past
  perm : s.directory.lines.Perm past

theorem Past.step (h : s.Past past) (horder : s.InOrder action) :
    (s.step limits action).1.Past (past ++ (s.step limits action).2.appended) := by
  have hgrows := s.step_grows limits action
  have hfresh := hgrows.fresh horder (h.increasing.sublist h.journal)
    (h.increasing.sublist h.audit)
  have hincreasing : Increasing (past ++ (s.step limits action).2.appended) := by
    refine pairwise_append.mpr ⟨h.increasing, hfresh.increasing, fun line hline new hnew => ?_⟩
    exact (Streams.le_top (h.perm.mem_iff.mpr hline)).trans_lt (hfresh.above new hnew)
  obtain ⟨hjournal, haudit⟩ := hgrows.sublists h.journal h.audit
  exact ⟨hincreasing, hjournal, haudit, hgrows.lines_perm.trans (h.perm.append_right _)⟩

theorem Past.inOrder (h : s.Past past)
    (hincreasing : Increasing (past ++ (s.step limits action).2.appended)) :
    s.InOrder action := by
  by_contra hdisorder
  obtain ⟨index, offer, w, rfl, hw, haccepted, hbelow⟩ := not_inOrder_iff.mp hdisorder
  rw [observation_appended limits hw haccepted] at hincreasing
  obtain ⟨line, hline, hseq⟩ := lt_maxSeq_iff.mp hbelow
  have hlt := (pairwise_append.mp hincreasing).2.2 line (h.perm.mem_iff.mp hline) _
    (mem_singleton_self _)
  simp only [Offer.line] at hlt
  omega

theorem Past.run (h : s.Past past) (horder : s.Throughout limits InOrder actions) :
    (s.run limits actions).Past (past ++ s.appends limits actions) := by
  induction actions generalizing s past with
  | nil => simpa [appends] using h
  | cons action actions ih =>
    have hrun := ih (h.step limits horder.1) horder.2
    rwa [append_assoc] at hrun

def plainOffer (kind : String) : Offer := ⟨kind, 1, Nat.one_pos, .accepted⟩

def defaultLimits (maxEventCount : Option Nat) : Limits := ⟨maxEventCount, some (1024 * 1024)⟩

end Shared

end Qcg.Journal
