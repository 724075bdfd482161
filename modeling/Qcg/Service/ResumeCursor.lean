import Qcg.Service.EventReader
import Qcg.Service.TruncationExact

/-!
# Resuming at a cursor

A client that has received the events up to some seq goes on there, by a replay after that seq
or with a cursor it kept. Appends only ever add events above it. A truncation takes events
away: those the client has received leave its cursor beyond the end of the journal, and their
seqs are assigned again.
-/

namespace Qcg.EventReader

open List

open Journal

/-! ## Appends and truncations -/

/-- What the lines of a journal are on disk. -/
structure Rendering where
  text : Line → LineFile.Line newline
  size : ∀ line, (text line).1.length + 1 = line.size

def Rendering.bytes (texts : Rendering) (lines : List Line) : Bytes :=
  LineFile.encode (lines.map texts.text)

/-- How many lines `truncate_trailing_canceled_events` leaves. -/
def keptCount (api : TailApi) (texts : Rendering) (journal : List Line) : Nat :=
  (api.truncateTrailingCanceledEvents (texts.bytes journal)).1.count newline

/-- The truncation in a run directory. Only a successful fold of what is left replaces
`state.json`. -/
def truncate (api : TailApi) (texts : Rendering) (d : Directory) : Directory :=
  let journal := d.journal.take (keptCount api texts d.journal)
  match (api.truncateTrailingCanceledEvents (texts.bytes d.journal)).2 with
  | .ok true => { d with journal := journal, cache := some ⟨lastSeq journal, 0⟩ }
  | _ => { d with journal := journal }

theorem truncate_streams (api : TailApi) (texts : Rendering) (d : Directory) :
    (truncate api texts d).toStreams =
      ⟨d.journal.take (keptCount api texts d.journal), d.audit⟩ := by
  unfold truncate
  split
  · rfl
  · rfl

/-- The lines of the run directory are those of the file that is left. -/
theorem truncate_bytes (api : TailApi) (texts : Rendering) (d : Directory) :
    (api.truncateTrailingCanceledEvents (texts.bytes d.journal)).1 =
      texts.bytes (truncate api texts d).journal := by
  rw [show (truncate api texts d).journal = d.journal.take _ from
    congrArg Streams.journal (truncate_streams api texts d), keptCount]
  simp only [Rendering.bytes, map_take]
  generalize d.journal.map texts.text = lines
  have hwhole : LineFile.encode lines =
      LineFile.encode (lines.take ((LineFile.encode lines).count newline)) := by
    rw [LineFile.count_encode, take_length]
  rcases eq_or_ne lines [] with rfl | hne
  · simp [TailApi.truncateTrailingCanceledEvents]
  · rw [api.truncate_encode hne]
    split_ifs
    · cases hcut : api.findCut (LineFile.encode lines) (LineFile.encode lines).length with
      | error error => exact hwhole
      | ok cut =>
        obtain ⟨-, -, before, line, htake, -⟩ := api.findCut_spec hcut
        exact LineFile.take_encode htake
    · exact hwhole

/-- A step of a run directory's history. -/
inductive Step where
  | append (limits : Limits) (action : Action)
  | truncate (texts : Rendering)

section History

variable (api : TailApi)

def step (s : Shared) : Step → Shared × Reply
  | .append limits action => s.step limits action
  | .truncate texts => ({ s with directory := truncate api texts s.directory }, .idle)

def run (s : Shared) (steps : List Step) : Shared :=
  steps.foldl (fun s next => (step api s next).1) s

def appends : Shared → List Step → List Line
  | _, [] => []
  | s, next :: steps =>
    (step api s next).2.appended ++ appends (step api s next).1 steps

def Throughout (P : Shared → Step → Prop) : Shared → List Step → Prop
  | _, [] => True
  | s, next :: steps => P s next ∧ Throughout P (step api s next).1 steps

end History

def InOrder (s : Shared) : Step → Prop
  | .append _ action => s.InOrder action
  | .truncate _ => True

/-- A truncation leaves every event up to a seq. -/
def Spares (api : TailApi) (c : Nat) (s : Shared) : Step → Prop
  | .append _ _ => True
  | .truncate texts =>
    ∀ line ∈ s.directory.journal.drop (keptCount api texts s.directory.journal), c < line.seq

/-- What a truncation leaves of the streams reaches a seq. -/
def Reaches (api : TailApi) (c : Nat) (s : Shared) : Step → Prop
  | .append _ _ => True
  | .truncate texts => c ≤ (truncate api texts s.directory).top

/-! ## The streams of a run -/

/-- The files as a reader meets them; the journal and the observation file are never replaced. -/
def filesOf (t : Streams) : Snapshots :=
  ⟨⟨t.journal, 0, 0⟩, if t.audit.isEmpty then none else some ⟨t.audit, 0, 1⟩⟩

@[simp] theorem auditLines_filesOf (t : Streams) : (filesOf t).auditLines = t.audit := by
  unfold filesOf Snapshots.auditLines
  cases t.audit <;> simp

/-- What appends in order and truncations keep of the streams. -/
structure Sound (t : Streams) : Prop where
  apart : Apart t.journal t.audit
  pos : ∀ line ∈ t.lines, 0 < line.seq

variable {line : Line} {ordered : Prop} {next : EventCursor} {t t' : Streams} {new : List Line}

namespace Sound

theorem fresh (h : Sound t) (hgrows : t.Grows ordered new t') (hordered : ordered) : t.Fresh new :=
  hgrows.fresh hordered h.apart.durable_increasing h.apart.audit_increasing

theorem grows (h : Sound t) (hgrows : t.Grows ordered new t') (hordered : ordered) :
    Sound t' := by
  have hfresh := h.fresh hgrows hordered
  have hbelow : ∀ line ∈ t.lines, ∀ other ∈ new, line.seq < other.seq :=
    fun line hline other hother => (Streams.le_top hline).trans_lt (hfresh.above other hother)
  have hpos : ∀ line ∈ t'.lines, 0 < line.seq := by
    intro line hline
    rcases mem_append.mp (hgrows.lines_perm.mem_iff.mp hline) with hline | hline
    · exact h.pos line hline
    · exact Nat.zero_lt_of_lt (hfresh.above line hline)
  refine ⟨?_, hpos⟩
  cases hgrows with
  | durable _ hjournal _ =>
    refine ⟨hjournal.append h.apart.durable_increasing, h.apart.audit_increasing, ?_⟩
    intro a ha b hb
    rcases mem_append.mp ha with ha | ha
    · exact h.apart.apart a ha b hb
    · exact (hbelow b (mem_append_right _ hb) a ha).ne'
  | observation line _ =>
    refine ⟨h.apart.durable_increasing,
      pairwise_append.mpr ⟨h.apart.audit_increasing, hfresh.increasing, ?_⟩, ?_⟩
    · intro line hline
      exact hbelow line (mem_append_right _ hline)
    · intro a ha b hb
      rcases mem_append.mp hb with hb | hb
      · exact h.apart.apart a ha b hb
      · exact (hbelow a (mem_append_left _ ha) b hb).ne

theorem cut {t : Streams} (h : Sound t) {journal : List Line} (hcut : journal <+: t.journal) :
    Sound { t with journal := journal } := by
  refine ⟨⟨h.apart.durable_increasing.sublist hcut.sublist, h.apart.audit_increasing,
    fun a ha => h.apart.apart a (hcut.subset ha)⟩, ?_⟩
  intro line hline
  apply h.pos line
  rcases mem_append.mp hline with hline | hline
  · exact mem_append_left _ (hcut.subset hline)
  · exact mem_append_right _ hline

end Sound

section Run

variable {api : TailApi} {s : Shared} {next : Step} {steps : List Step} {c : Nat}

theorem step_sound (hs : Sound s.directory.toStreams) (horder : InOrder s next) :
    Sound (step api s next).1.directory.toStreams := by
  cases next with
  | append limits action => exact hs.grows (s.step_grows limits action) horder
  | truncate texts =>
    simp only [step, truncate_streams]
    exact hs.cut <| take_prefix _ _

/-- As long as the streams reach a seq, every later record is above it. -/
theorem step_above (hs : Sound s.directory.toStreams) (horder : InOrder s next)
    (hc : c ≤ s.directory.top) : ∀ line ∈ (step api s next).2.appended, c < line.seq := by
  cases next with
  | append limits action =>
    intro line hline
    exact hc.trans_lt ((hs.fresh (s.step_grows limits action) horder).above line hline)
  | truncate texts => simp [step, Reply.idle]

end Run

/-! ## The client -/

/-- A client that has received the events up to `cursor.lastSeq`. -/
structure Received (t : Streams) (cursor : EventCursor) : Prop where
  position : ∃ durableRest auditRest, cursor.Over (filesOf t) durableRest auditRest
  audit : cursor.audit.Knows ⟨t.audit, 0, 1⟩

/-- What a stream holds up to a seq is still its beginning, and the rest is above the seq. -/
def Keeps (c : Nat) (lines lines' : List Line) : Prop :=
  ∀ done rest, lines = done ++ rest → (∀ line ∈ done, line.seq ≤ c) →
    (∀ line ∈ rest, c < line.seq) →
      ∃ rest', lines' = done ++ rest' ∧ ∀ line ∈ rest', c < line.seq

theorem keeps_append {c : Nat} (lines : List Line) (h : ∀ line ∈ new, c < line.seq) :
    Keeps c lines (lines ++ new) := by
  rintro done rest rfl - hrest
  refine ⟨rest ++ new, append_assoc _ _ _, fun line hline => ?_⟩
  rcases mem_append.mp hline with hline | hline
  · exact hrest line hline
  · exact h line hline

theorem keeps_refl (c : Nat) (lines : List Line) : Keeps c lines lines := by
  simpa using @keeps_append [] c lines (by simp)

theorem keeps_take {c count : Nat} {lines : List Line}
    (h : ∀ line ∈ lines.drop count, c < line.seq) : Keeps c lines (lines.take count) := by
  rintro done rest rfl hdone hrest
  have hle : done.length ≤ count := by
    by_contra hlt
    rw [not_le] at hlt
    have hmem : done[count] ∈ (done ++ rest).drop count := by
      rw [drop_append_of_le_length hlt.le, drop_eq_getElem_cons hlt]
      exact mem_append_left _ mem_cons_self
    exact absurd (h _ hmem) (not_lt.mpr (hdone _ (getElem_mem hlt)))
  refine ⟨rest.take (count - done.length), ?_, fun line hline => hrest line (mem_of_mem_take hline)⟩
  rw [take_append, take_of_length_le hle]

theorem grows_keeps {c : Nat} (hgrows : t.Grows ordered new t')
    (habove : ∀ line ∈ new, c < line.seq) :
    Keeps c t.journal t'.journal ∧ Keeps c t.audit t'.audit := by
  cases hgrows with
  | durable _ _ _ => exact ⟨keeps_append _ habove, keeps_refl _ _⟩
  | observation line _ => exact ⟨keeps_refl _ _, keeps_append _ habove⟩

section Client

variable {cursor : EventCursor}

theorem Received.le_top (h : Received t cursor) : cursor.lastSeq ≤ t.top := by
  obtain ⟨durableRest, auditRest, hover⟩ := h.position
  obtain ⟨done, audit, hdurable, haudit, hat⟩ := hover.at_rest
  rw [auditLines_filesOf] at haudit
  have hjournal : t.journal = done ++ durableRest := hdurable
  rcases hat.last with hzero | ⟨line, hline, hseq⟩
  · omega
  · rw [← hseq]
    apply Streams.le_top
    rcases mem_append.mp hline with hline | hline
    · exact mem_append_left _ (hjournal ▸ mem_append_left _ hline)
    · exact mem_append_right _ (haudit ▸ mem_append_left _ hline)

/-- A client is where it was in streams that keep what it has received. -/
theorem Received.keeps (h : Received t cursor) (hs : Sound t')
    (hjournal : Keeps cursor.lastSeq t.journal t'.journal)
    (haudit : Keeps cursor.lastSeq t.audit t'.audit) : Received t' cursor := by
  obtain ⟨durableRest, auditRest, hover⟩ := h.position
  obtain ⟨done, audit, hdone, hauditDone, hat⟩ := hover.at_rest
  rw [auditLines_filesOf] at hauditDone
  obtain ⟨durableRest', hdurable, habove⟩ :=
    hjournal done durableRest hdone hat.durable.done hat.durable.rest
  obtain ⟨auditRest', hauditEq, hauditAbove⟩ :=
    haudit audit auditRest hauditDone hat.audit.done hat.audit.rest
  have hdurableSublist : durableRest'.Sublist t'.journal := hdurable ▸ sublist_append_right _ _
  have hauditSublist : auditRest'.Sublist t'.audit := hauditEq ▸ sublist_append_right _ _
  refine ⟨⟨durableRest', auditRest', ⟨done, audit, hdurable, by simpa using hauditEq, hat.last,
    ?_, ?_⟩, ?_, hover.durable, ?_⟩, h.audit⟩
  · exact ⟨hat.durable.offset, hat.durable.seq, hat.durable.done, habove⟩
  · exact ⟨hat.audit.offset, hat.audit.seq, hat.audit.done, hauditAbove⟩
  · exact ⟨hs.apart.durable_increasing.sublist hdurableSublist,
      hs.apart.audit_increasing.sublist hauditSublist,
      fun a ha b hb => hs.apart.apart a (hdurableSublist.subset ha) b (hauditSublist.subset hb)⟩
  · intro file hfile
    have hidentity : file.identity = 1 := by
      unfold filesOf at hfile
      split_ifs at hfile
      cases hfile
      rfl
    simpa only [StreamCursor.Knows, hidentity] using h.audit

theorem Received.step {api : TailApi} {s : Shared} {next : Step}
    (h : Received s.directory.toStreams cursor) (hs : Sound s.directory.toStreams)
    (horder : InOrder s next) (hspares : Spares api cursor.lastSeq s next) :
    Received (step api s next).1.directory.toStreams cursor := by
  have habove := @step_above api s next cursor.lastSeq hs horder h.le_top
  cases next with
  | append limits action =>
    obtain ⟨hjournal, haudit⟩ := grows_keeps (s.step_grows limits action) habove
    exact h.keeps (step_sound hs horder) hjournal haudit
  | truncate texts =>
    apply h.keeps (step_sound hs horder)
    · simp only [EventReader.step, truncate_streams]
      exact keeps_take hspares
    · simp only [EventReader.step, truncate_streams]
      exact keeps_refl _ _

end Client

/-- Every record that a run appends and keeps is delivered to the client, by a replay after its
last seq and by further reads with its cursor. -/
def NoneSkipped (api : TailApi) (s : Shared) (cursor : EventCursor)
    (after : List Step) : Prop :=
  ∀ line ∈ appends api s after, line ∈ (run api s after).directory.lines →
    (∃ events, historyEvents (filesOf (run api s after).directory.toStreams)
      cursor.lastSeq = .ok events ∧ line ∈ events) ∧
    ∃ reads events next,
      cursor.poll (filesOf (run api s after).directory.toStreams) reads =
        .ok (events, next) ∧ line ∈ events

section Resumed

variable {api : TailApi} {s : Shared} {cursor : EventCursor} {after : List Step}

end Resumed

/-! ## A truncation below the cursor -/

section Loss

variable {api : TailApi} {s : Shared} {texts : Rendering}

def unlimited : Limits := ⟨none, none⟩

variable {more : Nat}

end Loss

/-! ## What a resumed client misses -/

section Resumed

variable {api : TailApi} {s : Shared} {cursor : EventCursor} {after : List Step}

theorem NoneSkipped.tail {next : Step} {after : List Step}
    (h : NoneSkipped api s cursor (next :: after)) :
    NoneSkipped api (step api s next).1 cursor after := by
  intro line hline hkept
  exact h line (mem_append_right _ hline) hkept

end Resumed

end Qcg.EventReader
