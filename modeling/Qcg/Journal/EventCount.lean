import Qcg.Journal.Sequence

/-!
# The event count of a writer

Before it appends, a writer compares `stats.events` with `max_event_count`. Opening a journal
counts its lines; a writer that has fallen behind, and every batch, take the last seq for the
number of events instead.
-/

namespace Qcg.Journal

open Directory

/-- The journal is in order and `state.json` is not ahead of it. Observations may be in any
order. -/
structure Directory.Settled (d : Directory) : Prop where
  increasing : Increasing d.journal
  cache : d.stateJsonSeqFloor ≤ lastSeq d.journal

/-- A writer is not ahead of the journal, and one that is level with it has counted its
lines. -/
structure Directory.Counted (d : Directory) (w : Writer) : Prop where
  behind : w.lastSeq ≤ lastSeq d.journal
  level : w.lastSeq = lastSeq d.journal → w.events = d.journal.length

theorem resyncDurableState_lastSeq (d : Directory) :
    (d.resyncDurableState (lastSeq d.journal)).lastSeq = lastSeq d.journal := by
  unfold resyncDurableState
  split
  · split_ifs with h
    · exact h
    · rfl
  · rfl

section Resync

variable {d : Directory} {w : Writer} (limits : Limits)

theorem Directory.Settled.readLastSeqFromTail_eq (h : d.Settled) :
    d.readLastSeqFromTail limits = lastSeq d.journal := by
  rw [readLastSeqFromTail, h.increasing.tailSeq_eq]
  exact max_eq_left h.cache

theorem resync_events (h : d.Settled) :
    (d.resync limits w).events =
      if w.lastSeq < lastSeq d.journal then lastSeq d.journal else w.events := by
  simp only [resync, h.readLastSeqFromTail_eq]
  split_ifs
  · exact resyncDurableState_lastSeq d
  · rfl

theorem resync_lastSeq (h : d.Settled) (hw : d.Counted w) :
    (d.resync limits w).lastSeq = lastSeq d.journal := by
  simp only [resync, h.readLastSeqFromTail_eq]
  split_ifs with hlt
  · exact resyncDurableState_lastSeq d
  · exact le_antisymm hw.behind (not_lt.mp hlt)

theorem resync_events_iff (h : d.Settled) (hw : d.Counted w) :
    (d.resync limits w).events = d.journal.length ↔
      (w.lastSeq < lastSeq d.journal → lastSeq d.journal = d.journal.length) := by
  rw [resync_events limits h]
  split_ifs with hlt
  · simp [hlt]
  · simp [hlt, hw.level (le_antisymm hw.behind (not_lt.mp hlt))]

end Resync

variable {counters : Counters} {limits : Limits}

theorem appendBatch_lastSeq (events : Nat) (offers : List Offer)
    {journal : List Line} (h : counters.lastSeq = lastSeq journal) :
    (appendBatch limits counters events offers).1.lastSeq =
      lastSeq (journal ++ (appendBatch limits counters events offers).2.appended) := by
  induction offers generalizing counters events journal with
  | nil => simpa [appendBatch, Reply.idle] using h
  | cons offer offers ih =>
    simp only [appendBatch]
    split_ifs
    · simpa [Reply.refused] using h
    · simpa [Reply.refused] using h
    · simpa [Reply.refused] using h
    · set seq := max counters.lastSeq counters.auditSeq + 1
      have hrest := @ih { counters with lastSeq := seq } (events + 1)
        (journal ++ [offer.line seq]) (by simp [Offer.line])
      simpa using hrest

theorem full_eq_true {events : Nat} (h : full limits events = true) :
    ∃ bound, limits.maxEventCount = some bound ∧ bound ≤ events := by
  rw [full] at h
  cases hlimit : limits.maxEventCount with
  | none => simp [hlimit] at h
  | some bound => exact ⟨bound, rfl, by simpa [hlimit] using h⟩

theorem appendBatch_exceeded {events : Nat} {offers : List Offer}
    (h : (appendBatch limits counters events offers).2.refusal = some .eventCountExceeded) :
    ∃ bound, limits.maxEventCount = some bound ∧
      bound ≤ events + (appendBatch limits counters events offers).2.appended.length := by
  induction offers generalizing counters events with
  | nil => simp [appendBatch, Reply.idle] at h
  | cons offer offers ih =>
    simp only [appendBatch] at h ⊢
    split_ifs at h ⊢ with hlate hfull htotal
    · simp [Reply.refused] at h
    · exact full_eq_true hfull
    · simp [Reply.refused] at h
    · obtain ⟨bound, hlimit, hbound⟩ := ih h
      refine ⟨bound, hlimit, ?_⟩
      simp only [List.length_cons]
      omega

theorem appendEventsWith_exceeded {d : Directory} {offers : List Offer} {stateFits : Bool}
    (h : (appendEventsWith limits d offers stateFits).2.refusal = some .eventCountExceeded) :
    offers ≠ [] ∧ ∃ bound, limits.maxEventCount = some bound ∧
      bound + d.journal.length ≤
        lastSeq d.journal + (appendEventsWith limits d offers stateFits).1.journal.length := by
  have hbatch := @appendBatch_exceeded ⟨lastSeq d.journal, tailSeq defaultWindow d.audit⟩ limits
    (lastSeq d.journal) offers
  simp only [appendEventsWith] at h ⊢
  generalize appendBatch limits _ (lastSeq d.journal) offers = result at h hbatch ⊢
  by_cases hoffers : offers.isEmpty = true
  · simp [hoffers, Reply.idle] at h
  by_cases hearly : offers.any (·.verdict = .early) = true
  · simp [hoffers, hearly, Reply.refused] at h
  rw [if_neg hoffers, if_neg hearly] at h ⊢
  cases hrefusal : result.2.refusal with
  | none => cases stateFits <;> simp [hrefusal] at h
  | some refusal =>
    simp only [hrefusal] at h hbatch ⊢
    obtain ⟨bound, hlimit, hbound⟩ := hbatch h
    refine ⟨by simpa using hoffers, bound, hlimit, ?_⟩
    simp only [List.length_append]
    omega

theorem Continues.lastSeq_le {lines new : List Line} (h : Continues lines new)
    (hlines : Increasing lines) : lastSeq lines ≤ lastSeq (lines ++ new) := by
  rw [← (h.append hlines).maxSeq_eq, ← hlines.maxSeq_eq]
  exact maxSeq_le_iff.mpr fun line hline =>
    maxSeq_le_iff.mp le_rfl line (List.mem_append_left _ hline)

/-- A call leaves the journal in order, and `state.json` and the writers behind it. -/
structure Directory.Keeps (d d' : Directory) : Prop where
  settled : d'.Settled
  writers : ∀ w, d.Counted w → d'.Counted w

theorem Directory.Settled.keeps {d : Directory} (h : d.Settled) : d.Keeps d :=
  ⟨h, fun _ hw => hw⟩

/-- Records that continue the journal leave every other writer behind. -/
theorem Directory.Settled.keeps_append {d : Directory} (h : d.Settled) (cache : Option Counters)
    {new : List Line} (hnew : Continues d.journal new)
    (hcache : (cache.map (·.lastSeq)).getD 0 ≤ lastSeq (d.journal ++ new)) :
    d.Keeps { d with journal := d.journal ++ new, cache := cache } := by
  refine ⟨⟨hnew.append h.increasing, hcache⟩, fun w hw => ?_⟩
  by_cases hne : new = []
  · simpa [hne] using ⟨hw.behind, hw.level⟩
  · have hlt : lastSeq d.journal < lastSeq (d.journal ++ new) := by
      obtain ⟨final, hfinal, hseq⟩ := lastSeq_mem hne
      rw [lastSeq_append _ hne, ← hseq]
      exact hnew.above h.increasing final hfinal
    constructor
    · exact hw.behind.trans hlt.le
    · intro hlevel
      exact absurd (hlevel ▸ hw.behind) (not_le.mpr hlt)

theorem durableEvent_keeps {d : Directory} {w : Writer} (offer : Offer) (h : d.Settled)
    (hw : d.Counted w)
    (hcount : offer.verdict ≠ .early → (d.resync limits w).events = d.journal.length) :
    d.Keeps (durableEvent limits d w offer).1 ∧
      (durableEvent limits d w offer).1.Counted (durableEvent limits d w offer).2.1 := by
  have hcontinues := (durableSeq_continues d limits w (offer.line (durableSeq d limits w)) rfl).1
  simp only [durableEvent]
  by_cases hearly : offer.verdict = .early
  · simpa only [hearly, if_true] using ⟨h.keeps, hw⟩
  have hsynced : d.Counted (d.resync limits w) :=
    ⟨(resync_lastSeq limits h hw).le, fun _ => hcount hearly⟩
  split_ifs
  · exact ⟨h.keeps, hw⟩
  · exact ⟨h.keeps, hsynced⟩
  · exact ⟨h.keeps, hsynced⟩
  · exact ⟨h.keeps, hsynced⟩
  · refine ⟨h.keeps_append _ hcontinues ?_, ?_, ?_⟩
    · simp [Offer.line]
    · simp [Offer.line]
    · simp [hcount hearly]

theorem observationEvent_keeps {d : Directory} {w : Writer} (offer : Offer) (h : d.Settled)
    (hw : d.Counted w) :
    d.Keeps (observationEvent d w offer).1 ∧
      (observationEvent d w offer).1.Counted (observationEvent d w offer).2.1 := by
  simp only [observationEvent]
  split_ifs
  · exact ⟨⟨⟨h.increasing, h.cache⟩, fun _ hv => ⟨hv.behind, hv.level⟩⟩, hw.behind, hw.level⟩
  · exact ⟨h.keeps, hw⟩

theorem appendEventsWith_keeps {d : Directory} (offers : List Offer) (stateFits : Bool)
    (h : d.Settled) : d.Keeps (appendEventsWith limits d offers stateFits).1 := by
  have hcontinues := (appendBatch_continues d limits (lastSeq d.journal) offers).1
  have hstale := h.keeps_append d.cache hcontinues
    (h.cache.trans (hcontinues.lastSeq_le h.increasing))
  simp only [appendEventsWith]
  split_ifs
  · exact h.keeps
  · exact h.keeps
  · split
    · exact hstale
    · exact h.keeps_append _ hcontinues (appendBatch_lastSeq _ offers rfl).le
  · split
    · exact hstale
    · exact hstale

namespace Shared

/-- The count that a call compares first is the number of events of the journal. -/
def CountsEvents (limits : Limits) (s : Shared) : Action → Prop
  | .durable index offer =>
    ∀ w, s.writers[index]? = some w → offer.verdict ≠ .early →
      (s.directory.resync limits w).events = s.directory.journal.length
  | .batch offers _ => offers ≠ [] → lastSeq s.directory.journal = s.directory.journal.length
  | _ => True

/-- A call that is refused for the number of events finds that many in the journal. -/
def RefusesFull (limits : Limits) (s : Shared) (action : Action) : Prop :=
  (s.step limits action).2.refusal = some .eventCountExceeded →
    ∃ bound, limits.maxEventCount = some bound ∧
      bound ≤ (s.step limits action).1.directory.journal.length

/-- Where the last seq stands for the count, no observation has taken a seq below it. -/
def Gapless (s : Shared) : Action → Prop
  | .durable index offer =>
    ∀ w, s.writers[index]? = some w → offer.verdict ≠ .early →
      w.lastSeq < lastSeq s.directory.journal →
        lastSeq s.directory.journal = s.directory.journal.length
  | .batch offers _ => offers ≠ [] → lastSeq s.directory.journal = s.directory.journal.length
  | _ => True

structure Counted (s : Shared) : Prop where
  settled : s.directory.Settled
  writers : ∀ w ∈ s.writers, s.directory.Counted w

theorem counted_empty : empty.Counted :=
  ⟨⟨List.Pairwise.nil, Nat.le_refl 0⟩, by simp [empty]⟩

variable {s : Shared}

theorem Counted.countsEvents_iff (h : s.Counted) (action : Action) :
    s.CountsEvents limits action ↔ s.Gapless action := by
  cases action with
  | durable index offer =>
    simp only [CountsEvents, Gapless]
    apply forall_congr'
    intro w
    apply imp_congr_right
    intro hw
    apply imp_congr_right
    intro _
    exact resync_events_iff limits h.settled (h.writers w (List.mem_of_getElem? hw))
  | create => exact Iff.rfl
  | observation index offer => exact Iff.rfl
  | batch offers stateFits => exact Iff.rfl

theorem Counted.call {s : Shared} (h : s.Counted) {index : Nat}
    {f : Directory → Writer → Directory × Writer × Reply}
    (hf : ∀ w, s.writers[index]? = some w →
      s.directory.Keeps (f s.directory w).1 ∧ (f s.directory w).1.Counted (f s.directory w).2.1) :
    (s.call index f).1.Counted := by
  cases hw : s.writers[index]? with
  | none => simpa only [Shared.call, hw] using h
  | some w =>
    obtain ⟨hkeeps, hwriter⟩ := hf w hw
    simp only [Shared.call, hw]
    constructor
    · exact hkeeps.settled
    · intro v hv
      rcases List.mem_or_eq_of_mem_set hv with hv | rfl
      · exact hkeeps.writers v (h.writers v hv)
      · exact hwriter

theorem Counted.step {s : Shared} (h : s.Counted) {action : Action}
    (hcount : s.CountsEvents limits action) : (s.step limits action).1.Counted := by
  cases action with
  | create =>
    constructor
    · exact ⟨h.settled.increasing, le_refl _⟩
    · intro w hw
      rcases List.mem_append.mp hw with hw | hw
      · exact ⟨(h.writers w hw).behind, (h.writers w hw).level⟩
      · rw [List.mem_singleton.mp hw]
        exact ⟨le_refl _, fun _ => rfl⟩
  | durable index offer =>
    apply h.call
    intro w hw
    have hcounted := h.writers w (List.mem_of_getElem? hw)
    exact durableEvent_keeps offer h.settled hcounted (hcount w hw)
  | observation index offer =>
    apply h.call
    intro w hw
    exact observationEvent_keeps offer h.settled (h.writers w (List.mem_of_getElem? hw))
  | batch offers stateFits =>
    have hkeeps := @appendEventsWith_keeps limits _ offers stateFits h.settled
    exact ⟨hkeeps.settled, fun w hw => hkeeps.writers w (h.writers w hw)⟩

theorem CountsEvents.refusesFull {action : Action} (h : s.CountsEvents limits action) :
    s.RefusesFull limits action := by
  intro hrefusal
  cases action with
  | create => simp [step, Reply.idle] at hrefusal
  | durable index offer =>
    cases hw : s.writers[index]? with
    | none => simp [step, call, hw, Reply.idle] at hrefusal
    | some w =>
      simp only [step, call, hw, durableEvent] at hrefusal ⊢
      split_ifs at hrefusal ⊢ with hearly hfloor hlate hfull htotal
      · simp [Reply.refused] at hrefusal
      · simp [Reply.refused] at hrefusal
      · simp [Reply.refused] at hrefusal
      · rw [h w hw hearly] at hfull
        exact full_eq_true hfull
      · simp [Reply.refused] at hrefusal
  | observation index offer =>
    cases hw : s.writers[index]? with
    | none => simp [step, call, hw, Reply.idle] at hrefusal
    | some w =>
      simp only [step, call, hw, observationEvent] at hrefusal
      split_ifs at hrefusal
      simp [Reply.idle] at hrefusal
  | batch offers stateFits =>
    obtain ⟨hoffers, bound, hlimit, hbound⟩ := appendEventsWith_exceeded hrefusal
    have hcount := h hoffers
    refine ⟨bound, hlimit, ?_⟩
    simp only [step]
    omega

theorem Counted.throughout_iff (h : s.Counted) {actions : List Action} :
    s.Throughout limits
        (fun s action => s.CountsEvents limits action ∧ s.RefusesFull limits action) actions ↔
      s.Throughout limits Gapless actions := by
  induction actions generalizing s with
  | nil => exact Iff.rfl
  | cons action actions ih =>
    simp only [Throughout]
    constructor
    · rintro ⟨⟨hcount, -⟩, hrest⟩
      exact ⟨(h.countsEvents_iff action).mp hcount, (ih (h.step hcount)).mp hrest⟩
    · rintro ⟨hgapless, hrest⟩
      have hcount := (@Counted.countsEvents_iff limits s h action).mpr hgapless
      exact ⟨⟨hcount, hcount.refusesFull⟩, (ih (h.step hcount)).mpr hrest⟩

theorem event_count_iff (limits : Limits) (actions : List Action) :
    empty.Throughout limits
        (fun s action => s.CountsEvents limits action ∧ s.RefusesFull limits action) actions ↔
      empty.Throughout limits Gapless actions :=
  counted_empty.throughout_iff

/-- An observation takes the first seq; the second writer falls behind and takes the last seq
for the number of events. -/
def observedPeer : List Action :=
  [.create, .create, .observation 0 (plainOffer "llm_delta"),
    .durable 0 (plainOffer "run_started"), .durable 0 (plainOffer "step_started")]

theorem observed_peer_refused :
    ((empty.run (defaultLimits (some 3)) observedPeer).step (defaultLimits (some 3))
        (.durable 1 (plainOffer "step_finished"))).2.refusal = some .eventCountExceeded ∧
      ((empty.run (defaultLimits (some 3)) observedPeer).step (defaultLimits (some 3))
        (.durable 1 (plainOffer "step_finished"))).1.directory.journal.length = 2 := by
  decide

end Shared

end Qcg.Journal
