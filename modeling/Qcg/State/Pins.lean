import Qcg.State.Identity
import Qcg.Library.LastWriter

/-!
# Pinned file revisions

The workspace revision of a path is the one of the last record that pinned it there, and
none after an agent has removed the file; every revision ever reported stays in the
history, whatever became of the attempt.
-/

namespace Qcg

open Json (Value Members)

/-- Whether an event is a report whose files the workspace takes over. -/
def isPinning (event : Value) : Bool :=
  match kindOf event with
  | some .stepFinished => projectsWorkspace ((event.getStr "status").getD "")
  | some .confirmRequest => (event.get "files").isSome && (event.get "node").isSome
  | _ => false

/-- The files that an event makes the workspace's. -/
def pinnedBy (event : Value) : List FilePin :=
  if isPinning event then pinList event "files" else []

def removedBy (event : Value) : List String :=
  if kindOf event = some .agentFileChanges then (changesOf event).removedFiles else []

/-- The revisions that an event reports, of failed attempts too. -/
def reportedBy (event : Value) : List FilePin :=
  if kindOf event = some .stepFinished ∨ isPinning event = true then
    pinList event "files" ++ pinList event "failed_files"
  else []

def lastPin (pins : List FilePin) (path : String) : Option String :=
  ((pins.filter fun pin => pin.path = path).getLast?).map FilePin.sha256

/-- What an event does to the workspace revision of a path. -/
def pinEffect (path : String) (event : Value) : Option (Option String) :=
  if path ∈ removedBy event then some none else (lastPin (pinnedBy event) path).map some

theorem lastPin_concat (pins : List FilePin) (pin : FilePin) (path : String) :
    lastPin (pins ++ [pin]) path =
      if pin.path = path then some pin.sha256 else lastPin pins path := by
  by_cases h : pin.path = path <;> simp [lastPin, List.filter_append, h]

namespace Pins

variable {p : Pins} {path digest : String}

def HasHistory (m : BTreeMap BTreeSet) (path digest : String) : Prop :=
  ∃ revisions, m[path]? = some revisions ∧ digest ∈ revisions

theorem write_latest (p : Pins) (files : List FilePin) (path : String) :
    (p.write files).latest[path]? = (lastPin files path).or p.latest[path]? := by
  induction files using List.reverseRecOn with
  | nil => rfl
  | append_singleton files pin ih =>
    have hconcat : (p.write (files ++ [pin])).latest =
        (p.write files).latest.insert pin.path pin.sha256 := by
      simp [write]
    rw [hconcat, BTreeMap.get_insert, lastPin_concat, ih]
    by_cases h : path = pin.path
    · simp [h]
    · simp [h, Ne.symm h]

theorem mem_write_removed (p : Pins) (files : List FilePin) (path : String) :
    path ∈ (p.write files).removed ↔ path ∈ p.removed ∧ lastPin files path = none := by
  induction files using List.reverseRecOn with
  | nil => simp [write, lastPin]
  | append_singleton files pin ih =>
    have hconcat : (p.write (files ++ [pin])).removed = (p.write files).removed.erase pin.path := by
      simp [write]
    rw [hconcat, Std.ExtTreeSet.mem_erase, ih, lastPin_concat]
    by_cases h : pin.path = path <;> simp [h]

theorem change_latest (p : Pins) (changes : AgentFileChanges) (path : String) :
    (p.change changes).latest[path]? =
      if path ∈ changes.removedFiles then none else p.latest[path]? :=
  BTreeMap.get_foldl_erase p.latest changes.removedFiles path

theorem mem_change_removed (p : Pins) (changes : AgentFileChanges) (path : String) :
    path ∈ (p.change changes).removed ↔
      path ∉ changes.writtenFiles ∧ (path ∈ changes.removedFiles ∨ path ∈ p.removed) := by
  rw [← BTreeSet.mem_foldl_insert p.removed]
  exact BTreeSet.mem_foldl_erase _ changes.writtenFiles path

theorem mem_getD_iff {m : BTreeMap BTreeSet} :
    digest ∈ m.getD path ∅ ↔ HasHistory m path digest := by
  rw [Std.ExtTreeMap.getD_eq_getD_getElem?, HasHistory]
  cases (m[path]? : Option BTreeSet) with
  | none => simp
  | some revisions => simp

theorem record_history (p : Pins) (pins : List FilePin) (path digest : String) :
    HasHistory (p.record pins).historical path digest ↔
      HasHistory p.historical path digest ∨ { path, sha256 := digest } ∈ pins := by
  induction pins using List.reverseRecOn with
  | nil => simp [record]
  | append_singleton pins pin ih =>
    have hconcat : (p.record (pins ++ [pin])).historical =
        (p.record pins).historical.insert pin.path
          (((p.record pins).historical.getD pin.path ∅).insert pin.sha256) := by
      simp [record]
    rw [hconcat, List.mem_append, List.mem_singleton, ← or_assoc, ← ih]
    obtain ⟨pinPath, sha256⟩ := pin
    simp only [HasHistory, BTreeMap.get_insert, FilePin.mk.injEq]
    by_cases h : path = pinPath
    · subst h
      simp only [if_true, Option.some.injEq, exists_eq_left', BTreeSet.mem_insert, mem_getD_iff,
        HasHistory, true_and]
      exact or_comm
    · simp [h]

theorem write_historical (p : Pins) (files : List FilePin) :
    (p.write files).historical = p.historical := rfl

theorem record_latest (p : Pins) (pins : List FilePin) : (p.record pins).latest = p.latest := rfl

theorem record_removed (p : Pins) (pins : List FilePin) : (p.record pins).removed = p.removed := rfl

/-- Current revisions are on record, and no removed file has one. -/
structure Valid (p : Pins) : Prop where
  recorded : ∀ path digest, p.latest[path]? = some digest → HasHistory p.historical path digest
  removed : ∀ path, path ∈ p.removed → (p.latest[path]? : Option String) = none

variable {kind : EventKind}

theorem step_eq {event : Value} (p : Pins) (hkind : kindOf event = some kind) :
    p.step kind event =
      if kind = .agentFileChanges then p.change (changesOf event)
      else (p.record (reportedBy event)).write (pinnedBy event) := by
  have hidle : (p.record []).write [] = p := rfl
  by_cases hfinished : kind = .stepFinished
  · subst hfinished
    have hreported : reportedBy event = pinList event "files" ++ pinList event "failed_files" := by
      simp [reportedBy, hkind]
    simp only [step, report, reduceCtorEq, if_false, hreported, pinnedBy, isPinning, hkind]
    split_ifs <;> rfl
  · by_cases hconfirm : kind = .confirmRequest
    · subst hconfirm
      simp only [step, report, reduceCtorEq, if_false, reportedBy, pinnedBy, isPinning, hkind,
        Option.some.injEq, false_or, Bool.and_eq_true]
      split_ifs <;> rfl
    · have hquiet : isPinning event = false := by
        simp only [isPinning, hkind]
        split <;> simp_all
      have hreported : reportedBy event = [] := by
        simp [reportedBy, hkind, hfinished, hquiet]
      have hpinned : pinnedBy event = [] := by
        simp [pinnedBy, hquiet]
      rw [hreported, hpinned, hidle]
      by_cases hchanges : kind = .agentFileChanges
      · subst hchanges
        rfl
      · rw [if_neg hchanges]
        unfold step
        split <;> simp_all

theorem step_latest {event : Value} (p : Pins) (hkind : kindOf event = some kind) (path : String) :
    (p.step kind event).latest[path]? = (pinEffect path event).getD p.latest[path]? := by
  rw [step_eq p hkind]
  split_ifs with hchanges
  · subst hchanges
    have hpinned : pinnedBy event = [] := by simp [pinnedBy, isPinning, hkind]
    rw [change_latest, pinEffect, removedBy, if_pos hkind, hpinned]
    split_ifs <;> rfl
  · have hremoved : removedBy event = [] := by simp [removedBy, hkind, hchanges]
    rw [write_latest, record_latest, pinEffect, hremoved]
    cases lastPin (pinnedBy event) path <;> simp

theorem step_history {event : Value} (p : Pins)
    (hkind : kindOf event = some kind) (path digest : String) :
    HasHistory (p.step kind event).historical path digest ↔
      HasHistory p.historical path digest ∨ { path, sha256 := digest } ∈ reportedBy event := by
  rw [step_eq p hkind]
  split_ifs with hchanges
  · subst hchanges
    simp [change, reportedBy, isPinning, hkind]
  · rw [write_historical, record_history]

theorem lastPin_mem {pins : List FilePin} (h : lastPin pins path = some digest) :
    { path, sha256 := digest } ∈ pins := by
  obtain ⟨pin, hpin, rfl⟩ := Option.map_eq_some_iff.mp h
  have hmem := List.mem_of_getLast? hpin
  rw [List.mem_filter, decide_eq_true_eq] at hmem
  obtain ⟨hmem, rfl⟩ := hmem
  exact hmem

theorem pinnedBy_subset (event : Value) : pinnedBy event ⊆ reportedBy event := by
  intro pin hpin
  unfold pinnedBy at hpin
  split_ifs at hpin with hpinning
  · simp [reportedBy, hpinning, hpin]
  · cases hpin

theorem valid_step {event : Value} (hp : p.Valid)
    (hkind : kindOf event = some kind) : (p.step kind event).Valid := by
  constructor
  · intro path digest hlatest
    rw [step_history p hkind]
    rw [step_latest p hkind, pinEffect] at hlatest
    split_ifs at hlatest
    · cases hlatest
    · cases hpin : lastPin (pinnedBy event) path with
      | none =>
        rw [hpin] at hlatest
        exact .inl (hp.recorded path digest hlatest)
      | some pinned =>
        rw [hpin] at hlatest
        cases hlatest
        exact .inr (pinnedBy_subset event (lastPin_mem hpin))
  · intro path hremoved
    rw [step_latest p hkind, pinEffect]
    rw [step_eq p hkind] at hremoved
    split_ifs at hremoved with hchanges
    · subst hchanges
      have hlist : removedBy event = (changesOf event).removedFiles := by simp [removedBy, hkind]
      have hpinned : pinnedBy event = [] := by simp [pinnedBy, isPinning, hkind]
      rw [mem_change_removed, ← hlist] at hremoved
      rcases hremoved.2 with hnow | hbefore
      · rw [if_pos hnow]
        rfl
      · rw [hpinned]
        split_ifs
        · rfl
        · exact hp.removed path hbefore
    · rw [mem_write_removed, record_removed] at hremoved
      rw [hremoved.2]
      split_ifs
      · rfl
      · exact hp.removed path hremoved.1

end Pins

namespace RunState

variable {api : Api} {s s' : RunState} {event : Value} {events : List Value}

theorem apply_pins (h : s.apply api event = .ok s') :
    ∃ kind, kindOf event = some kind ∧ s'.pins = s.pins.step kind event := by
  obtain ⟨kind, h⟩ := accepted_of_apply h
  refine ⟨kind, h.kindOf_eq, ?_⟩
  rcases kind.isRecord_or with hrecord | rfl | rfl | hidentity
  · exact congrArg Facets.pins (h.record hrecord).2
  · exact congrArg Facets.pins h.forked.2
  · obtain ⟨-, -, next, -, -, hfacets⟩ := h.elapsed
    exact congrArg Facets.pins hfacets
  · obtain ⟨-, -, -, mode, -, -, hfacets⟩ := h.admitted hidentity
    rcases hidentity with rfl | rfl <;> exact congrArg Facets.pins hfacets

section

variable (h : events.foldlM (RunState.apply api) s = .ok s')

include h

theorem foldlM_valid (hs : s.pins.Valid) :
    s'.pins.Valid := by
  refine Except.foldlM_induction (P := fun s => s.pins.Valid) h hs ?_
  intro s event s' _ hs hstep
  obtain ⟨kind, hkind, hpins⟩ := apply_pins hstep
  rw [hpins]
  exact Pins.valid_step hs hkind

theorem foldlM_history {path digest : String}
    (hs : Pins.HasHistory s.historicalFilePins path digest) :
    Pins.HasHistory s'.historicalFilePins path digest := by
  refine Except.foldlM_induction
    (P := fun s => Pins.HasHistory s.pins.historical path digest) h hs ?_
  intro s event s' _ hs hstep
  obtain ⟨kind, hkind, hpins⟩ := apply_pins hstep
  rw [hpins, Pins.step_history _ hkind]
  exact .inl hs

theorem foldlM_latest (path : String) :
    s'.latestFilePins[path]? =
      LastWriter.value (pinEffect path) s.latestFilePins[path]? events := by
  induction events using List.reverseRecOn generalizing s' with
  | nil =>
    cases h
    rfl
  | append_singleton events event ih =>
    obtain ⟨mid, hmid, hlast⟩ := Except.foldlM_append_eq_ok.mp h
    obtain ⟨t, ht, hnil⟩ := Except.foldlM_cons_eq_ok.mp hlast
    cases hnil
    obtain ⟨kind, hkind, hpins⟩ := apply_pins ht
    rw [LastWriter.value_concat, ← ih hmid]
    have hlatest := Pins.step_latest mid.pins hkind path
    rw [← hpins] at hlatest
    exact hlatest

end

theorem pinEffect_eq_some {path digest : String} :
    pinEffect path event = some (some digest) ↔ lastPin (pinnedBy event) path = some digest := by
  unfold pinEffect
  split_ifs with hremoved
  · -- A report of removed files pins none.
    have hkind : kindOf event = some .agentFileChanges := by
      by_contra hkind
      simp [removedBy, hkind] at hremoved
    simp [pinnedBy, isPinning, hkind, lastPin]
  · simp

theorem pinEffect_eq_none {path : String} :
    pinEffect path event = none ↔ lastPin (pinnedBy event) path = none ∧
      path ∉ removedBy event := by
  unfold pinEffect
  split_ifs with hremoved <;> simp [hremoved]

/-- The file pins of every accepted sequence of events. -/
theorem pins_follow_events (h : events.foldlM (RunState.apply api) {} = .ok s) :
    (∀ path digest, s.latestFilePins[path]? = some digest →
      Pins.HasHistory s.historicalFilePins path digest) ∧
    (∀ path, path ∈ s.removedFiles → (s.latestFilePins[path]? : Option String) = none) ∧
    (∀ before after p path digest, events = before ++ after →
      before.foldlM (RunState.apply api) {} = .ok p →
      Pins.HasHistory p.historicalFilePins path digest →
        Pins.HasHistory s.historicalFilePins path digest) ∧
    (∀ path digest, s.latestFilePins[path]? = some digest ↔
      ∃ before event after, events = before ++ event :: after ∧
        lastPin (pinnedBy event) path = some digest ∧
        ∀ later ∈ after, lastPin (pinnedBy later) path = none ∧ path ∉ removedBy later) ∧
    ∀ before event after p q, events = before ++ event :: after →
      before.foldlM (RunState.apply api) {} = .ok p → p.apply api event = .ok q →
      (∀ pin ∈ reportedBy event, Pins.HasHistory q.historicalFilePins pin.path pin.sha256) ∧
      (pinnedBy event = [] → removedBy event = [] → q.latestFilePins = p.latestFilePins) := by
  have hempty : ({} : RunState).pins.Valid := by
    constructor
    · intro path digest hlatest
      change ((∅ : BTreeMap String)[path]?) = some digest at hlatest
      simp at hlatest
    · intro path _
      change ((∅ : BTreeMap String)[path]?) = none
      simp
  have hvalid := foldlM_valid h hempty
  refine ⟨hvalid.recorded, hvalid.removed, ?_, ?_, ?_⟩
  · intro before after p path digest hsplit hp hhistory
    subst hsplit
    obtain ⟨p', hp', hafter⟩ := Except.foldlM_append_eq_ok.mp h
    rw [hp] at hp'
    cases hp'
    exact foldlM_history hafter hhistory
  · intro path digest
    have hstart : (({} : RunState).latestFilePins[path]? : Option String) = none := by
      change ((∅ : BTreeMap String)[path]?) = none
      simp
    rw [foldlM_latest h path, hstart, LastWriter.value_eq_some_iff]
    simp only [pinEffect_eq_some, pinEffect_eq_none]
  · intro before event after p q _ _ hq
    obtain ⟨kind, hkind, hpins⟩ := apply_pins hq
    constructor
    · intro pin hpin
      have hhistory := (Pins.step_history p.pins hkind pin.path pin.sha256).mpr (.inr hpin)
      rwa [← hpins] at hhistory
    · intro hpinned hremoved
      apply Std.ExtTreeMap.ext_getElem?
      intro path
      have hlatest := Pins.step_latest p.pins hkind path
      rw [← hpins, pinEffect_eq_none.mpr
        ⟨by simp [hpinned, lastPin], by simp [hremoved]⟩] at hlatest
      exact hlatest

end RunState

/-- A repaired step that reports the revision of its failed attempt as well. -/
def repairedEvents : List Value :=
  [journaled 1 .runQueued "run" [],
    journaled 2 .stepFinished "run" [("node", .str "a"), ("status", .str "repaired"),
      ("files", FilePin.listToValue [⟨"out.txt", "good"⟩]),
      ("failed_files", FilePin.listToValue [⟨"out.txt", "bad"⟩])]]

def repairedState : RunState :=
  (RunState.foldValues .plain repairedEvents).toOption.get (by decide +kernel)

theorem pins_follow_events_repaired :
    repairedState.latestFilePins["out.txt"]? = some "good" ∧
      Pins.HasHistory repairedState.historicalFilePins "out.txt" "good" := by
  have hfold : repairedEvents.foldlM (RunState.apply .plain) {} = .ok repairedState := by
    decide +kernel
  have hlatest : repairedState.latestFilePins["out.txt"]? = some "good" := by decide +kernel
  exact ⟨hlatest, (RunState.pins_follow_events hfold).1 "out.txt" "good" hlatest⟩

end Qcg
