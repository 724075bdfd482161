import Mathlib.Data.List.Induction

/-!
# Last-writer registers

A register that some events write and others leave alone holds what the last writing
event put there.
-/

namespace LastWriter

variable {ε β : Type}

/-- The content of a register after some events; an event without effect leaves it alone. -/
def value (effect : ε → Option β) (start : β) (events : List ε) : β :=
  events.foldl (fun content event => (effect event).getD content) start

theorem value_concat (effect : ε → Option β) (start : β) (events : List ε) (event : ε) :
    value effect start (events ++ [event]) =
      (effect event).getD (value effect start events) := by
  simp [value]

theorem value_append (effect : ε → Option β) (start : β) (before after : List ε) :
    value effect start (before ++ after) = value effect (value effect start before) after := by
  simp [value]

variable {effect : ε → Option β} {events : List ε}

theorem value_of_untouched
    (h : ∀ event ∈ events, effect event = none) (start : β) :
    value effect start events = start := by
  induction events using List.reverseRecOn with
  | nil => rfl
  | append_singleton events event ih =>
    rw [value_concat, h event (by simp), ih fun e he => h e (by simp [he])]
    rfl

theorem untouched_or_last (effect : ε → Option β) (events : List ε) :
    (∀ event ∈ events, effect event = none) ∨
      ∃ before event after content, events = before ++ event :: after ∧
        effect event = some content ∧ ∀ later ∈ after, effect later = none := by
  induction events using List.reverseRecOn with
  | nil => exact .inl (by simp)
  | append_singleton events event ih =>
    cases hevent : effect event with
    | some content => exact .inr ⟨events, event, [], content, rfl, hevent, by simp⟩
    | none =>
      rcases ih with hnone | ⟨before, written, after, content, rfl, hwritten, hlater⟩
      · left
        intro e he
        rw [List.mem_append, List.mem_singleton] at he
        rcases he with he | rfl
        · exact hnone e he
        · exact hevent
      · refine .inr ⟨before, written, after ++ [event], content, by simp, hwritten, ?_⟩
        intro later hmem
        rw [List.mem_append, List.mem_singleton] at hmem
        rcases hmem with hmem | rfl
        · exact hlater later hmem
        · exact hevent

variable {content : β}

theorem value_of_last {before after : List ε} {event : ε} (hevent : effect event = some content)
    (hlater : ∀ later ∈ after, effect later = none) (start : β) :
    value effect start (before ++ event :: after) = content := by
  have hsplit : before ++ event :: after = (before ++ [event]) ++ after := by simp
  rw [hsplit, value_append, value_of_untouched hlater, value_concat, hevent]
  rfl

/-- A register that starts empty holds a content exactly if the last event to touch it wrote
that content. -/
theorem value_eq_some_iff {effect : ε → Option (Option β)} :
    value effect none events = some content ↔
      ∃ before event after, events = before ++ event :: after ∧
        effect event = some (some content) ∧ ∀ later ∈ after, effect later = none := by
  constructor
  · intro h
    rcases untouched_or_last effect events with hnone | ⟨before, event, after, found, rfl, hfound,
      hlater⟩
    · rw [value_of_untouched hnone] at h
      cases h
    · rw [value_of_last hfound hlater] at h
      exact ⟨before, event, after, rfl, by rw [hfound, h], hlater⟩
  · rintro ⟨before, event, after, rfl, hevent, hlater⟩
    exact value_of_last hevent hlater none

theorem value_congr {δ : Type} {effect' : δ → Option β}
    {events' : List δ} (h : List.Forall₂ (fun e e' => effect e = effect' e') events events')
    (start : β) : value effect start events = value effect' start events' := by
  induction h generalizing start with
  | nil => rfl
  | @cons e e' events events' he _ ih =>
    show value effect ((effect e).getD start) events = value effect'
      ((effect' e').getD start) events'
    rw [he, ih]

/-- A second writer that goes before the first one is not noticed exactly if what it wrote last,
where nothing is written behind it, is what the register held there anyway. -/
theorem value_override_eq_iff (effect extra : ε → Option β) (start : β) (events : List ε) :
    value (fun event => (extra event).or (effect event)) start events = value effect start events ↔
      ∀ before event after content, events = before ++ event :: after →
        extra event = some content →
        (∀ later ∈ after, extra later = none ∧ effect later = none) →
        value effect start (before ++ [event]) = content := by
  have hquiet {after : List ε} (h : ∀ later ∈ after, extra later = none ∧ effect later = none) :
      ∀ later ∈ after, (extra later).or (effect later) = none := by
    intro later hlater
    simp [h later hlater]
  have hcut (before : List ε) (event : ε) {after : List ε}
      (h : ∀ later ∈ after, extra later = none ∧ effect later = none) :
      value effect start (before ++ event :: after) = value effect start (before ++ [event]) := by
    have hsplit : before ++ event :: after = (before ++ [event]) ++ after := by simp
    rw [hsplit, value_append, value_of_untouched fun later hlater => (h later hlater).2]
  constructor
  · rintro h before event after content rfl hextra hlater
    have hwritten : value (fun event => (extra event).or (effect event)) start
        (before ++ event :: after) = content :=
      value_of_last (by simp [hextra]) (hquiet hlater) start
    rw [← hcut before event hlater, ← h, hwritten]
  · intro h
    rcases untouched_or_last (fun event => (extra event).or (effect event)) events with
      hnone | ⟨before, event, after, content, rfl, hevent, hlater⟩
    · rw [value_of_untouched hnone, value_of_untouched]
      intro event hevent
      exact (Option.or_eq_none_iff.mp (hnone event hevent)).2
    · have hlater' : ∀ later ∈ after, extra later = none ∧ effect later = none :=
        fun later hmem => Option.or_eq_none_iff.mp (hlater later hmem)
      have hwritten : value (fun event => (extra event).or (effect event)) start
          (before ++ event :: after) = content := by
        apply value_of_last
        · exact hevent
        · exact hlater
      rw [hwritten]
      cases hextra : extra event with
      | some c =>
        rw [hextra, Option.some_or, Option.some.injEq] at hevent
        rw [hcut before event hlater', h before event after c rfl hextra hlater', hevent]
      | none =>
        rw [hextra, Option.none_or] at hevent
        rw [value_of_last hevent fun later hmem => (hlater' later hmem).2]

end LastWriter
