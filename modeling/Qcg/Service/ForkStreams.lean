import Qcg.Service.Fork
import Qcg.State.Placement

/-!
# The streams of a fork

The records of the source keep their payloads and get new places: consecutive sequence numbers
in the order in which the source wrote both of its streams, and the identity of the fork.
-/

namespace Qcg

namespace Fork

open List
open Json (Value Members)
open RunEvent (Enveloped)

variable {stamps : Stamps} {targetId : String} {seq : Nat} {members : Members}

theorem get_restamp {key : String} (hkey : key ∉ placeKeys) :
    Members.get (restamp stamps targetId seq members) key = Members.get members key := by
  simp only [placeKeys, mem_cons, not_mem_nil, or_false, not_or] at hkey
  obtain ⟨hseq, hrun, htrace, hspan, hparent⟩ := hkey
  unfold restamp
  dsimp only
  split_ifs <;> simp [Members.get_insert, hseq, hrun, htrace, hspan, hparent]

theorem get_restamp_seq :
    Members.get (restamp stamps targetId seq members) "seq" = some (.num seq) := by
  unfold restamp
  dsimp only
  split_ifs <;> simp [Members.get_insert]

theorem get_restamp_runId :
    Members.get (restamp stamps targetId seq members) "run_id" = some (.str targetId) := by
  unfold restamp
  dsimp only
  split_ifs <;> simp [Members.get_insert]

theorem get_restamp_traceId :
    Members.get (restamp stamps targetId seq members) "trace_id" =
      some (.str (stamps.traceIdForRun targetId)) := by
  unfold restamp
  dsimp only
  split_ifs <;> simp [Members.get_insert]

theorem get_restamp_spanId :
    Members.get (restamp stamps targetId seq members) "span_id" =
      some (.str (stamps.spanIdForSeq seq)) := by
  unfold restamp
  dsimp only
  split_ifs <;> simp [Members.get_insert]

theorem filter_restamp :
    (restamp stamps targetId seq members).filter
        (fun member => !RunEvent.commonFields.contains member.1) =
      members.filter fun member => !RunEvent.commonFields.contains member.1 := by
  unfold restamp
  dsimp only
  split_ifs <;> simp (disch := simp [RunEvent.commonFields]) only [Members.filter_insert]

theorem getU64_restamp (hseq : seq < 2 ^ 64) :
    Value.getU64 (.obj (restamp stamps targetId seq members)) "seq" = some seq := by
  rw [Value.getU64, Value.get_obj, get_restamp_seq]
  exact Value.asU64_natCast hseq

theorem getStr_restamp_runId :
    Value.getStr (.obj (restamp stamps targetId seq members)) "run_id" = some targetId := by
  rw [Value.getStr, Value.get_obj, get_restamp_runId]
  rfl

theorem getStr_restamp {key : String} (hkey : key ∉ placeKeys) :
    Value.getStr (.obj (restamp stamps targetId seq members)) key =
      Value.getStr (.obj members) key := by
  rw [Value.getStr, Value.get_obj, get_restamp hkey, Value.getStr, Value.get_obj]

theorem enveloped_restamp (h : Enveloped (.obj members)) (hseq : seq < 2 ^ 64) :
    Enveloped (.obj (restamp stamps targetId seq members)) := by
  constructor
  · rw [getU64_restamp hseq]
    rfl
  · rw [getStr_restamp (by decide)]
    exact h.ts
  · rw [getStr_restamp (by decide)]
    exact h.kind
  · rw [getStr_restamp_runId]
    rfl
  · rw [Value.getStr, Value.get_obj, get_restamp_traceId]
    rfl
  · rw [Value.getStr, Value.get_obj, get_restamp_spanId]
    rfl

theorem samePayload_restamp (h : Enveloped (.obj members)) (hseq : seq < 2 ^ 64) :
    SamePayload (.obj members) (.obj (restamp stamps targetId seq members)) := by
  constructor
  · intro key hkey
    exact get_restamp hkey
  · obtain ⟨parsed, hparsed, hpath, hdata⟩ := RunEvent.envelope_of_enveloped h
    have hrestamped : Enveloped (.obj (restamp stamps targetId seq members)) :=
      enveloped_restamp h hseq
    obtain ⟨parsed', hparsed', hpath', hdata'⟩ := RunEvent.envelope_of_enveloped hrestamped
    refine ⟨parsed, parsed', hparsed, hparsed', ?_, ?_⟩
    · rw [hpath', hpath, getStr_restamp (by decide)]
    · rw [hdata', hdata, filter_restamp]

/-- A record and what the fork writes for it. -/
structure Rewritten (stamps : Stamps) (targetId : String) (entry written : Entry) : Prop where
  isAudit : written.isAudit = entry.isAudit
  event : ∃ members, entry.event = .obj members ∧
    written.event = .obj (restamp stamps targetId written.seq members)

/-- The history is written in its order under consecutive numbers. -/
theorem renumber_eq_ok {next : Nat} {entries written : List Entry}
    (h : renumber stamps targetId next entries = .ok written) :
    List.Forall₂ (Rewritten stamps targetId) entries written ∧
      written.map Entry.seq = List.range' (next + 1) entries.length := by
  induction entries generalizing next written with
  | nil =>
    cases h
    exact ⟨.nil, rfl⟩
  | cons entry entries ih =>
    unfold renumber at h
    split at h
    · next members hmembers =>
      obtain ⟨rest, hrest, h⟩ := Except.bind_eq_ok.mp h
      cases h
      obtain ⟨hrewritten, hseqs⟩ := ih hrest
      constructor
      · exact .cons ⟨rfl, members, hmembers, rfl⟩ hrewritten
      · rw [map_cons, hseqs, length_cons, List.range'_succ]
    · cases h

/-- Objects are never refused. -/
theorem renumber_ok {next : Nat} {entries : List Entry}
    (h : ∀ entry ∈ entries, ∃ members, entry.event = .obj members) :
    ∃ written, renumber stamps targetId next entries = .ok written := by
  induction entries generalizing next with
  | nil => exact ⟨[], rfl⟩
  | cons entry entries ih =>
    obtain ⟨members, hmembers⟩ := h entry (by simp)
    obtain ⟨rest, hrest⟩ : ∃ rest, renumber stamps targetId (next + 1) entries = .ok rest :=
      ih fun e he => h e (by simp [he])
    unfold renumber
    rw [hmembers]
    simp only [hrest]
    exact ⟨_, rfl⟩

theorem Rewritten.durable {entries written : List Entry}
    (h : List.Forall₂ (Rewritten stamps targetId) entries written) :
    List.Forall₂ (Rewritten stamps targetId) (entries.filter (!·.isAudit))
      (written.filter (!·.isAudit)) := by
  apply rel_filter _ h
  intro entry written hrewritten
  simp [hrewritten.isAudit]

instance : Std.Total Entry.le where
  total a b := by
    unfold Entry.le
    cases a.isAudit <;> cases b.isAudit <;> simp <;> omega

instance : IsTrans Entry Entry.le where
  trans a b c hab hbc := by
    rcases hab with hab | ⟨hab, hkind⟩ <;> rcases hbc with hbc | ⟨hbc, hkind'⟩
    · exact .inl (hab.trans hbc)
    · exact .inl (hbc ▸ hab)
    · exact .inl (hab ▸ hbc)
    · exact .inr ⟨hab.trans hbc, fun ha => hkind' (hkind ha)⟩

theorem history_durable {events audit : List Value} {atSeq : Nat}
    (h : (durableEntries events).Pairwise fun a b => a.seq < b.seq) :
    (history events audit atSeq).filter (!·.isAudit) = durableEntries events := by
  have hdurable : (durableEntries events).filter (!·.isAudit) = durableEntries events := by
    rw [filter_eq_self]
    intro entry hentry
    obtain ⟨event, -, rfl⟩ := mem_map.mp hentry
    rfl
  have haudit : (auditEntries audit atSeq).filter (!·.isAudit) = [] := by
    rw [filter_eq_nil_iff]
    intro entry hentry
    obtain ⟨event, -, hsome⟩ := mem_filterMap.mp hentry
    split at hsome
    · split_ifs at hsome
      cases hsome
      simp
    · cases hsome
  have hsorted : (durableEntries events).Pairwise Entry.le :=
    h.imp fun {a b} (hlt : a.seq < b.seq) => .inl hlt
  have hsub : List.Sublist (durableEntries events) (history events audit atSeq) :=
    sublist_insertionSort hsorted (sublist_append_left _ _)
  have hperm := (perm_insertionSort Entry.le
    (durableEntries events ++ auditEntries audit atSeq)).filter (!·.isAudit)
  rw [filter_append, hdurable, haudit, append_nil] at hperm
  have hfiltered := hsub.filter (!·.isAudit)
  rw [hdurable] at hfiltered
  exact (hfiltered.eq_of_length hperm.length_eq.symm).symm

end Fork

end Qcg
