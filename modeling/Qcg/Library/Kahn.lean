import Mathlib.Data.List.Nodup
import Mathlib.Data.List.Perm.Subperm

/-!
# Topological sorting by indegree

Kahn's algorithm over a finite list of ids with a list of needs for each. A need may
be listed several times; it then counts several times. The result never repeats an
id and lists every need before the id that names it.
-/

namespace Kahn

open List hiding beq_eq_decide

variable {α : Type} [DecidableEq α]

structure State (α : Type) where
  indegree : α → Nat
  queue : List α
  order : List α

section Algorithm

variable (ids : List α) (needs : α → List α)

/-- The ids that name `id` as a need, once for every time they do. -/
def outgoing (id : α) : List α :=
  ids.flatMap fun n => ((needs n).filter (· = id)).map fun _ => n

/-- One need of `next` was placed; the last one makes `next` ready. -/
def relax (st : State α) (next : α) : State α :=
  let degree := st.indegree next - 1
  { st with
    indegree := Function.update st.indegree next degree
    queue := if degree = 0 then st.queue ++ [next] else st.queue }

def step (st : State α) : State α :=
  match st.queue with
  | [] => st
  | id :: rest =>
      (outgoing ids needs id).foldl relax { st with queue := rest, order := st.order ++ [id] }

def run : Nat → State α → State α
  | 0, st => st
  | fuel + 1, st =>
      match st.queue with
      | [] => st
      | _ :: _ => run fuel (step ids needs st)

def init : State α where
  indegree n := (needs n).length
  queue := ids.filter fun n => (needs n).length = 0
  order := []

/-- The sorted ids; ids on a cycle are left out. -/
def sort : List α :=
  (run ids needs ids.length (init ids needs)).order

end Algorithm

def Sorted (needs : α → List α) (order : List α) : Prop :=
  ∀ l₁ n l₂, order = l₁ ++ n :: l₂ → ∀ m ∈ needs n, m ∈ l₁

omit [DecidableEq α] in
theorem Sorted.nil (needs : α → List α) : Sorted needs [] := by
  intro l₁ n l₂ h
  simp at h

variable {order : List α}

omit [DecidableEq α] in
theorem Sorted.concat {needs : α → List α} {id : α} (h : Sorted needs order)
    (hid : ∀ m ∈ needs id, m ∈ order) : Sorted needs (order ++ [id]) := by
  intro l₁ n l₂ heq m hm
  rcases eq_nil_or_concat l₂ with rfl | ⟨l₂', b, rfl⟩
  · obtain ⟨rfl, hn⟩ := append_inj' heq rfl
    cases hn
    exact hid m hm
  · have heq' : order ++ [id] = (l₁ ++ n :: l₂') ++ [b] := by simpa using heq
    obtain ⟨horder, -⟩ := append_inj' heq' rfl
    exact h l₁ n l₂' horder m hm

/-- After relaxing a list, every indegree fell by the occurrences, and exactly the ids
whose last need was placed joined the queue. -/
theorem foldl_relax (l : List α) (st : State α) (hle : ∀ n, l.count n ≤ st.indegree n) :
    (l.foldl relax st).order = st.order ∧
      (∀ n, (l.foldl relax st).indegree n = st.indegree n - l.count n) ∧
      ∃ new, (l.foldl relax st).queue = st.queue ++ new ∧ new.Nodup ∧
        ∀ n, n ∈ new ↔ n ∈ l ∧ l.count n = st.indegree n := by
  induction l generalizing st with
  | nil => exact ⟨rfl, fun n => by simp, [], by simp⟩
  | cons x l ih =>
    have hx := hle x
    rw [count_cons_self] at hx
    have hindegree : ∀ n, (relax st x).indegree n =
        if n = x then st.indegree x - 1 else st.indegree n := by
      intro n
      simp [relax, Function.update_apply]
    have hle' : ∀ n, l.count n ≤ (relax st x).indegree n := by
      intro n
      rw [hindegree]
      split_ifs with hn
      · subst hn
        omega
      · have := hle n
        rw [count_cons_of_ne (Ne.symm hn)] at this
        exact this
    obtain ⟨horder, hdegree, new, hqueue, hnodup, hmem⟩ := ih (relax st x) hle'
    refine ⟨horder, ?_, ?_⟩
    · intro n
      rw [foldl_cons, hdegree, hindegree]
      split_ifs with hn
      · subst hn
        rw [count_cons_self]
        omega
      · rw [count_cons_of_ne (Ne.symm hn)]
    · by_cases hzero : st.indegree x - 1 = 0
      · have hcount : l.count x = 0 := by omega
        have hxl : x ∉ l := count_eq_zero.mp hcount
        refine ⟨x :: new, ?_, ?_, ?_⟩
        · rw [foldl_cons, hqueue]
          simp [relax, hzero]
        · exact nodup_cons.mpr ⟨fun h => hxl ((hmem x).mp h).1, hnodup⟩
        · intro n
          rw [mem_cons, hmem, hindegree]
          by_cases hn : n = x
          · subst hn
            simp only [true_or, mem_cons, count_cons_self, true_and, true_iff]
            omega
          · simp [hn, count_cons_of_ne (Ne.symm hn)]
      · refine ⟨new, ?_, hnodup, ?_⟩
        · rw [foldl_cons, hqueue]
          simp [relax, hzero]
        · intro n
          rw [hmem, hindegree]
          by_cases hn : n = x
          · subst hn
            simp only [if_true, mem_cons, true_or, true_and, count_cons_self]
            constructor
            · rintro ⟨-, h⟩
              omega
            · intro h
              exact ⟨count_pos_iff.mp (by omega), by omega⟩
          · simp [hn, count_cons_of_ne (Ne.symm hn)]

theorem count_outgoing {ids : List α} (hids : ids.Nodup) (needs : α → List α) (id n : α) :
    (outgoing ids needs id).count n = if n ∈ ids then (needs n).count id else 0 := by
  induction ids with
  | nil => simp [outgoing]
  | cons k ids ih =>
    obtain ⟨hk, hids⟩ := nodup_cons.mp hids
    have hcons : outgoing (k :: ids) needs id =
        ((needs k).filter (· = id)).map (fun _ => k) ++ outgoing ids needs id := rfl
    rw [hcons, count_append, ih hids]
    have hhead : (((needs k).filter (· = id)).map fun _ => k).count n =
        if n = k then (needs k).count id else 0 := by
      rw [map_const', count_replicate, count_eq_length_filter]
      by_cases hnk : n = k
      · subst hnk
        simp [beq_eq_decide]
      · simp [hnk, Ne.symm hnk]
    rw [hhead]
    by_cases hnk : n = k
    · subst hnk
      simp [hk]
    · simp [hnk]

/-- Indegrees count the needs that are still to be placed, and the queue holds
exactly the unplaced ids without one. -/
structure Invariant (ids : List α) (needs : α → List α) (st : State α) : Prop where
  degree : ∀ n ∈ ids, st.indegree n = (needs n).countP (· ∉ st.order)
  nodup : (st.order ++ st.queue).Nodup
  subset : ∀ n ∈ st.order ++ st.queue, n ∈ ids
  ready : ∀ n ∈ st.queue, ∀ m ∈ needs n, m ∈ st.order
  complete : ∀ n ∈ ids, (∀ m ∈ needs n, m ∈ st.order) → n ∈ st.order ++ st.queue
  sorted : Sorted needs st.order

variable {ids : List α} {needs : α → List α}

theorem invariant_init (hids : ids.Nodup) : Invariant ids needs (init ids needs) where
  degree n _ := by simp [init, countP_eq_length_filter]
  nodup := by simpa [init] using hids.filter _
  subset n hn := by
    simp only [init, nil_append, mem_filter] at hn
    exact hn.1
  ready n hn m hm := by
    simp only [init, mem_filter, length_eq_zero_iff, decide_eq_true_eq] at hn
    simp [hn.2] at hm
  complete n hn hneeds := by
    simp only [init, not_mem_nil, imp_false, nil_append, mem_filter] at hneeds ⊢
    exact ⟨hn, by simpa [eq_nil_iff_forall_not_mem] using hneeds⟩
  sorted := Sorted.nil needs

/-- Placing one more id removes its occurrences from the outstanding needs. -/
theorem countP_concat {id : α} (hid : id ∉ order) (l : List α) :
    l.countP (· ∉ order) = l.countP (· ∉ order ++ [id]) + l.count id := by
  induction l with
  | nil => simp
  | cons x l ih =>
    rw [countP_cons, countP_cons, count_cons, ih]
    by_cases hx : x = id
    · subst hx
      simp [hid]
      omega
    · by_cases hxo : x ∈ order
      · simp [hx, hxo]
      · simp [hx, hxo]
        omega

theorem countP_notMem_eq_zero_iff {l : List α} : l.countP (· ∉ order) = 0 ↔ ∀ m ∈ l, m ∈ order := by
  simp only [countP_eq_zero, decide_eq_true_eq, not_not]

variable {st : State α}

theorem step_spec {id : α} {rest : List α} (hids : ids.Nodup)
    (h : Invariant ids needs st) (hqueue : st.queue = id :: rest) (hid : id ∉ st.order) :
    (step ids needs st).order = st.order ++ [id] ∧
      (∀ n ∈ ids, (step ids needs st).indegree n = (needs n).countP (· ∉ st.order ++ [id])) ∧
      ∃ new, (step ids needs st).queue = rest ++ new ∧ new.Nodup ∧
        ∀ n, n ∈ new ↔ n ∈ ids ∧ id ∈ needs n ∧ ∀ m ∈ needs n, m ∈ st.order ++ [id] := by
  have hdegree : ∀ n ∈ ids, st.indegree n =
      (needs n).countP (· ∉ st.order ++ [id]) + (needs n).count id := by
    intro n hn
    rw [h.degree n hn, countP_concat hid]
  have hle : ∀ n, (outgoing ids needs id).count n ≤ st.indegree n := by
    intro n
    rw [count_outgoing hids]
    split_ifs with hn
    · rw [hdegree n hn]
      omega
    · exact Nat.zero_le _
  have hstep : step ids needs st = (outgoing ids needs id).foldl relax
      { st with queue := rest, order := st.order ++ [id] } := by
    rw [step, hqueue]
  obtain ⟨horder, hrelaxed, new, hnewQueue, hnewNodup, hnewMem⟩ :=
    foldl_relax (outgoing ids needs id) { st with queue := rest, order := st.order ++ [id] } hle
  rw [hstep]
  refine ⟨horder, ?_, new, hnewQueue, hnewNodup, ?_⟩
  · intro n hn
    rw [hrelaxed, count_outgoing hids, if_pos hn]
    simp only [hdegree n hn]
    omega
  · intro n
    rw [hnewMem, ← count_pos_iff, count_outgoing hids]
    split_ifs with hn
    · simp only [hdegree n hn, count_pos_iff, ← countP_notMem_eq_zero_iff]
      constructor
      · rintro ⟨hidn, hcount⟩
        exact ⟨hn, hidn, by omega⟩
      · rintro ⟨-, hidn, hzero⟩
        exact ⟨hidn, by omega⟩
    · simp [hn]

variable {n : α}

theorem Invariant.needs_mem (h : Invariant ids needs st) (hn : n ∈ st.order ++ st.queue) :
    ∀ m ∈ needs n, m ∈ st.order := by
  rcases mem_append.mp hn with hn | hn
  · obtain ⟨l₁, l₂, hsplit⟩ := append_of_mem hn
    intro m hm
    rw [hsplit]
    exact mem_append_left _ (h.sorted l₁ n l₂ hsplit m hm)
  · exact h.ready n hn

theorem invariant_step (hids : ids.Nodup) (h : Invariant ids needs st) :
    Invariant ids needs (step ids needs st) := by
  cases hqueue : st.queue with
  | nil =>
    rw [step, hqueue]
    exact h
  | cons id rest =>
    have hperm := h.nodup
    rw [hqueue] at hperm
    have hid : id ∉ st.order := fun hmem =>
      (nodup_append.mp hperm).2.2 id hmem id (by simp) rfl
    have hidNeeds := h.ready id (by simp [hqueue])
    obtain ⟨horder, hdegree, new, hnewQueue, hnewNodup, hnew⟩ := step_spec hids h hqueue hid
    have hsplit : ∀ n, n ∈ st.order ++ [id] ++ rest ↔ n ∈ st.order ++ st.queue := by
      intro n
      simp [hqueue]
    refine ⟨?_, ?_, ?_, ?_, ?_, ?_⟩
    · rw [horder]
      exact hdegree
    · rw [horder, hnewQueue, ← append_assoc]
      refine nodup_append.mpr ⟨by simpa using hperm, hnewNodup, ?_⟩
      rintro a ha b hb rfl
      obtain ⟨-, hida, -⟩ := (hnew a).mp hb
      exact hid (h.needs_mem ((hsplit a).mp ha) id hida)
    · rw [horder, hnewQueue, ← append_assoc]
      intro n hn
      rcases mem_append.mp hn with hn | hn
      · exact h.subset n ((hsplit n).mp hn)
      · exact ((hnew n).mp hn).1
    · rw [horder, hnewQueue]
      intro n hn m hm
      rcases mem_append.mp hn with hn | hn
      · exact mem_append_left _ (h.ready n (by simp [hqueue, hn]) m hm)
      · exact ((hnew n).mp hn).2.2 m hm
    · rw [horder, hnewQueue, ← append_assoc]
      intro n hn hneeds
      rw [mem_append, hsplit]
      by_cases hidn : id ∈ needs n
      · exact Or.inr ((hnew n).mpr ⟨hn, hidn, hneeds⟩)
      · refine Or.inl (h.complete n hn fun m hm => ?_)
        rcases mem_append.mp (hneeds m hm) with hm' | hm'
        · exact hm'
        · rw [mem_singleton.mp hm'] at hm
          exact absurd hm hidn
    · rw [horder]
      exact h.sorted.concat hidNeeds

theorem invariant_run (hids : ids.Nodup) (fuel : Nat)
    (h : Invariant ids needs st) : Invariant ids needs (run ids needs fuel st) := by
  induction fuel generalizing st with
  | zero => exact h
  | succ fuel ih =>
    unfold run
    cases hqueue : st.queue with
    | nil => exact h
    | cons id rest => exact ih (invariant_step hids h)

theorem sort_nodup (hids : ids.Nodup) : (sort ids needs).Nodup :=
  (nodup_append.mp (invariant_run hids ids.length (invariant_init hids)).nodup).1

theorem mem_of_mem_sort (hids : ids.Nodup) (hn : n ∈ sort ids needs) : n ∈ ids :=
  (invariant_run hids ids.length (invariant_init hids)).subset n (mem_append_left _ hn)

theorem sort_sorted (hids : ids.Nodup) : Sorted needs (sort ids needs) :=
  (invariant_run hids ids.length (invariant_init hids)).sorted

theorem sort_perm (hids : ids.Nodup) (hlength : (sort ids needs).length = ids.length) :
    (sort ids needs).Perm ids :=
  ((sort_nodup hids).subperm fun _ hn => mem_of_mem_sort hids hn).perm_of_length_le
    (Nat.le_of_eq hlength.symm)

end Kahn
