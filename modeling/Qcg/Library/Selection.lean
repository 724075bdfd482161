import Mathlib.Data.List.Sort
import Mathlib.Order.Defs.LinearOrder

/-!
# Sorting by a key and scanning for an extreme

A stable sort by a key in a linear order keeps each class of equal keys as it was; a scan that
keeps the first element no later one beats finds the element that the sort puts first.
-/

namespace Selection

open List

variable {α κ : Type*} [LinearOrder κ] (key : α → κ)

def sortBy (items : List α) : List α :=
  items.insertionSort fun a b => key a ≤ key b

theorem sortBy_perm (items : List α) : (sortBy key items).Perm items :=
  perm_insertionSort _ _

theorem sortBy_pairwise (items : List α) :
    (sortBy key items).Pairwise fun a b => key a ≤ key b := by
  have : Std.Total fun a b : α => key a ≤ key b := ⟨fun a b => le_total (key a) (key b)⟩
  have : IsTrans α fun a b => key a ≤ key b := ⟨fun _ _ _ => le_trans⟩
  exact pairwise_insertionSort _ _

/-- Elements with one key stay in their order. -/
theorem filter_sortBy {p : α → Bool} {k : κ} {items : List α}
    (hp : ∀ a ∈ items, p a = true ↔ key a = k) :
    (sortBy key items).filter p = items.filter p := by
  have hclass : (items.filter p).Pairwise fun a b => key a ≤ key b := by
    refine pairwise_of_forall_mem_list ?_
    intro a ha b hb
    obtain ⟨hamem, hpa⟩ := mem_filter.mp ha
    obtain ⟨hbmem, hpb⟩ := mem_filter.mp hb
    rw [(hp a hamem).mp hpa, (hp b hbmem).mp hpb]
  have hsub : (items.filter p).Sublist (sortBy key items) :=
    sublist_insertionSort hclass filter_sublist
  have hfilter := hsub.filter p
  rw [filter_filter] at hfilter
  simp only [Bool.and_self] at hfilter
  exact (hfilter.eq_of_length_le ((sortBy_perm key items).filter _).length_eq.le).symm

/-- `best` is the first of the elements that none of them is below. -/
def FirstLeast (best : α) (items : List α) : Prop :=
  ∃ before after, items = before ++ best :: after ∧
    (∀ b ∈ before, key best < key b) ∧ ∀ a ∈ after, key best ≤ key a

variable {key}
variable {items : List α} {best : α}

theorem FirstLeast.le (h : FirstLeast key best items) {a : α}
    (ha : a ∈ items) : key best ≤ key a := by
  obtain ⟨before, after, rfl, hbefore, hafter⟩ := h
  rcases mem_append.mp ha with ha | ha
  · exact (hbefore a ha).le
  · rcases mem_cons.mp ha with rfl | ha
    · exact le_rfl
    · exact hafter a ha

theorem FirstLeast.mem (h : FirstLeast key best items) :
    best ∈ items := by
  obtain ⟨before, after, rfl, -, -⟩ := h
  simp

theorem firstLeast_singleton (a : α) : FirstLeast key a [a] :=
  ⟨[], [], rfl, by simp, by simp⟩

theorem FirstLeast.concat (h : FirstLeast key best items) (a : α) :
    FirstLeast key (if key a < key best then a else best) (items ++ [a]) := by
  split_ifs with hbetter
  · refine ⟨items, [], rfl, ?_, by simp⟩
    intro b hb
    exact lt_of_lt_of_le hbetter (h.le hb)
  · obtain ⟨before, after, rfl, hbefore, hafter⟩ := h
    refine ⟨before, after ++ [a], by simp, hbefore, ?_⟩
    intro c hc
    rcases mem_append.mp hc with hc | hc
    · exact hafter c hc
    · rw [mem_singleton.mp hc]
      exact not_lt.mp hbetter

/-- What the scan finds is what the stable sort puts first. -/
theorem FirstLeast.head?_sortBy (h : FirstLeast key best items) :
    (sortBy key items).head? = some best := by
  have hperm := sortBy_perm key items
  have hbest : best ∈ sortBy key items := hperm.mem_iff.mpr h.mem
  cases hsorted : sortBy key items with
  | nil =>
    rw [hsorted] at hbest
    cases hbest
  | cons first rest =>
    have hfirst : key first = key best := by
      have hmem : first ∈ items := by
        rw [← hperm.mem_iff, hsorted]
        exact mem_cons_self
      refine le_antisymm ?_ (h.le hmem)
      have hpairwise := sortBy_pairwise key items
      rw [hsorted] at hpairwise hbest
      rcases mem_cons.mp hbest with rfl | hrest
      · exact le_rfl
      · exact (pairwise_cons.mp hpairwise).1 best hrest
    -- the class of the least key is led by the same element in both lists
    have hclass := @filter_sortBy _ _ _ key (fun a => decide (key a = key best)) (key best) items
      (by simp)
    obtain ⟨before, after, rfl, hbefore, -⟩ := h
    have hnone : before.filter (fun a => decide (key a = key best)) = [] := by
      rw [filter_eq_nil_iff]
      intro b hb
      simpa using (hbefore b hb).ne'
    rw [hsorted, filter_cons_of_pos (by simpa using hfirst), filter_append, hnone,
      nil_append, filter_cons_of_pos (by simp)] at hclass
    rw [List.head?_cons, (List.cons.inj hclass).1]

theorem le_of_getLast?_sortBy {last : α}
    (h : (sortBy key items).getLast? = some last) : ∀ a ∈ items, key a ≤ key last := by
  intro a ha
  have hmem : a ∈ sortBy key items := (sortBy_perm key items).mem_iff.mpr ha
  obtain ⟨init, hinit⟩ := List.getLast?_eq_some_iff.mp h
  have hpairwise := sortBy_pairwise key items
  rw [hinit] at hmem hpairwise
  rcases mem_append.mp hmem with hmem | hmem
  · exact (pairwise_append.mp hpairwise).2.2 a hmem last mem_cons_self
  · rw [mem_singleton.mp hmem]

end Selection
