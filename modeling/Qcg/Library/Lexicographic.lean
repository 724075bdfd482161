import Mathlib.Data.List.Sort

/-!
# Lexicographic comparison

Lists compared part by part with a given linear comparison. Between two lists that share a
beginning stand only lists that share it as well, so what neighbours in a sorted list agree on
along their common beginnings, all of its members agree on.
-/

namespace Lexicographic

open List

variable {α β γ : Type} {le : α → α → Bool}

/-- A comparison that is a linear order. -/
structure Linear (le : α → α → Bool) : Prop where
  total : ∀ a b, le a b = true ∨ le b a = true
  trans : ∀ a b c, le a b = true → le b c = true → le a c = true
  antisymm : ∀ a b, le a b = true → le b a = true → a = b

def lex (le : α → α → Bool) : List α → List α → Bool
  | [], _ => true
  | _ :: _, [] => false
  | x :: xs, y :: ys => le x y && (!le y x || lex le xs ys)

theorem lex_nil (xs : List α) : lex le [] xs = true := by
  cases xs <;> rfl

variable {xs ys : List α}

theorem lex_cons {x y : α} :
    lex le (x :: xs) (y :: ys) = true ↔ le x y = true ∧ (le y x = true → lex le xs ys = true) := by
  rw [lex, Bool.and_eq_true]
  cases le y x <;> simp

section

variable (h : Linear le)

include h

theorem Linear.lex_total (xs ys : List α) :
    lex le xs ys = true ∨ lex le ys xs = true := by
  induction xs generalizing ys with
  | nil => exact .inl (lex_nil ys)
  | cons x xs ih =>
    cases ys with
    | nil => exact .inr rfl
    | cons y ys =>
      rw [lex_cons, lex_cons]
      by_cases hxy : le x y = true
      · by_cases hyx : le y x = true
        · rcases ih ys with hle | hle
          · exact .inl ⟨hxy, fun _ => hle⟩
          · exact .inr ⟨hyx, fun _ => hle⟩
        · exact .inl ⟨hxy, fun h => absurd h hyx⟩
      · have hyx := (h.total x y).resolve_left hxy
        exact .inr ⟨hyx, fun h => absurd h hxy⟩

theorem Linear.lex_trans (xs ys zs : List α) (hxy : lex le xs ys = true)
    (hyz : lex le ys zs = true) : lex le xs zs = true := by
  induction xs generalizing ys zs with
  | nil => exact lex_nil zs
  | cons x xs ih =>
    cases ys with
    | nil => cases hxy
    | cons y ys =>
      cases zs with
      | nil => cases hyz
      | cons z zs =>
        rw [lex_cons] at hxy hyz ⊢
        refine ⟨h.trans x y z hxy.1 hyz.1, ?_⟩
        intro hzx
        have hyx := h.trans y z x hyz.1 hzx
        have hzy := h.trans z x y hzx hxy.1
        exact ih ys zs (hxy.2 hyx) (hyz.2 hzy)

theorem Linear.lex_antisymm (xs ys : List α) (hxy : lex le xs ys = true)
    (hyx : lex le ys xs = true) : xs = ys := by
  induction xs generalizing ys with
  | nil =>
    cases ys with
    | nil => rfl
    | cons y ys => cases hyx
  | cons x xs ih =>
    cases ys with
    | nil => cases hxy
    | cons y ys =>
      rw [lex_cons] at hxy hyx
      rw [h.antisymm x y hxy.1 hyx.1, ih ys (hxy.2 hyx.1) (hyx.2 hxy.1)]

theorem Linear.lex : Linear (lex le) :=
  ⟨h.lex_total, h.lex_trans, h.lex_antisymm⟩

theorem Linear.comap {f : β → α} (hf : Function.Injective f) :
    Linear fun a b => le (f a) (f b) where
  total a b := h.total (f a) (f b)
  trans a b c := h.trans (f a) (f b) (f c)
  antisymm a b hab hba := hf (h.antisymm (f a) (f b) hab hba)

/-- What stands between two lists with a common beginning begins in the same way. -/
theorem Linear.take_between {zs : List α} {n : Nat} (hxy : Lexicographic.lex le xs ys = true)
    (hyz : Lexicographic.lex le ys zs = true) (hx : n ≤ xs.length) (hz : n ≤ zs.length)
    (hsame : xs.take n = zs.take n) : n ≤ ys.length ∧ ys.take n = xs.take n := by
  induction n generalizing xs ys zs with
  | zero => simp
  | succ n ih =>
    cases xs with
    | nil => simp at hx
    | cons x xs =>
      cases zs with
      | nil => simp at hz
      | cons z zs =>
        cases ys with
        | nil => cases hxy
        | cons y ys =>
          rw [take_succ_cons, take_succ_cons, List.cons.injEq] at hsame
          obtain ⟨rfl, hsame⟩ := hsame
          rw [lex_cons] at hxy hyz
          obtain rfl := h.antisymm x y hxy.1 hyz.1
          rw [length_cons, Nat.succ_le_succ_iff] at hx hz
          obtain ⟨hlength, htake⟩ := ih (hxy.2 hyz.1) (hyz.2 hxy.1) hx hz hsame
          exact ⟨Nat.succ_le_succ hlength, by simp [htake]⟩

end

/-- Two members agree along the common beginning of their keys. -/
def Agree (key : β → List α) (value : β → List γ) (l r : β) : Prop :=
  ∀ n, n ≤ (key l).length → n ≤ (key r).length → (key l).take n = (key r).take n →
    (value l).take n = (value r).take n

theorem Agree.symm {key : β → List α} {value : β → List γ} {l r : β} (h : Agree key value l r) :
    Agree key value r l :=
  fun n hr hl hsame => (h n hl hr hsame.symm).symm

instance {key : β → List α} {value : β → List γ} : Std.Symm (Agree key value) :=
  ⟨fun _ _ => Agree.symm⟩

variable {l : List β}

/-- A relation of neighbours holds of all pairs when the order carries it over what lies between. -/
theorem pairwise_of_isChain {S R : β → β → Prop}
    (hover : ∀ a b c, S a b → S b c → R a b → R b c → R a c) (hsorted : l.Pairwise S)
    (hchain : l.IsChain R) : l.Pairwise R := by
  induction l with
  | nil => exact .nil
  | cons a l ih =>
    cases l with
    | nil => simp
    | cons b l =>
      rw [isChain_cons_cons] at hchain
      have hrest := ih hsorted.of_cons hchain.2
      refine pairwise_cons.mpr ⟨?_, hrest⟩
      intro c hc
      rcases mem_cons.mp hc with rfl | hc
      · exact hchain.1
      · have hab := (pairwise_cons.mp hsorted).1 b mem_cons_self
        have hbc := (pairwise_cons.mp hsorted.of_cons).1 c hc
        exact hover a b c hab hbc hchain.1 ((pairwise_cons.mp hrest).1 c hc)

theorem Linear.pairwise_agree (h : Linear le) {key : β → List α} {value : β → List γ}
    (hsorted : l.Pairwise fun a b => Lexicographic.lex le (key a) (key b) = true)
    (hchain : l.IsChain (Agree key value)) : l.Pairwise (Agree key value) := by
  refine pairwise_of_isChain ?_ hsorted hchain
  intro a b c hab hbc hfirst hsecond n ha hc hsame
  obtain ⟨hb, htake⟩ := h.take_between hab hbc ha hc hsame
  exact (hfirst n ha hb htake.symm).trans (hsecond n hb hc (htake.trans hsame))

/-- Neighbours of a sorted list that differ make all of its members differ. -/
theorem Linear.pairwise_ne (h : Linear le) {key : β → α}
    (hsorted : l.Pairwise fun a b => le (key a) (key b) = true)
    (hchain : l.IsChain fun a b => key a ≠ key b) : l.Pairwise fun a b => key a ≠ key b := by
  refine pairwise_of_isChain ?_ hsorted hchain
  intro a b c hab hbc hne _ hsame
  rw [← hsame] at hbc
  exact hne (h.antisymm _ _ hab hbc)

/-- The values along the first places where the keys agree. -/
theorem any_takeWhile_eq_false [DecidableEq α] [DecidableEq γ] {ks ks' : List α} {vs vs' : List γ}
    (hlength : ks.length = vs.length) (hlength' : ks'.length = vs'.length) :
    ((((ks.zip vs).zip (ks'.zip vs')).takeWhile fun pair => pair.1.1 = pair.2.1).any
      fun pair => pair.1.2 ≠ pair.2.2) = false ↔
    ∀ n, n ≤ ks.length → n ≤ ks'.length → ks.take n = ks'.take n → vs.take n = vs'.take n := by
  induction ks generalizing ks' vs vs' with
  | nil =>
    simp only [zip_nil_left, takeWhile_nil, any_nil, length_nil, true_iff]
    intro n hn _ _
    simp [Nat.le_zero.mp hn]
  | cons k ks ih =>
    obtain ⟨v, vs, rfl⟩ := exists_cons_of_length_eq_add_one hlength.symm
    cases ks' with
    | nil =>
      simp only [zip_nil_left, zip_nil_right, takeWhile_nil, any_nil, true_iff]
      intro n _ hn _
      simp [Nat.le_zero.mp hn]
    | cons k' ks' =>
      obtain ⟨v', vs', rfl⟩ := exists_cons_of_length_eq_add_one hlength'.symm
      rw [length_cons, length_cons, Nat.add_right_cancel_iff] at hlength hlength'
      have hrest := ih hlength hlength'
      rw [zip_cons_cons, zip_cons_cons, zip_cons_cons, takeWhile_cons]
      by_cases hk : k = k'
      · simp only [hk, decide_true, if_true, any_cons, Bool.or_eq_false_iff,
          decide_eq_false_iff_not, not_not, hrest]
        constructor
        · rintro ⟨rfl, hagree⟩ n hn hn' hsame
          cases n with
          | zero => rfl
          | succ n =>
            simp only [take_succ_cons, List.cons.injEq, true_and] at hsame ⊢
            simp only [length_cons, Nat.succ_le_succ_iff] at hn hn'
            exact hagree n hn hn' hsame
        · intro hagree
          have hfirst := hagree 1 (by simp) (by simp) (by simp)
          simp only [take_succ_cons, take_zero, List.cons.injEq, and_true] at hfirst
          refine ⟨hfirst, fun n hn hn' hsame => ?_⟩
          have hnext := hagree (n + 1) (by simpa using hn) (by simpa using hn')
            (by simpa using hsame)
          simpa [hfirst] using hnext
      · simp only [hk, decide_false, Bool.false_eq_true, if_false, any_nil, true_iff]
        intro n _ _ hsame
        cases n with
        | zero => rfl
        | succ n =>
          simp only [take_succ_cons, List.cons.injEq] at hsame
          exact absurd hsame.1 hk

/-- A test over neighbours fails everywhere when neighbours are related by its negation. -/
theorem any_zip_tail_eq_false {p : β → β → Bool} {l : List β} :
    ((l.zip l.tail).any fun pair => p pair.1 pair.2) = false ↔
      l.IsChain fun a b => p a b = false := by
  induction l with
  | nil => simp
  | cons a l ih =>
    cases l with
    | nil => simp
    | cons b l =>
      rw [isChain_cons_cons, ← ih]
      simp

end Lexicographic
