import Mathlib.Algebra.Ring.Nat
import Mathlib.Data.List.Infix

/-!
# Publishing a stream behind a hold-back

A text arrives in pieces and is published as a growing prefix of it. The part that could still
begin a forbidden word is held back: all but the last `hold` units of what has arrived may be
published, where `hold` is one unit less than the longest word. Symbols weigh one or more units, so
that a cut in units may fall inside a symbol and is moved to a boundary.
-/

namespace Holdback

open List

variable {α : Type} (weight : α → Nat)

def size (text : List α) : Nat :=
  (text.map weight).sum

/-- Whether `n` units end between two symbols of the text. -/
def isBoundary : List α → Nat → Bool
  | _, 0 => true
  | [], _ + 1 => false
  | a :: text, n + 1 => weight a ≤ n + 1 && isBoundary text (n + 1 - weight a)

/-- The last boundary at or before `n` units. -/
def floorBoundary (text : List α) : Nat → Nat
  | 0 => 0
  | n + 1 => if isBoundary weight text (n + 1) then n + 1 else floorBoundary text n

/-- The first boundary from `size text - rest` units on, or the end. -/
def ceilBoundary (text : List α) : Nat → Nat
  | 0 => size weight text
  | rest + 1 =>
    if isBoundary weight text (size weight text - (rest + 1)) then size weight text - (rest + 1)
    else ceilBoundary text rest

/-- The text before and after `n` units. -/
def splitAt : List α → Nat → List α × List α
  | text, 0 => ([], text)
  | [], _ + 1 => ([], [])
  | a :: text, n + 1 =>
    let rest := splitAt text (n + 1 - weight a)
    (a :: rest.1, rest.2)

variable {weight}

theorem size_append (s t : List α) : size weight (s ++ t) = size weight s + size weight t := by
  rw [size, map_append, sum_append]
  rfl

theorem size_cons (a : α) (t : List α) : size weight (a :: t) = weight a + size weight t := by
  rw [size, map_cons, sum_cons]
  rfl

/-- Of two beginnings of a text the lighter one is the shorter one. -/
theorem prefix_of_size_le {s t text : List α} (hpos : ∀ a, 0 < weight a) (hs : s <+: text)
    (ht : t <+: text) (hsize : size weight s ≤ size weight t) : s <+: t := by
  rcases prefix_or_prefix_of_prefix hs ht with h | ⟨rest, rfl⟩
  · exact h
  · cases rest with
    | nil => rw [append_nil]
    | cons a rest =>
      have ha := hpos a
      rw [size_append, size_cons] at hsize
      omega

theorem splitAt_append (text : List α) (n : Nat) :
    (splitAt weight text n).1 ++ (splitAt weight text n).2 = text := by
  induction text generalizing n with
  | nil => cases n <;> rfl
  | cons a text ih =>
    cases n with
    | zero => rfl
    | succ n => exact congrArg (a :: ·) (ih (n + 1 - weight a))

variable {n : Nat}

theorem size_splitAt {text : List α} (h : isBoundary weight text n = true) :
    size weight (splitAt weight text n).1 = n := by
  induction text generalizing n with
  | nil =>
    cases n with
    | zero => rfl
    | succ n => cases h
  | cons a text ih =>
    cases n with
    | zero => rfl
    | succ n =>
      simp only [isBoundary, Bool.and_eq_true, decide_eq_true_eq] at h
      rw [splitAt, size_cons, ih h.2]
      exact Nat.add_sub_cancel' h.1

theorem isBoundary_floorBoundary (text : List α) (n : Nat) :
    isBoundary weight text (floorBoundary weight text n) = true := by
  induction n with
  | zero => cases text <;> rfl
  | succ n ih =>
    rw [floorBoundary]
    split
    · assumption
    · exact ih

theorem floorBoundary_le (text : List α) (n : Nat) : floorBoundary weight text n ≤ n := by
  induction n with
  | zero => exact Nat.le_refl 0
  | succ n ih =>
    rw [floorBoundary]
    split
    · exact Nat.le_refl _
    · exact Nat.le_succ_of_le ih

theorem le_floorBoundary {text : List α} {boundary : Nat}
    (h : isBoundary weight text boundary = true) (hle : boundary ≤ n) :
    boundary ≤ floorBoundary weight text n := by
  induction n with
  | zero => exact hle
  | succ n ih =>
    rw [floorBoundary]
    split
    · exact hle
    · next hnot =>
      apply ih
      have hne : boundary ≠ n + 1 := by
        rintro rfl
        exact hnot h
      omega

/-- Moving to a boundary passes less than one symbol. -/
theorem le_floorBoundary_add {slack : Nat} (hpos : ∀ a, 0 < weight a)
    (hslack : ∀ a, weight a ≤ slack + 1) {text : List α} (hn : n ≤ size weight text) :
    n ≤ floorBoundary weight text n + slack := by
  have hnear : ∃ boundary ≤ n, isBoundary weight text boundary = true ∧ n ≤ boundary + slack := by
    induction text generalizing n with
    | nil => exact ⟨0, Nat.zero_le n, rfl, Nat.le_add_right_of_le hn⟩
    | cons a text ih =>
      rw [size_cons] at hn
      by_cases hlt : n < weight a
      · have ha := hslack a
        exact ⟨0, Nat.zero_le n, rfl, by omega⟩
      · obtain ⟨boundary, hle, hboundary, hnear⟩ := @ih (n - weight a) (by omega)
        refine ⟨boundary + weight a, by omega, ?_, by omega⟩
        obtain ⟨m, hm⟩ := Nat.exists_eq_add_one.mpr (Nat.add_pos_right boundary (hpos a))
        rw [hm, isBoundary, ← hm, Nat.add_sub_cancel, hboundary, Bool.and_true]
        exact decide_eq_true (Nat.le_add_left _ _)
  obtain ⟨boundary, hle, hboundary, hnear⟩ := hnear
  exact hnear.trans (Nat.add_le_add_right (le_floorBoundary hboundary hle) slack)

/-- Cutting off the last `hold` units leaves them and less than a symbol more. -/
theorem splitAt_floorBoundary {slack : Nat} (hpos : ∀ a, 0 < weight a)
    (hslack : ∀ a, weight a ≤ slack + 1) {text : List α} {hold : Nat} {cut : List α × List α}
    (hcut : splitAt weight text (floorBoundary weight text (size weight text - hold)) = cut) :
    cut.1 ++ cut.2 = text ∧ size weight cut.1 ≤ size weight text - hold ∧
      size weight cut.2 ≤ hold + slack := by
  subst hcut
  have hle := @floorBoundary_le _ weight text (size weight text - hold)
  have hnear := le_floorBoundary_add hpos hslack (Nat.sub_le (size weight text) hold)
  have hsize := size_splitAt (@isBoundary_floorBoundary _ weight text (size weight text - hold))
  have htext := @splitAt_append _ weight text (floorBoundary weight text (size weight text - hold))
  have hwhole := congrArg (size weight) htext
  rw [size_append, hsize] at hwhole
  exact ⟨htext, by omega, by omega⟩

/-- What has been published and what is held back of a text without a forbidden word. -/
structure Held (weight : α → Nat) (words : List (List α)) (hold : Nat)
    (published pending : List α) : Prop where
  clear : ∀ word ∈ words, ¬ word <:+: published ++ pending
  behind : published = [] ∨ size weight published + hold ≤ size weight (published ++ pending)

variable {words : List (List α)} {hold : Nat} {published pending : List α}

theorem Held.nil (h : ∀ word ∈ words, word ≠ []) : Held weight words hold [] [] where
  clear word hword hwithin := h word hword (infix_nil.mp hwithin)
  behind := .inl rfl

section

variable (h : Held weight words hold published pending)

include h

variable {rest word : List α}

/-- However the text goes on, a forbidden word starts after what is published. -/
theorem Held.prefix_of_occurrence (hpos : ∀ a, 0 < weight a)
    (hlong : ∀ word ∈ words, size weight word ≤ hold + 1) {before after : List α}
    (hword : word ∈ words) (htext : published ++ pending ++ rest = before ++ word ++ after) :
    published <+: before := by
  have hpublished : published <+: before ++ word ++ after := by
    rw [← htext, append_assoc]
    exact prefix_append _ _
  have hbefore : before <+: before ++ word ++ after := by
    rw [append_assoc]
    exact prefix_append _ _
  rcases prefix_or_prefix_of_prefix hpublished hbefore with hle | ⟨gap, rfl⟩
  · exact hle
  · cases gap with
    | nil => rw [append_nil]
    | cons a gap =>
      -- otherwise the word has arrived as a whole
      exfalso
      have hsize : size weight (before ++ word) ≤ size weight (before ++ a :: gap ++ pending) := by
        have hbehind := h.behind.resolve_left (by simp)
        have hshort := hlong word hword
        have ha := hpos a
        simp only [size_append, size_cons] at hbehind ⊢
        omega
      have harrived : before ++ word <+: before ++ a :: gap ++ pending :=
        prefix_of_size_le hpos (prefix_append _ after)
          (htext ▸ prefix_append _ rest) hsize
      apply h.clear word hword
      exact (suffix_append before word).isInfix.trans harrived.isInfix

/-- It is enough to look for words in what is held back and what follows, together with any end of
what is published. -/
theorem Held.infix_iff (hpos : ∀ a, 0 < weight a)
    (hlong : ∀ word ∈ words, size weight word ≤ hold + 1) {tail : List α}
    (htail : tail <:+ published) (hword : word ∈ words) (piece : List α) :
    word <:+: tail ++ (pending ++ piece) ↔ word <:+: published ++ (pending ++ piece) := by
  constructor
  · intro hwithin
    obtain ⟨front, rfl⟩ := htail
    rw [append_assoc]
    exact hwithin.trans (suffix_append front _).isInfix
  · rintro ⟨before, after, htext⟩
    rw [← append_assoc] at htext
    obtain ⟨gap, rfl⟩ := h.prefix_of_occurrence hpos hlong hword htext.symm
    have hrest : gap ++ word ++ after = pending ++ piece := by
      apply append_cancel_left
      rw [← append_assoc published pending, ← htext]
      simp only [append_assoc]
    exact ⟨tail ++ gap, after, by rw [append_assoc tail, append_assoc tail, hrest]⟩

theorem Held.arrive {piece : List α}
    (hclear : ∀ word ∈ words, ¬ word <:+: published ++ (pending ++ piece)) :
    Held weight words hold published (pending ++ piece) where
  clear := hclear
  behind := by
    rcases h.behind with hnil | hbehind
    · exact .inl hnil
    · rw [← append_assoc, size_append]
      exact .inr (Nat.le_add_right_of_le hbehind)

/-- The text before the last `hold` units may be published. -/
theorem Held.publish {out : List α} (hpending : out ++ rest = pending)
    (hout : size weight out ≤ size weight pending - hold) (hpos : ∀ a, 0 < weight a) :
    Held weight words hold (published ++ out) rest where
  clear := by
    rw [append_assoc, hpending]
    exact h.clear
  behind := by
    rw [append_assoc, hpending]
    cases out with
    | nil =>
      rw [append_nil]
      exact h.behind
    | cons a out =>
      right
      have ha := hpos a
      rw [size_cons] at hout
      rw [size_append, size_append, size_cons]
      omega

end

end Holdback
