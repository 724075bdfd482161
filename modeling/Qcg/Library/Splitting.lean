import Mathlib.Data.List.Infix

/-!
# Splitting texts

White space, the first and the last split of a list at a letter, the first occurrence of a text,
what is in the pieces of a list that is split at every separator, and a function applied to each
piece with the separators kept.
-/

namespace Splitting

open List

/-- Rust's `char::is_whitespace`: white space by the Unicode property. -/
def isWhitespace (c : Char) : Bool :=
  let n := c.toNat
  (9 ≤ n && n ≤ 13) || n = 32 || n = 0x85 || n = 0xA0 || n = 0x1680 ||
    (0x2000 ≤ n && n ≤ 0x200A) || n = 0x2028 || n = 0x2029 || n = 0x202F || n = 0x205F || n = 0x3000

theorem isWhitespace_of_alphanum {c : Char} (h : c.isAlphanum = true) : isWhitespace c = false := by
  have hrange : (48 ≤ c.toNat ∧ c.toNat ≤ 57) ∨ (65 ≤ c.toNat ∧ c.toNat ≤ 90) ∨
      (97 ≤ c.toNat ∧ c.toNat ≤ 122) := by
    unfold Char.isAlphanum Char.isAlpha Char.isUpper Char.isLower Char.isDigit at h
    simp only [Bool.or_eq_true, decide_eq_true_eq, Bool.and_eq_true, ge_iff_le,
      UInt32.le_iff_toNat_le] at h
    have hbounds : 'A'.val.toNat = 65 ∧ 'Z'.val.toNat = 90 ∧ 'a'.val.toNat = 97 ∧
        'z'.val.toNat = 122 ∧ '0'.val.toNat = 48 ∧ '9'.val.toNat = 57 := by decide
    simp only [Char.toNat]
    omega
  simp only [isWhitespace, Bool.or_eq_false_iff, Bool.and_eq_false_iff, decide_eq_false_iff_not]
  omega

variable {α : Type}

/-- Rust's `split_once`: what stands before and after the first occurrence of a letter. -/
def splitOnce [DecidableEq α] (c : α) : List α → Option (List α × List α)
  | [] => none
  | d :: l => if d = c then some ([], l) else (splitOnce c l).map fun pair => (d :: pair.1, pair.2)

section

variable [DecidableEq α] {c : α} {l : List α}

theorem splitOnce_eq_none : splitOnce c l = none ↔ c ∉ l := by
  induction l with
  | nil => simp [splitOnce]
  | cons d l ih =>
    rw [splitOnce]
    split_ifs with h
    · simp [h]
    · simp [ih, Ne.symm h]

theorem splitOnce_eq_some {a b : List α} :
    splitOnce c l = some (a, b) ↔ l = a ++ c :: b ∧ c ∉ a := by
  induction l generalizing a with
  | nil => simp [splitOnce]
  | cons d l ih =>
    rw [splitOnce]
    split_ifs with h
    · subst h
      constructor
      · intro heq
        cases heq
        simp
      · rintro ⟨heq, hfree⟩
        cases a with
        | nil => simpa using heq
        | cons e a =>
          rw [cons_append, List.cons.injEq] at heq
          simp [heq.1] at hfree
    · rw [Option.map_eq_some_iff]
      constructor
      · rintro ⟨⟨a', b'⟩, hsplit, hpair⟩
        cases hpair
        obtain ⟨rfl, hfree⟩ := ih.mp hsplit
        exact ⟨rfl, by simpa [Ne.symm h] using hfree⟩
      · rintro ⟨heq, hfree⟩
        cases a with
        | nil =>
          rw [nil_append, List.cons.injEq] at heq
          exact absurd heq.1 h
        | cons e a =>
          rw [cons_append, List.cons.injEq] at heq
          obtain ⟨rfl, rfl⟩ := heq
          exact ⟨(a, b), ih.mpr ⟨rfl, fun hmem => hfree (mem_cons_of_mem _ hmem)⟩, rfl⟩

theorem splitOnce_append {a b : List α} (h : c ∉ a) : splitOnce c (a ++ c :: b) = some (a, b) :=
  splitOnce_eq_some.mpr ⟨rfl, h⟩

/-- Rust's `rsplit_once`: what stands before and after the last occurrence of a letter. -/
def splitLast (c : α) (l : List α) : Option (List α × List α) :=
  (splitOnce c l.reverse).map fun pair => (pair.2.reverse, pair.1.reverse)

theorem splitLast_eq_none (h : c ∉ l) : splitLast c l = none := by
  rw [splitLast, splitOnce_eq_none.mpr (by simpa using h), Option.map_none]

theorem splitLast_append {a b : List α} (h : c ∉ b) : splitLast c (a ++ c :: b) = some (a, b) := by
  have hsplit : splitOnce c (b.reverse ++ c :: a.reverse) = some (b.reverse, a.reverse) :=
    splitOnce_append (by simpa using h)
  rw [splitLast, reverse_append, reverse_cons, append_assoc, singleton_append,
    hsplit]
  simp

/-- What stands before and after the first occurrence of a text. -/
def findText (needle : List α) : List α → Option (List α × List α)
  | [] => if needle.isPrefixOf [] then some ([], []) else none
  | c :: l =>
    if needle.isPrefixOf (c :: l) then some ([], (c :: l).drop needle.length)
    else (findText needle l).map fun pair => (c :: pair.1, pair.2)

end

section

variable {p : α → Bool} {x : α} {a b : List α}

theorem takeWhile_append_stop (h : p x = false) :
    (a ++ x :: b).takeWhile p = a.takeWhile p := by
  induction a with
  | nil => simp [h]
  | cons c a ih => rw [cons_append, takeWhile_cons, takeWhile_cons, ih]

theorem dropWhile_append_stop (h : p x = false) :
    (a ++ x :: b).dropWhile p = a.dropWhile p ++ x :: b := by
  induction a with
  | nil => simp [h]
  | cons c a ih =>
    rw [cons_append, dropWhile_cons, dropWhile_cons, ih]
    split_ifs <;> rfl

end

section

variable (p : α → Bool)

/-- Rust's `split_inclusive`: each piece but the last ends in its separator. -/
def splitInclusive : List α → List (List α)
  | [] => []
  | c :: l =>
    if p c then [c] :: splitInclusive l
    else
      match splitInclusive l with
      | [] => [[c]]
      | piece :: pieces => (c :: piece) :: pieces

def splitSeparator (piece : List α) : List α × List α :=
  match piece.getLast? with
  | some c => if p c then (piece.dropLast, [c]) else (piece, [])
  | none => (piece, [])

/-- A function applied to every piece, the separators kept. -/
def mapPieces (f : List α → List α) (l : List α) : List α :=
  (splitInclusive p l).flatMap fun piece =>
    f (splitSeparator p piece).1 ++ (splitSeparator p piece).2

variable {p} {s : α} {a b : List α}

theorem splitInclusive_append (hfree : ∀ c ∈ a, p c = false) (hs : p s = true) :
    splitInclusive p (a ++ s :: b) = (a ++ [s]) :: splitInclusive p b := by
  induction a with
  | nil => simp [splitInclusive, hs]
  | cons d a ih =>
    rw [cons_append, splitInclusive, ih fun c hc => hfree c (mem_cons_of_mem _ hc)]
    simp [hfree d mem_cons_self]

theorem splitInclusive_free {d : α} (hfree : ∀ c ∈ d :: a, p c = false) :
    splitInclusive p (d :: a) = [d :: a] := by
  induction a generalizing d with
  | nil => simp [splitInclusive, hfree d mem_cons_self]
  | cons e a ih =>
    rw [splitInclusive, ih fun c hc => hfree c (mem_cons_of_mem _ hc)]
    simp [hfree d mem_cons_self]

theorem splitSeparator_free (hfree : ∀ c ∈ a, p c = false) : splitSeparator p a = (a, []) := by
  rw [splitSeparator]
  cases hlast : a.getLast? with
  | none => rfl
  | some c => simp [hfree c (List.mem_of_getLast? hlast)]

variable {f : List α → List α}

theorem mapPieces_append (hfree : ∀ c ∈ a, p c = false) (hs : p s = true) :
    mapPieces p f (a ++ s :: b) = f a ++ s :: mapPieces p f b := by
  simp [mapPieces, splitInclusive_append hfree hs, splitSeparator, hs]

theorem mapPieces_free (hnil : f [] = []) (hfree : ∀ c ∈ a, p c = false) :
    mapPieces p f a = f a := by
  cases a with
  | nil => simp [mapPieces, splitInclusive, hnil]
  | cons d a => simp [mapPieces, splitInclusive_free hfree, splitSeparator_free hfree]

end

theorem splitOnP_ne_nil (p : α → Bool) (l : List α) : l.splitOnP p ≠ [] := by
  cases l with
  | nil => simp
  | cons d l =>
    rw [splitOnP_cons_eq_if_modifyHead]
    split_ifs <;> simp

theorem mem_of_mem_splitOnP {p : α → Bool} {l piece : List α} {c : α}
    (hpiece : piece ∈ l.splitOnP p) (hc : c ∈ piece) : c ∈ l ∧ p c = false := by
  induction l generalizing piece with
  | nil => simp_all
  | cons d l ih =>
    rw [splitOnP_cons_eq_if_modifyHead] at hpiece
    split_ifs at hpiece with hd
    · rcases mem_cons.mp hpiece with rfl | hpiece
      · cases hc
      · have h := ih hpiece hc
        exact ⟨mem_cons_of_mem _ h.1, h.2⟩
    · cases hsplit : l.splitOnP p with
      | nil => simp [hsplit] at hpiece
      | cons first rest =>
        rw [hsplit, modifyHead_cons, mem_cons] at hpiece
        rcases hpiece with rfl | hpiece
        · rcases mem_cons.mp hc with rfl | hc
          · exact ⟨mem_cons_self, by simpa using hd⟩
          · have h := ih (by simp [hsplit]) hc
            exact ⟨mem_cons_of_mem _ h.1, h.2⟩
        · have h := ih (by simp [hsplit, hpiece]) hc
          exact ⟨mem_cons_of_mem _ h.1, h.2⟩

theorem mem_of_mem_intercalate {x c : α} {ls : List (List α)} (h : c ∈ [x].intercalate ls) :
    c = x ∨ ∃ l ∈ ls, c ∈ l := by
  rw [List.intercalate, mem_flatten] at h
  obtain ⟨l, hl, hc⟩ := h
  have hmem : l = [x] ∨ l ∈ ls := by
    induction ls with
    | nil => simp at hl
    | cons first ls ih =>
      cases ls with
      | nil => exact .inr (by simpa using hl)
      | cons second ls =>
        rw [intersperse_cons_cons, mem_cons, mem_cons] at hl
        rcases hl with rfl | rfl | hl
        · exact .inr mem_cons_self
        · exact .inl rfl
        · rcases ih hl with hx | hl
          · exact .inl hx
          · exact .inr (mem_cons_of_mem _ hl)
  rcases hmem with rfl | hmem
  · exact .inl (by simpa using hc)
  · exact .inr ⟨l, hmem, hc⟩

end Splitting
