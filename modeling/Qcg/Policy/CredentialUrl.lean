import Qcg.Policy.Credential
import Mathlib.Data.List.TakeWhile

/-!
# What redaction shows of a URL

A URL is put together from its parts, each free of the letters that end it, and its redaction is
computed part by part. The userinfo is recognised only behind a scheme: in a URL that starts with
`//` or with a path the same letters stay in the text.
-/

namespace Qcg

open List

namespace Policy

open Splitting

section Matrix

variable {a b rest : List Char}

theorem redactMatrixFrom_congr {fuel fuel' : Nat} (h : rest.length ≤ fuel)
    (h' : rest.length ≤ fuel') : redactMatrixFrom fuel rest = redactMatrixFrom fuel' rest := by
  induction fuel generalizing rest fuel' with
  | zero =>
    obtain rfl : rest = [] := length_eq_zero_iff.mp (Nat.le_zero.mp h)
    cases fuel' <;> rfl
  | succ fuel ih =>
    cases fuel' with
    | zero =>
      obtain rfl : rest = [] := length_eq_zero_iff.mp (Nat.le_zero.mp h')
      rfl
    | succ fuel' =>
      rw [redactMatrixFrom, redactMatrixFrom]
      cases hsplit : splitOnce ';' rest with
      | none => rfl
      | some pair =>
        obtain ⟨before, after⟩ := pair
        obtain ⟨rfl, -⟩ := splitOnce_eq_some.mp hsplit
        have hdrop := (dropWhile_sublist (l := after) fun c => !isSegmentEnd c).length_le
        rw [length_append, length_cons] at h h'
        exact congrArg _ (congrArg _ (congrArg _ (ih (by omega) (by omega))))

theorem redactMatrixParams_free (h : ';' ∉ a) : redactMatrixParams a = a := by
  rw [redactMatrixParams]
  cases a with
  | nil => rfl
  | cons c a => rw [length_cons, redactMatrixFrom, splitOnce_eq_none.mpr h]

theorem redactMatrixParams_semicolon (h : ';' ∉ a) :
    redactMatrixParams (a ++ ';' :: b) =
      a ++ ';' :: (redactValue (b.takeWhile fun c => !isSegmentEnd c) ++
        redactMatrixParams (b.dropWhile fun c => !isSegmentEnd c)) := by
  have hlength : (a ++ ';' :: b).length = (a ++ b).length + 1 := by simp; omega
  have hdrop := (dropWhile_sublist (l := b) fun c => !isSegmentEnd c).length_le
  have hfuel : (b.dropWhile fun c => !isSegmentEnd c).length ≤ (a ++ b).length := by
    rw [length_append]
    omega
  rw [redactMatrixParams, hlength, redactMatrixFrom, splitOnce_append h, redactMatrixParams,
    redactMatrixFrom_congr le_rfl hfuel]

theorem redactMatrixParams_append (h : ';' ∉ a) :
    redactMatrixParams (a ++ b) = a ++ redactMatrixParams b := by
  cases hsplit : splitOnce ';' b with
  | none =>
    have hfree := splitOnce_eq_none.mp hsplit
    rw [redactMatrixParams_free hfree, redactMatrixParams_free (by simp [h, hfree])]
  | some pair =>
    obtain ⟨before, after⟩ := pair
    obtain ⟨rfl, hfree⟩ := splitOnce_eq_some.mp hsplit
    rw [← append_assoc, redactMatrixParams_semicolon (by simp [h, hfree]),
      redactMatrixParams_semicolon hfree, append_assoc]

theorem redactMatrixParams_slash (a b : List Char) :
    redactMatrixParams (a ++ '/' :: b) =
      redactMatrixParams a ++ '/' :: redactMatrixParams b := by
  induction hn : a.length using Nat.strong_induction_on generalizing a with
  | _ n ih =>
    cases hsplit : splitOnce ';' a with
    | none =>
      have hfree := splitOnce_eq_none.mp hsplit
      have hslash : ';' ∉ a ++ ['/'] := by simp [hfree]
      rw [redactMatrixParams_free hfree, append_cons, redactMatrixParams_append hslash,
        ← append_cons]
    | some pair =>
      obtain ⟨before, after⟩ := pair
      obtain ⟨rfl, hfree⟩ := splitOnce_eq_some.mp hsplit
      have hdrop := (dropWhile_sublist (l := after) fun c => !isSegmentEnd c).length_le
      rw [length_append, length_cons] at hn
      rw [append_assoc, cons_append, redactMatrixParams_semicolon hfree,
        redactMatrixParams_semicolon hfree, takeWhile_append_stop (by rfl),
        dropWhile_append_stop (by rfl), ih _ (by omega) _ rfl]
      simp

end Matrix

theorem redactValue_append {a b : List Char} (h : '=' ∉ a) :
    redactValue (a ++ b) = a ++ redactValue b := by
  rw [redactValue, redactValue]
  cases hsplit : splitOnce '=' b with
  | none =>
    have hfree := splitOnce_eq_none.mp hsplit
    rw [splitOnce_eq_none.mpr (by simp [h, hfree])]
  | some pair =>
    obtain ⟨key, value⟩ := pair
    obtain ⟨rfl, hfree⟩ := splitOnce_eq_some.mp hsplit
    rw [← append_assoc, splitOnce_append (by simp [h, hfree])]
    exact append_assoc ..

def FreeOf (delimiters part : List Char) : Prop :=
  ∀ c ∈ part, c ∉ delimiters

instance (delimiters part : List Char) : Decidable (FreeOf delimiters part) :=
  List.decidableBAll (fun c => c ∉ delimiters) part

theorem FreeOf.mono {delimiters fewer part : List Char} (h : FreeOf delimiters part)
    (hsub : fewer ⊆ delimiters) : FreeOf fewer part :=
  fun c hc hd => h c hc (hsub hd)

section Pieces

/-- Pieces of a text with a `/` between each two. -/
def joined : List (List Char) → List Char
  | [] => []
  | piece :: more => piece ++ more.flatMap ('/' :: ·)

def behindAt (piece : List Char) : List Char :=
  match splitLast '@' piece with
  | some (_, host) => host
  | none => piece

def exposeBehind : List (List Char) → Option (List (List Char))
  | a :: b :: c :: rest =>
    if a.getLast? = some ':' ∧ b = [] then some (a :: b :: behindAt c :: rest)
    else (exposeBehind (b :: c :: rest)).map (a :: ·)
  | _ => none

/-- The piece behind the first `://`, or else the first piece, is taken for the authority and
shows what stands behind its last `@`. -/
def exposed (pieces : List (List Char)) : List (List Char) :=
  (exposeBehind pieces).getD (pieces.modifyHead behindAt)

/-- A piece up to the first `=` behind its first `;`. -/
def visible (piece : List Char) : List Char :=
  match splitOnce ';' piece with
  | none => piece
  | some (before, after) =>
    match splitOnce '=' after with
    | none => piece
    | some (key, _) => before ++ ';' :: (key ++ ['='])

variable {a b piece piece' : List Char} {pieces pieces' : List (List Char)}

theorem joined_cons_cons (rest : List (List Char)) :
    joined (a :: b :: rest) = a ++ '/' :: joined (b :: rest) := by
  simp [joined]

theorem findText_scheme (h : '/' ∉ a) :
    findText [':', '/', '/'] (a ++ b) =
      if a.getLast? = some ':' ∧ ['/', '/'] <+: b then some (a.dropLast, b.drop 2)
      else (findText [':', '/', '/'] b).map fun pair => (a ++ pair.1, pair.2) := by
  induction a with
  | nil => simp
  | cons c a ih =>
    rw [mem_cons, not_or] at h
    rw [cons_append, findText]
    cases a with
    | nil =>
      by_cases hc : c = ':'
      · subst hc
        by_cases hb : ['/', '/'] <+: b
        · simp [hb]
        · simp [hb]
      · simp [hc, Ne.symm hc]
    | cons d a =>
      have hd : '/' ≠ d := fun hd => h.2 (hd ▸ mem_cons_self)
      rw [if_neg (by simp [hd]), ih h.2, getLast?_cons_cons]
      split_ifs
      · simp
      · simp [Function.comp_def]

theorem not_slashes_joined (h : '/' ∉ b) (hb : b ≠ [] ∨ pieces = []) :
    ¬['/', '/'] <+: '/' :: joined (b :: pieces) := by
  cases b with
  | nil => simp_all [joined]
  | cons d b =>
    have hd : '/' ≠ d := fun hd => h (hd ▸ mem_cons_self)
    simp [joined, hd]

/-- The text behind the first `://` starts with the piece that is exposed. -/
theorem findText_joined (h : ∀ piece ∈ pieces, '/' ∉ piece) :
    match exposeBehind pieces with
    | none => findText [':', '/', '/'] (joined pieces) = none
    | some shown => ∃ before c rest,
        findText [':', '/', '/'] (joined pieces) = some (before, joined (c :: rest)) ∧ '/' ∉ c ∧
          joined pieces = before ++ [':', '/', '/'] ++ joined (c :: rest) ∧
          joined shown = before ++ [':', '/', '/'] ++ joined (behindAt c :: rest) ∧ shown ≠ [] := by
  fun_induction exposeBehind pieces with
  | case1 a b c rest hscheme =>
    obtain ⟨hcolon, rfl⟩ := hscheme
    have ha := h a (by simp)
    obtain ⟨front, rfl⟩ := getLast?_eq_some_iff.mp hcolon
    refine ⟨front, c, rest, ?_, h c (by simp), by simp [joined], by simp [joined], by simp⟩
    rw [joined_cons_cons, joined_cons_cons, findText_scheme ha, if_pos (by simp)]
    simp
  | case2 a b c rest hscheme ih =>
    have ih := ih fun piece hpiece => h piece (mem_cons_of_mem _ hpiece)
    have hnot : ¬(a.getLast? = some ':' ∧ ['/', '/'] <+: '/' :: joined (b :: c :: rest)) := by
      rintro ⟨hcolon, hslashes⟩
      have hb : b ≠ [] := fun hb => hscheme ⟨hcolon, hb⟩
      exact not_slashes_joined (h b (by simp)) (.inl hb) hslashes
    have hslash : findText [':', '/', '/'] ('/' :: joined (b :: c :: rest)) =
        (findText [':', '/', '/'] (joined (b :: c :: rest))).map
          fun pair => ('/' :: pair.1, pair.2) := by
      rw [findText, if_neg (by simp)]
    rw [joined_cons_cons, findText_scheme (h a (by simp)), if_neg hnot, hslash]
    cases hrest : exposeBehind (b :: c :: rest) with
    | none =>
      rw [hrest] at ih
      simp only [ih, Option.map_none]
    | some shown =>
      rw [hrest] at ih
      obtain ⟨before, c', rest', hfind, hc, hbefore, hjoined, hshown⟩ := ih
      obtain ⟨s, shown, rfl⟩ := exists_cons_of_ne_nil hshown
      refine ⟨a ++ '/' :: before, c', rest', by rw [hfind]; rfl, hc, ?_, ?_, by simp⟩
      · rw [hbefore]
        simp
      · rw [joined_cons_cons, hjoined]
        simp
  | case3 pieces hshort =>
    match pieces, hshort with
    | [], _ => rfl
    | [a], _ =>
      rw [joined, flatMap_nil, findText_scheme (h a (by simp)), if_neg (by simp)]
      rfl
    | [a, b], _ =>
      have hb : '/' ∉ b := h b (by simp)
      have hnot := @not_slashes_joined b [] hb (.inr rfl)
      have hfind : findText [':', '/', '/'] ('/' :: joined [b]) = none := by
        rw [findText, if_neg (by simp), joined, flatMap_nil, findText_scheme hb, if_neg (by simp)]
        rfl
      rw [joined_cons_cons, findText_scheme (h a (by simp)), if_neg (by simp [hnot]), hfind]
      rfl
    | a :: b :: c :: rest, hshort => exact absurd rfl (hshort a b c rest)

theorem takeWhile_joined (h : '/' ∉ piece) :
    (joined (piece :: pieces)).takeWhile (fun c => c ≠ '/') = piece ∧
      (joined (piece :: pieces)).dropWhile (fun c => c ≠ '/') = pieces.flatMap ('/' :: ·) := by
  have hall : ∀ c ∈ piece, decide (c ≠ '/') = true := by
    intro c hc
    have hne : c ≠ '/' := fun heq => h (heq ▸ hc)
    simpa using hne
  have htake : (joined (piece :: pieces)).takeWhile (fun c => c ≠ '/') = piece := by
    cases pieces with
    | nil => simpa [joined] using hall
    | cons next more =>
      rw [joined, flatMap_cons, cons_append, takeWhile_append_stop (by decide)]
      exact takeWhile_eq_self_iff.mpr hall
  refine ⟨htake, ?_⟩
  have happend := takeWhile_append_dropWhile (p := fun c => decide (c ≠ '/'))
    (l := joined (piece :: pieces))
  rw [htake] at happend
  exact append_cancel_left happend

theorem stripUrlUserinfo_joined (h : ∀ piece ∈ pieces, '/' ∉ piece) :
    stripUrlUserinfo (joined pieces) = joined (exposed pieces) := by
  have hmark : "://".toList = [':', '/', '/'] := rfl
  have hfind := findText_joined h
  rw [exposed, stripUrlUserinfo, hmark]
  cases hshown : exposeBehind pieces with
  | none =>
    rw [hshown] at hfind
    rw [hfind]
    cases pieces with
    | nil => rfl
    | cons piece pieces =>
      obtain ⟨htake, hdrop⟩ := @takeWhile_joined piece pieces (h piece (by simp))
      simp only [htake, hdrop, Option.getD_none, modifyHead_cons, behindAt, nil_append]
      cases splitLast '@' piece <;> rfl
  | some shown =>
    rw [hshown] at hfind
    obtain ⟨before, c, rest, hfind, hc, hbefore, hjoined, -⟩ := hfind
    obtain ⟨htake, hdrop⟩ := @takeWhile_joined c rest hc
    rw [hfind]
    simp only [htake, hdrop, Option.getD_some, hjoined, behindAt]
    cases splitLast '@' c with
    | none => exact hbefore
    | some pair => simp [joined]

theorem redactMatrixParams_joined :
    redactMatrixParams (joined pieces) = joined (pieces.map redactMatrixParams) := by
  cases pieces with
  | nil => rfl
  | cons piece pieces =>
    rw [joined, map_cons, joined]
    induction pieces generalizing piece with
    | nil => simp
    | cons next pieces ih =>
      rw [flatMap_cons, cons_append, redactMatrixParams_slash, ih]
      simp

/-- A piece has no value, or its mask covers all that follows its visible part. -/
theorem redactMatrixParams_visible (h : FreeOf ['/', '?'] piece) :
    (redactMatrixParams piece = piece ∧ visible piece = piece ∧
      ∀ before after, piece = before ++ ';' :: after → ';' ∉ before → '=' ∉ after) ∨
    ∃ before key, ';' ∉ before ∧ '=' ∉ key ∧ visible piece = before ++ ';' :: (key ++ ['=']) ∧
      redactMatrixParams piece = visible piece ++ redactedText := by
  unfold visible
  cases hsplit : splitOnce ';' piece with
  | none =>
    have hfree := splitOnce_eq_none.mp hsplit
    refine .inl ⟨redactMatrixParams_free hfree, rfl, ?_⟩
    rintro before after rfl
    simp at hfree
  | some pair =>
    obtain ⟨before, after⟩ := pair
    obtain ⟨rfl, hbefore⟩ := splitOnce_eq_some.mp hsplit
    have hafter : ∀ c ∈ after, (!isSegmentEnd c) = true := by
      intro c hc
      have hdelim := h c (by simp [hc])
      simp only [mem_cons, not_or] at hdelim
      simp [isSegmentEnd, hdelim]
    rw [redactMatrixParams_semicolon hbefore, takeWhile_eq_self_iff.mpr hafter,
      dropWhile_eq_nil_iff.mpr hafter, redactMatrixParams_free not_mem_nil, append_nil, redactValue]
    dsimp only
    cases hvalue : splitOnce '=' after with
    | none =>
      refine .inl ⟨rfl, rfl, ?_⟩
      intro before' after' heq hbefore'
      rw [heq, splitOnce_append hbefore', Option.some.injEq, Prod.mk.injEq] at hsplit
      rw [hsplit.2]
      exact splitOnce_eq_none.mp hvalue
    | some pair =>
      obtain ⟨key, value⟩ := pair
      obtain ⟨-, hkey⟩ := splitOnce_eq_some.mp hvalue
      exact .inr ⟨before, key, hbefore, hkey, rfl, by simp⟩

theorem redactMatrixParams_inj (h : FreeOf ['/', '?'] piece) (h' : FreeOf ['/', '?'] piece') :
    redactMatrixParams piece = redactMatrixParams piece' ↔ visible piece = visible piece' := by
  rcases redactMatrixParams_visible h with ⟨hmask, hvisible, hfree⟩ |
    ⟨before, key, hbefore, hkey, hvisible, hmask⟩
  · rcases redactMatrixParams_visible h' with ⟨hmask', hvisible', -⟩ |
      ⟨before', key', hbefore', -, hvisible', hmask'⟩
    · rw [hmask, hmask', hvisible, hvisible']
    · -- an `=` behind the first `;` is a value
      rw [hmask, hmask', hvisible, hvisible']
      constructor
      · intro heq
        exact absurd (by simp) (hfree before' (key' ++ '=' :: redactedText)
          (by simp [heq]) hbefore')
      · intro heq
        exact absurd (by simp) (hfree before' (key' ++ ['=']) heq hbefore')
  · rcases redactMatrixParams_visible h' with ⟨hmask', hvisible', hfree'⟩ |
      ⟨before', key', -, -, -, hmask'⟩
    · rw [hmask, hmask', hvisible, hvisible']
      constructor
      · intro heq
        exact absurd (by simp) (hfree' before (key ++ '=' :: redactedText)
          (by simp [← heq]) hbefore)
      · intro heq
        exact absurd (by simp) (hfree' before (key ++ ['=']) heq.symm hbefore)
    · rw [hmask, hmask', append_cancel_right_eq]

theorem notMem_redactMatrixParams {c : Char} (hc : c ∉ ';' :: '=' :: redactedText)
    (h : FreeOf ['/', '?'] piece) (hpiece : c ∉ piece) : c ∉ redactMatrixParams piece := by
  rw [mem_cons, mem_cons, not_or, not_or] at hc
  obtain ⟨hsemicolon, hequals, hmask⟩ := hc
  have hvisible : c ∉ visible piece := by
    unfold visible
    cases hsplit : splitOnce ';' piece with
    | none => exact hpiece
    | some pair =>
      obtain ⟨rfl, -⟩ := splitOnce_eq_some.mp hsplit
      dsimp only
      cases hvalue : splitOnce '=' pair.2 with
      | none => exact hpiece
      | some value =>
        obtain ⟨heq, -⟩ := splitOnce_eq_some.mp hvalue
        rw [heq] at hpiece
        simp_all
  rcases redactMatrixParams_visible h with ⟨hwhole, -, -⟩ | ⟨before, key, -, -, -, hmasked⟩
  · rwa [hwhole]
  · rw [hmasked, mem_append, not_or]
    exact ⟨hvisible, hmask⟩

theorem notMem_joined {c : Char} (hc : c ≠ '/') (h : ∀ piece ∈ pieces, c ∉ piece) :
    c ∉ joined pieces := by
  cases pieces with
  | nil => exact not_mem_nil
  | cons piece pieces => simp_all [joined]

theorem joined_inj (hlength : pieces.length = pieces'.length) (h : ∀ piece ∈ pieces, '/' ∉ piece)
    (h' : ∀ piece ∈ pieces', '/' ∉ piece) : joined pieces = joined pieces' ↔ pieces = pieces' := by
  refine ⟨?_, fun heq => heq ▸ rfl⟩
  induction pieces generalizing pieces' with
  | nil => simp_all [eq_comm]
  | cons a pieces ih =>
    obtain ⟨a', pieces', rfl⟩ := exists_cons_of_length_eq_add_one hlength.symm
    intro heq
    have htake := (@takeWhile_joined a pieces (h a (by simp))).1
    rw [heq, (@takeWhile_joined a' pieces' (h' a' (by simp))).1] at htake
    subst htake
    cases pieces with
    | nil => simp_all
    | cons b pieces =>
      obtain ⟨b', pieces', rfl⟩ := exists_cons_of_length_eq_add_one (Nat.succ.inj hlength).symm
      rw [joined_cons_cons, joined_cons_cons, append_cancel_left_eq, List.cons.injEq] at heq
      rw [ih (Nat.succ.inj hlength) (fun p hp => h p (mem_cons_of_mem _ hp))
        (fun p hp => h' p (mem_cons_of_mem _ hp)) heq.2]

theorem mem_behindAt {c : Char} (h : c ∈ behindAt piece) : c ∈ piece := by
  unfold behindAt at h
  cases hsplit : splitLast '@' piece with
  | none => simpa [hsplit] using h
  | some pair =>
    obtain ⟨pair', hpair', rfl⟩ := Option.map_eq_some_iff.mp hsplit
    obtain ⟨heq, -⟩ := splitOnce_eq_some.mp hpair'
    have hreverse : c ∈ piece.reverse := by
      rw [heq]
      simp_all
    exact mem_reverse.mp hreverse

/-- Exposing changes no number of pieces and adds no letters. -/
theorem exposeBehind_forall₂ {shown : List (List Char)} (h : exposeBehind pieces = some shown) :
    List.Forall₂ (· ⊆ ·) shown pieces := by
  induction pieces generalizing shown with
  | nil => cases h
  | cons a pieces ih =>
    match pieces, h with
    | b :: c :: rest, h =>
      rw [exposeBehind] at h
      split_ifs at h
      · cases h
        exact .cons (Subset.refl _) (.cons (Subset.refl _) (.cons (fun _ => mem_behindAt)
          (forall₂_same.mpr fun _ _ => Subset.refl _)))
      · obtain ⟨shown, hshown, rfl⟩ := Option.map_eq_some_iff.mp h
        exact .cons (Subset.refl _) (ih hshown)

theorem exposed_forall₂ (pieces : List (List Char)) :
    List.Forall₂ (· ⊆ ·) (exposed pieces) pieces := by
  rw [exposed]
  cases hshown : exposeBehind pieces with
  | some shown => exact exposeBehind_forall₂ hshown
  | none =>
    cases pieces with
    | nil => exact .nil
    | cons piece pieces =>
      exact .cons (fun _ => mem_behindAt) (forall₂_same.mpr fun _ _ => Subset.refl _)

theorem freeOf_exposed {delimiters : List Char} (h : ∀ piece ∈ pieces, FreeOf delimiters piece) :
    ∀ piece ∈ exposed pieces, FreeOf delimiters piece := by
  have hsub := exposed_forall₂ pieces
  generalize exposed pieces = shown at hsub
  induction hsub with
  | nil => simp
  | cons hpiece _ ih =>
    rw [forall_mem_cons] at h ⊢
    exact ⟨fun c hc => h.1 c (hpiece hc), ih h.2⟩

theorem notMem_shown {c : Char} (hc : c ∉ '/' :: ';' :: '=' :: redactedText)
    (h : ∀ piece ∈ pieces, FreeOf ['/', '?', c] piece) :
    c ∉ redactMatrixParams (stripUrlUserinfo (joined pieces)) := by
  rw [mem_cons, not_or] at hc
  rw [stripUrlUserinfo_joined fun piece hpiece hmem => h piece hpiece _ hmem (by simp),
    redactMatrixParams_joined]
  apply notMem_joined hc.1
  intro masked hmasked
  obtain ⟨piece, hpiece, rfl⟩ := mem_map.mp hmasked
  have hfree := freeOf_exposed h piece hpiece
  apply notMem_redactMatrixParams hc.2
  · exact hfree.mono (by simp)
  · exact fun hmem => hfree c hmem (by simp)

theorem shown_inj (hlength : pieces.length = pieces'.length)
    (h : ∀ piece ∈ pieces, FreeOf ['/', '?'] piece)
    (h' : ∀ piece ∈ pieces', FreeOf ['/', '?'] piece) :
    redactMatrixParams (stripUrlUserinfo (joined pieces)) =
        redactMatrixParams (stripUrlUserinfo (joined pieces')) ↔
      (exposed pieces).map visible = (exposed pieces').map visible := by
  have hslash : ∀ {pieces : List (List Char)}, (∀ piece ∈ pieces, FreeOf ['/', '?'] piece) →
      ∀ piece ∈ pieces, '/' ∉ piece :=
    fun h piece hpiece hmem => h piece hpiece _ hmem (by decide)
  have hfree := freeOf_exposed h
  have hfree' := freeOf_exposed h'
  have hlengths : (exposed pieces).length = (exposed pieces').length := by
    rw [(exposed_forall₂ pieces).length_eq, hlength, (exposed_forall₂ pieces').length_eq]
  have hmasked : ∀ {shown : List (List Char)}, (∀ piece ∈ shown, FreeOf ['/', '?'] piece) →
      ∀ piece ∈ shown.map redactMatrixParams, '/' ∉ piece := by
    intro shown hshown piece hpiece
    obtain ⟨piece, hmem, rfl⟩ := mem_map.mp hpiece
    exact notMem_redactMatrixParams (by decide) (hshown piece hmem)
      fun hslash => hshown piece hmem _ hslash (by decide)
  rw [stripUrlUserinfo_joined (hslash h), stripUrlUserinfo_joined (hslash h'),
    redactMatrixParams_joined, redactMatrixParams_joined,
    joined_inj (by simpa using hlengths) (hmasked hfree) (hmasked hfree')]
  generalize exposed pieces = shown at hfree hlengths
  generalize exposed pieces' = shown' at hfree' hlengths
  induction shown generalizing shown' with
  | nil => simp_all [eq_comm]
  | cons a shown ih =>
    obtain ⟨a', shown', rfl⟩ := exists_cons_of_length_eq_add_one hlengths.symm
    rw [forall_mem_cons] at hfree hfree'
    rw [map_cons, map_cons, map_cons, map_cons, List.cons.injEq, List.cons.injEq]
    exact and_congr (redactMatrixParams_inj hfree.1 hfree'.1)
      (ih hfree.2 shown' hfree'.2 (Nat.succ.inj hlengths))

end Pieces

/-- A name with a value or without one: a `;` parameter of the path or a pair of the query. -/
structure UrlParam where
  name : List Char
  value : Option (List Char)

namespace UrlParam

def text (param : UrlParam) : List Char :=
  param.name ++ param.value.elim [] fun value => '=' :: value

/-- Both parts are free of the letters that end them. -/
structure WellFormed (delimiters : List Char) (param : UrlParam) : Prop where
  name : FreeOf ('=' :: delimiters) param.name
  value : ∀ value ∈ param.value, FreeOf delimiters value

structure Same (l r : UrlParam) : Prop where
  name : l.name = r.name
  value : l.value.isSome = r.value.isSome

def shown (param : UrlParam) : List Char :=
  param.name ++ param.value.elim [] fun _ => '=' :: redactedText

theorem Same.shown {l r : UrlParam} (h : l.Same r) : l.shown = r.shown := by
  obtain ⟨lname, lvalue⟩ := l
  obtain ⟨rname, rvalue⟩ := r
  obtain ⟨rfl, hvalue⟩ := h
  cases lvalue <;> cases rvalue <;> simp_all [UrlParam.shown]

variable {delimiters : List Char} {param : UrlParam}

section

variable (h : param.WellFormed delimiters)

include h

theorem WellFormed.eq_notMem : '=' ∉ param.name :=
  fun hmem => h.name _ hmem mem_cons_self

theorem redactValue_text :
    redactValue param.text = param.shown := by
  obtain ⟨name, value⟩ := param
  cases value with
  | none => simp [redactValue, text, shown, splitOnce_eq_none.mpr h.eq_notMem]
  | some value => simp [redactValue, text, shown, splitOnce_append h.eq_notMem]

theorem WellFormed.freeOf (heq : '=' ∉ delimiters) :
    FreeOf delimiters param.text := by
  obtain ⟨name, value⟩ := param
  intro c hc
  rcases mem_append.mp hc with hc | hc
  · exact fun hd => h.name c hc (mem_cons_of_mem _ hd)
  · cases value with
    | none => cases hc
    | some value =>
      rcases mem_cons.mp hc with rfl | hc
      · exact heq
      · exact h.value value rfl c hc

end

end UrlParam

structure Segment where
  name : List Char
  params : List UrlParam

namespace Segment

def delimiters : List Char :=
  ['/', '?', '#', ';']

def paramsText (params : List UrlParam) : List Char :=
  params.flatMap fun param => ';' :: param.text

def text (segment : Segment) : List Char :=
  segment.name ++ paramsText segment.params

structure WellFormed (segment : Segment) : Prop where
  name : FreeOf delimiters segment.name
  params : ∀ param ∈ segment.params, param.WellFormed delimiters

structure Same (l r : Segment) : Prop where
  name : l.name = r.name
  params : List.Forall₂ UrlParam.Same l.params r.params

/-- The parameters up to the first one with a value; the mask covers all that follow it. -/
def shownParams : List UrlParam → List Char
  | [] => []
  | param :: params => ';' :: (param.shown ++ if param.value.isSome then [] else shownParams params)

theorem shownParams_congr {l r : List UrlParam} (h : List.Forall₂ UrlParam.Same l r) :
    shownParams l = shownParams r := by
  induction h with
  | nil => rfl
  | cons hparam _ ih => rw [shownParams, shownParams, hparam.shown, hparam.value, ih]

variable {params : List UrlParam} {segment : Segment}

theorem freeOf_paramsText (h : ∀ param ∈ params, param.WellFormed delimiters) :
    FreeOf ['/', '?', '#'] (paramsText params) := by
  intro c hc
  obtain ⟨param, hparam, hc⟩ := mem_flatMap.mp hc
  rcases mem_cons.mp hc with rfl | hc
  · decide
  · intro hd
    have hsub : ['/', '?', '#'] ⊆ delimiters := by decide
    exact (h param hparam).freeOf (by decide) c hc (hsub hd)

theorem WellFormed.freeOf (h : segment.WellFormed) : FreeOf ['/', '?', '#'] segment.text := by
  intro c hc hd
  have hsub : ['/', '?', '#'] ⊆ delimiters := by decide
  rcases mem_append.mp hc with hc | hc
  · exact h.name c hc (hsub hd)
  · exact freeOf_paramsText h.params c hc hd

theorem redactValue_params {param : UrlParam} (h : ∀ p ∈ param :: params, p.WellFormed delimiters) :
    ';' :: redactValue (param.text ++ paramsText params) = shownParams (param :: params) := by
  induction params generalizing param with
  | nil =>
    have hparam := h param mem_cons_self
    simp [paramsText, shownParams, UrlParam.redactValue_text hparam]
  | cons next params ih =>
    have hparam := h param mem_cons_self
    have hnext := ih fun p hp => h p (mem_cons_of_mem _ hp)
    obtain ⟨name, value⟩ := param
    cases value with
    | some value =>
      have hsplit := splitOnce_append (b := value ++ paramsText (next :: params)) hparam.eq_notMem
      simp [redactValue, UrlParam.text, shownParams, UrlParam.shown, hsplit]
    | none =>
      -- without a value the first `=` is one of the parameters that follow
      have hfree : '=' ∉ name ++ [';'] := by simpa using hparam.eq_notMem
      have htext : (⟨name, none⟩ : UrlParam).text ++ paramsText (next :: params) =
          (name ++ [';']) ++ (next.text ++ paramsText params) := by
        simp [UrlParam.text, paramsText]
      rw [shownParams, ← hnext, htext, redactValue_append hfree]
      simp [UrlParam.shown]

theorem redactMatrixParams_text (h : segment.WellFormed) :
    redactMatrixParams segment.text = segment.name ++ shownParams segment.params := by
  obtain ⟨name, params⟩ := segment
  have hname : ';' ∉ name := fun hmem => h.name _ hmem (by decide)
  cases params with
  | nil => simp [text, paramsText, shownParams, redactMatrixParams_free hname]
  | cons param params =>
    have hfree : ∀ c ∈ param.text ++ paramsText params, (!isSegmentEnd c) = true := by
      intro c hc
      have hdelim := freeOf_paramsText h.params c (mem_cons_of_mem _ hc)
      simp only [mem_cons, not_or] at hdelim
      simp [isSegmentEnd, hdelim]
    have htext : (⟨name, param :: params⟩ : Segment).text =
        name ++ ';' :: (param.text ++ paramsText params) := by
      simp [text, paramsText]
    have hrest := dropWhile_eq_nil_iff.mpr hfree
    have hsegment := takeWhile_eq_self_iff.mpr hfree
    rw [htext, redactMatrixParams_semicolon hname, hrest, hsegment,
      redactMatrixParams_free not_mem_nil, append_nil, redactValue_params h.params]

theorem Same.redactMatrixParams {l r : Segment} (h : l.Same r) (hl : l.WellFormed)
    (hr : r.WellFormed) : redactMatrixParams l.text = redactMatrixParams r.text := by
  rw [redactMatrixParams_text hl, redactMatrixParams_text hr, h.name, shownParams_congr h.params]

end Segment

/-- Pieces with the separators between them. -/
structure Separated (α : Type) where
  first : α
  more : List (Char × α)

namespace Separated

variable {α : Type}

def text (f : α → List Char) (pieces : Separated α) : List Char :=
  f pieces.first ++ pieces.more.flatMap fun piece => piece.1 :: f piece.2

structure WellFormed (valid : α → Prop) (pieces : Separated α) : Prop where
  first : valid pieces.first
  more : ∀ piece ∈ pieces.more, isPairSeparator piece.1 = true ∧ valid piece.2

structure Related (related : α → α → Prop) (l r : Separated α) : Prop where
  first : related l.first r.first
  more : List.Forall₂ (fun l r => l.1 = r.1 ∧ related l.2 r.2) l.more r.more

variable {f : α → List Char}

theorem Related.text_congr {l r : Separated α}
    (h : l.Related (fun l r => f l = f r) r) : l.text f = r.text f := by
  obtain ⟨first, more⟩ := l
  obtain ⟨first', more'⟩ := r
  obtain ⟨hfirst, hmore⟩ := h
  simp only at hfirst hmore
  rw [text, text, hfirst]
  induction hmore with
  | nil => rfl
  | cons hpiece _ ih =>
    rw [append_cancel_left_eq] at ih ⊢
    rw [flatMap_cons, flatMap_cons, hpiece.1, hpiece.2, ih]

theorem Related.imp {l r : Separated α} {p q : α → α → Prop} (h : l.Related p r)
    (himp : ∀ x y, p x y → q x y) : l.Related q r :=
  ⟨himp _ _ h.first, h.more.imp fun _ _ hpiece => ⟨hpiece.1, himp _ _ hpiece.2⟩⟩

variable {pieces : Separated α}

theorem WellFormed.imp {p q : α → Prop} (h : pieces.WellFormed p)
    (himp : ∀ x, p x → q x) : pieces.WellFormed q :=
  ⟨himp _ h.first, fun piece hpiece => ⟨(h.more piece hpiece).1, himp _ (h.more piece hpiece).2⟩⟩

variable {related : α → α → Prop} {valid : α → Prop}

theorem WellFormed.text_congr {g : α → List Char} (h : pieces.WellFormed valid)
    (hfg : ∀ x, valid x → f x = g x) :
    pieces.text f = pieces.text g := by
  rw [text, text, hfg _ h.first]
  exact congrArg _ (flatMap_congr fun piece hpiece => by
    rw [hfg _ (h.more piece hpiece).2])

theorem text_eq_nil :
    pieces.text f = [] ↔ f pieces.first = [] ∧ pieces.more = [] := by
  obtain ⟨first, more⟩ := pieces
  cases more <;> simp [text]

theorem WellFormed.notMem_text {c : Char} (h : pieces.WellFormed fun piece => c ∉ f piece)
    (hc : isPairSeparator c = false) : c ∉ pieces.text f := by
  rw [text, mem_append, mem_flatMap, not_or]
  refine ⟨h.first, ?_⟩
  rintro ⟨piece, hpiece, hmem⟩
  obtain ⟨hseparator, hfree⟩ := h.more piece hpiece
  rcases mem_cons.mp hmem with rfl | hmem
  · rw [hc] at hseparator
    cases hseparator
  · exact hfree hmem

theorem Related.attach {l r : Separated α} (h : l.Related related r) (hl : l.WellFormed valid)
    (hr : r.WellFormed valid) :
    l.Related (fun x y => related x y ∧ valid x ∧ valid y) r := by
  have hmore : ∀ {more more' : List (Char × α)},
      List.Forall₂ (fun l r => l.1 = r.1 ∧ related l.2 r.2) more more' →
      (∀ piece ∈ more, valid piece.2) → (∀ piece ∈ more', valid piece.2) →
      List.Forall₂ (fun l r => l.1 = r.1 ∧ related l.2 r.2 ∧ valid l.2 ∧ valid r.2) more more' := by
    intro more more' hrelated hvalid hvalid'
    induction hrelated with
    | nil => exact .nil
    | cons hpiece _ ih =>
      rw [forall_mem_cons] at hvalid hvalid'
      exact .cons ⟨hpiece.1, hpiece.2, hvalid.1, hvalid'.1⟩ (ih hvalid.2 hvalid'.2)
  exact ⟨⟨h.first, hl.first, hr.first⟩, hmore h.more (fun piece hpiece => (hl.more piece hpiece).2)
    fun piece hpiece => (hr.more piece hpiece).2⟩

theorem mapPieces_text {g : List Char → List Char} (hnil : g [] = [])
    (h : pieces.WellFormed fun piece => FreeOf ['&', ';'] (f piece)) :
    mapPieces isPairSeparator g (pieces.text f) = pieces.text (g ∘ f) := by
  obtain ⟨first, more⟩ := pieces
  have hfree : ∀ {piece : α}, FreeOf ['&', ';'] (f piece) →
      ∀ c ∈ f piece, isPairSeparator c = false := by
    intro piece hpiece c hc
    have hdelim := hpiece c hc
    simp only [mem_cons, not_or] at hdelim
    simp [isPairSeparator, hdelim]
  induction more generalizing first with
  | nil => simpa [text] using mapPieces_free hnil (hfree h.first)
  | cons piece more ih =>
    have hpiece := h.more piece mem_cons_self
    have hrest := ih piece.2 ⟨hpiece.2, fun p hp => h.more p (mem_cons_of_mem _ hp)⟩
    have htext : (⟨first, piece :: more⟩ : Separated α).text f =
        f first ++ piece.1 :: (⟨piece.2, more⟩ : Separated α).text f := by
      simp [text]
    rw [htext, mapPieces_append (hfree h.first) hpiece.1, hrest]
    simp [text]

theorem Related.of_text {l r : Separated α} (h : l.Related related r)
    (hl : l.WellFormed fun piece => FreeOf ['&', ';'] (f piece))
    (hr : r.WellFormed fun piece => FreeOf ['&', ';'] (f piece)) (htext : l.text f = r.text f) :
    l.Related (fun x y => related x y ∧ f x = f y) r := by
  obtain ⟨first, more⟩ := l
  obtain ⟨first', more'⟩ := r
  obtain ⟨hfirst, hmore⟩ := h
  simp only at hmore
  induction hmore generalizing first first' with
  | nil => exact ⟨⟨hfirst, by simpa [text] using htext⟩, .nil⟩
  | @cons piece piece' more more' hpiece _ ih =>
    obtain ⟨separator, piece⟩ := piece
    obtain ⟨separator', piece'⟩ := piece'
    obtain ⟨rfl, hrelated⟩ := hpiece
    have hseparator := (hl.more _ mem_cons_self).1
    have hsplit : f first ++ separator :: (⟨piece, more⟩ : Separated α).text f =
        f first' ++ separator :: (⟨piece', more'⟩ : Separated α).text f := by
      simpa [text] using htext
    have hnot : ∀ {p : α}, FreeOf ['&', ';'] (f p) → separator ∉ f p := by
      intro p hp hmem
      have hdelim := hp separator hmem
      simp only [mem_cons, not_or] at hdelim
      simp [isPairSeparator, hdelim] at hseparator
    have hpair := (splitOnce_append (hnot hl.first)).symm.trans
      ((congrArg (splitOnce separator) hsplit).trans (splitOnce_append (hnot hr.first)))
    rw [Option.some.injEq, Prod.mk.injEq] at hpair
    have hrest := ih piece
      ⟨(hl.more _ mem_cons_self).2, fun p hp => hl.more p (mem_cons_of_mem _ hp)⟩ piece'
      ⟨(hr.more _ mem_cons_self).2, fun p hp => hr.more p (mem_cons_of_mem _ hp)⟩
      hpair.2 hrelated
    exact ⟨⟨hfirst, hpair.1⟩, .cons ⟨rfl, hrest.first⟩ hrest.more⟩

end Separated

inductive FragmentPiece where
  | bare (value : List Char)
  | pair (key value : List Char)

namespace FragmentPiece

def text : FragmentPiece → List Char
  | bare value => value
  | pair key value => key ++ '=' :: value

def WellFormed : FragmentPiece → Prop
  | bare value => FreeOf ['=', '&', ';'] value
  | pair key value => FreeOf ['=', '&', ';'] key ∧ FreeOf ['&', ';'] value

/-- The same up to the value. -/
def Same : FragmentPiece → FragmentPiece → Prop
  | bare _, bare _ => True
  | pair key _, pair key' _ => key = key'
  | _, _ => False

/-- The same up to the value, where a bare token is missing in both or in neither. -/
def Agrees : FragmentPiece → FragmentPiece → Prop
  | bare value, bare value' => value = [] ↔ value' = []
  | pair key _, pair key' _ => key = key'
  | _, _ => False

variable {piece : FragmentPiece}

theorem WellFormed.freeOf (h : piece.WellFormed) : FreeOf ['&', ';'] piece.text := by
  have hsub : ['&', ';'] ⊆ ['=', '&', ';'] := by decide
  intro c hc hd
  cases piece with
  | bare value => exact h c hc (hsub hd)
  | pair key value =>
    rcases mem_append.mp hc with hc | hc
    · exact h.1 c hc (hsub hd)
    · rcases mem_cons.mp hc with rfl | hc
      · revert hd
        decide
      · exact h.2 c hc hd

theorem redactFragmentPiece_bare {value : List Char} (h : (bare value).WellFormed) :
    redactFragmentPiece value = if value = [] then [] else redactedText := by
  have hfree : '=' ∉ value := fun hmem => h _ hmem (by decide)
  rw [redactFragmentPiece, splitOnce_eq_none.mpr hfree]

theorem redactFragmentPiece_pair {key value : List Char} (h : (pair key value).WellFormed) :
    redactFragmentPiece (pair key value).text = key ++ '=' :: redactedText := by
  have hfree : '=' ∉ key := fun hmem => h.1 _ hmem (by decide)
  rw [redactFragmentPiece, text, splitOnce_append hfree, if_neg (by simp)]

theorem redactFragmentPiece_inj {l r : FragmentPiece} (h : l.Same r) (hl : l.WellFormed)
    (hr : r.WellFormed) :
    redactFragmentPiece l.text = redactFragmentPiece r.text ↔ l.Agrees r := by
  have hsome : redactedText ≠ [] := by decide
  cases l with
  | bare value =>
    cases r with
    | bare value' =>
      rw [text, text, redactFragmentPiece_bare hl, redactFragmentPiece_bare hr, Agrees]
      split_ifs <;> simp_all
    | pair => cases h
  | pair key value =>
    cases r with
    | bare => cases h
    | pair key' value' =>
      obtain rfl : key = key' := h
      rw [redactFragmentPiece_pair hl, redactFragmentPiece_pair hr]
      simp [Agrees]

theorem Agrees.same {l r : FragmentPiece} (h : l.Agrees r) : l.Same r := by
  cases l <;> cases r <;> first | exact h | exact trivial

theorem freeOf_redactFragmentPiece (h : piece.WellFormed) :
    FreeOf ['&', ';'] (redactFragmentPiece piece.text) := by
  have hsub : ['&', ';'] ⊆ ['=', '&', ';'] := by decide
  have hmask : FreeOf ['&', ';'] ('=' :: redactedText) := by decide
  cases piece with
  | bare value =>
    rw [text, redactFragmentPiece_bare h]
    split_ifs
    · decide
    · exact fun c hc => hmask c (mem_cons_of_mem _ hc)
  | pair key value =>
    rw [redactFragmentPiece_pair h]
    intro c hc hd
    rcases mem_append.mp hc with hc | hc
    · exact h.1 c hc (hsub hd)
    · exact hmask c hc hd

end FragmentPiece

/-- How a URL starts: with a scheme and `://`, with the `//` of a host under the scheme in force,
or with a path. -/
inductive Lead where
  | absolute (scheme : List Char)
  | network
  | relative
deriving DecidableEq

def Lead.isAbsolute : Lead → Bool
  | absolute _ => true
  | _ => false

/-- A URL by its parts. A relative one has neither userinfo nor host, and its first segment has
no `/` before it. -/
structure Locator where
  lead : Lead
  userinfo : Option (List Char)
  host : List Char
  path : List Segment
  query : Option (Separated UrlParam)
  fragment : Option (Separated FragmentPiece)

namespace Locator

def pathText (path : List Segment) : List Char :=
  path.flatMap fun segment => '/' :: segment.text

def authority (url : Locator) : List Char :=
  (url.userinfo.elim [] fun info => info ++ ['@']) ++ url.host

def base (url : Locator) : List Char :=
  match url.lead with
  | .absolute scheme => scheme ++ "://".toList ++ (url.authority ++ pathText url.path)
  | .network => "//".toList ++ (url.authority ++ pathText url.path)
  | .relative => (pathText url.path).tail

def text (url : Locator) : List Char :=
  url.base ++ (url.query.elim [] fun query => '?' :: query.text UrlParam.text) ++
    url.fragment.elim [] fun fragment => '#' :: fragment.text FragmentPiece.text

structure WellFormed (url : Locator) : Prop where
  scheme : ∀ scheme, url.lead = .absolute scheme → FreeOf [':', '/', '?', '#'] scheme
  relative : url.lead = .relative → url.userinfo = none ∧ url.host = []
  userinfo : ∀ info ∈ url.userinfo, FreeOf ['/', '?', '#', '@'] info
  host : FreeOf ['/', '?', '#', '@'] url.host
  path : ∀ segment ∈ url.path, segment.WellFormed
  query : ∀ query ∈ url.query, query.WellFormed (UrlParam.WellFormed ['&', ';', '#'])
  fragment : ∀ fragment ∈ url.fragment, fragment.WellFormed FragmentPiece.WellFormed

structure Same (l r : Locator) : Prop where
  lead : l.lead = r.lead
  host : l.host = r.host
  path : List.Forall₂ Segment.Same l.path r.path
  query : Option.Rel (Separated.Related UrlParam.Same) l.query r.query
  fragment : Option.Rel (Separated.Related FragmentPiece.Same) l.fragment r.fragment

/-- The text before the query, at each `/`. -/
def pieces (url : Locator) : List (List Char) :=
  match url.lead with
  | .absolute scheme => (scheme ++ [':']) :: [] :: url.authority :: url.path.map Segment.text
  | .network => [] :: [] :: url.authority :: url.path.map Segment.text
  | .relative => url.path.map Segment.text

/-- Behind the last `@` of what is taken for the authority, and everywhere else, the two have the
same letters up to the value of a `;` parameter. -/
def BasesAgree (l r : Locator) : Prop :=
  (exposed l.pieces).map visible = (exposed r.pieces).map visible

/-- Bare fragment tokens are missing at the same places. -/
def FragmentsAgree (l r : Locator) : Prop :=
  Option.Rel (Separated.Related FragmentPiece.Agrees) l.fragment r.fragment

def shownQuery (query : Option (Separated UrlParam)) : List Char :=
  query.elim [] fun query =>
    if query.text UrlParam.shown = [] then [] else '?' :: query.text UrlParam.shown

def shownFragment (fragment : Option (Separated FragmentPiece)) : List Char :=
  fragment.elim [] fun fragment =>
    '#' :: fragment.text (redactFragmentPiece ∘ FragmentPiece.text)

section

variable {url l r : Locator}

theorem freeOf_pathText {path : List Segment} (h : ∀ segment ∈ path, segment.WellFormed) :
    FreeOf ['?', '#'] (pathText path) := by
  have hsub : ['?', '#'] ⊆ ['/', '?', '#'] := by decide
  intro c hc hd
  obtain ⟨segment, hsegment, hc⟩ := mem_flatMap.mp hc
  rcases mem_cons.mp hc with rfl | hc
  · revert hd
    decide
  · exact (h segment hsegment).freeOf c hc (hsub hd)

theorem WellFormed.freeOf_authority (h : url.WellFormed) :
    FreeOf ['/', '?', '#'] url.authority := by
  have hsub : ['/', '?', '#'] ⊆ ['/', '?', '#', '@'] := by decide
  intro c hc hd
  rcases mem_append.mp hc with hc | hc
  · cases hinfo : url.userinfo with
    | none => simp [hinfo] at hc
    | some info =>
      rw [hinfo, Option.elim_some, mem_append, mem_singleton] at hc
      rcases hc with hc | rfl
      · exact h.userinfo info hinfo c hc (hsub hd)
      · revert hd
        decide
  · exact h.host c hc (hsub hd)

theorem WellFormed.freeOf_base (h : url.WellFormed) : FreeOf ['?', '#'] url.base := by
  have hpath := freeOf_pathText h.path
  have hrest : FreeOf ['?', '#'] (url.authority ++ pathText url.path) := by
    intro c hc
    rcases mem_append.mp hc with hc | hc
    · exact fun hd => h.freeOf_authority c hc (mem_cons_of_mem _ hd)
    · exact hpath c hc
  intro c hc hd
  rw [base] at hc
  cases hlead : url.lead with
  | absolute scheme =>
    simp only [hlead, mem_append] at hc
    rcases hc with (hc | hc) | hc
    · have hsub : ['?', '#'] ⊆ [':', '/', '?', '#'] := by decide
      exact h.scheme scheme hlead c hc (hsub hd)
    · have hmark : FreeOf ['?', '#'] "://".toList := by decide
      exact hmark c hc hd
    · exact hrest c (mem_append.mpr hc) hd
  | network =>
    simp only [hlead] at hc
    rcases mem_append.mp hc with hc | hc
    · have hmark : FreeOf ['?', '#'] "//".toList := by decide
      exact hmark c hc hd
    · exact hrest c hc hd
  | relative =>
    simp only [hlead] at hc
    exact hpath c (mem_of_mem_tail hc) hd

variable {query : Separated UrlParam}

theorem mapPieces_query (h : query.WellFormed (UrlParam.WellFormed ['&', ';', '#'])) :
    mapPieces isPairSeparator redactValue (query.text UrlParam.text) =
      query.text UrlParam.shown := by
  have hsub : ['&', ';'] ⊆ ['&', ';', '#'] := by decide
  have hfree : query.WellFormed fun param => FreeOf ['&', ';'] param.text :=
    h.imp fun param hparam c hc hd => hparam.freeOf (by decide) c hc (hsub hd)
  rw [Separated.mapPieces_text rfl hfree]
  exact h.text_congr fun param hparam => UrlParam.redactValue_text hparam

theorem shownQuery_eq (h : query.WellFormed (UrlParam.WellFormed ['&', ';', '#'])) :
    (if query.text UrlParam.text = [] then []
      else '?' :: mapPieces isPairSeparator redactValue (query.text UrlParam.text)) =
      shownQuery (some query) := by
  have hnil : query.text UrlParam.text = [] ↔ query.text UrlParam.shown = [] := by
    rw [Separated.text_eq_nil, Separated.text_eq_nil]
    obtain ⟨⟨name, value⟩, more⟩ := query
    cases value <;> simp [UrlParam.text, UrlParam.shown]
  rw [mapPieces_query h, shownQuery, Option.elim_some]
  exact if_congr hnil rfl rfl

theorem redactUrlFragment_text {fragment : Separated FragmentPiece}
    (h : fragment.WellFormed FragmentPiece.WellFormed) :
    redactUrlFragment (some (fragment.text FragmentPiece.text)) =
      shownFragment (some fragment) := by
  have hfree : fragment.WellFormed fun piece => FreeOf ['&', ';'] piece.text :=
    h.imp fun piece hpiece => hpiece.freeOf
  rw [redactUrlFragment, Separated.mapPieces_text rfl hfree]
  rfl

/-- The letters of a query are not the `#` of a fragment. -/
theorem WellFormed.fragment_notMem (h : url.WellFormed) :
    '#' ∉ url.base ++ url.query.elim [] fun query => '?' :: query.text UrlParam.text := by
  intro hmem
  rcases mem_append.mp hmem with hmem | hmem
  · exact h.freeOf_base _ hmem (by decide)
  · cases hquery : url.query with
    | none => simp [hquery] at hmem
    | some query =>
      have hfree : query.WellFormed fun param => '#' ∉ param.text :=
        (h.query query hquery).imp fun param hparam hmem =>
          hparam.freeOf (by decide) _ hmem (by decide)
      rw [hquery, Option.elim_some, mem_cons] at hmem
      rcases hmem with hmem | hmem
      · exact absurd hmem (by decide)
      · exact hfree.notMem_text (by decide) hmem

theorem redactAllQueryValues_text (h : url.WellFormed) :
    redactAllQueryValues url.text =
      redactMatrixParams (stripUrlUserinfo url.base) ++ shownQuery url.query ++
        shownFragment url.fragment := by
  have hquestion : '?' ∉ url.base := fun hmem => h.freeOf_base _ hmem (by decide)
  have hsplit : splitOnce '#' url.text =
      url.fragment.map fun fragment =>
        (url.base ++ url.query.elim [] fun query => '?' :: query.text UrlParam.text,
          fragment.text FragmentPiece.text) := by
    rw [text]
    cases url.fragment with
    | none => simpa using splitOnce_eq_none.mpr h.fragment_notMem
    | some fragment => exact splitOnce_append h.fragment_notMem
  have hbefore : (splitOnce '?' (url.base ++
      url.query.elim [] fun query => '?' :: query.text UrlParam.text)).getD
      (url.base ++ url.query.elim [] fun query => '?' :: query.text UrlParam.text, []) =
      (url.base, url.query.elim [] fun query => query.text UrlParam.text) := by
    cases url.query with
    | none => simp [splitOnce_eq_none.mpr hquestion]
    | some query => simp [splitOnce_append hquestion]
  have hquery : (if (url.query.elim [] fun query => query.text UrlParam.text) = [] then []
      else '?' :: mapPieces isPairSeparator redactValue
        (url.query.elim [] fun query => query.text UrlParam.text)) = shownQuery url.query := by
    cases hquery : url.query with
    | none => rfl
    | some query => exact shownQuery_eq (h.query query hquery)
  rw [redactAllQueryValues, hsplit]
  cases hfragment : url.fragment with
  | none =>
    have htext : url.text =
        url.base ++ url.query.elim [] fun query => '?' :: query.text UrlParam.text := by
      simp [text, hfragment]
    simp only [Option.map_none, htext, hbefore, hquery]
    rfl
  | some fragment =>
    simp only [Option.map_some, hbefore, hquery, redactUrlFragment_text (h.fragment _ hfragment)]

theorem base_eq_joined (url : Locator) : url.base = joined url.pieces := by
  have hpath : pathText url.path = (url.path.map Segment.text).flatMap ('/' :: ·) := by
    rw [flatMap_map, pathText]
  unfold base pieces
  cases url.lead with
  | absolute scheme => simp [joined, hpath]
  | network => simp [joined, hpath]
  | relative =>
    rw [hpath]
    cases url.path.map Segment.text <;> simp [joined]

theorem WellFormed.freeOf_pieces (h : url.WellFormed) :
    ∀ piece ∈ url.pieces, FreeOf ['/', '?', '#'] piece := by
  have hpath : ∀ piece ∈ url.path.map Segment.text, FreeOf ['/', '?', '#'] piece := by
    intro piece hpiece
    obtain ⟨segment, hsegment, rfl⟩ := mem_map.mp hpiece
    exact (h.path segment hsegment).freeOf
  have hnil : FreeOf ['/', '?', '#'] [] := by decide
  unfold pieces
  cases hlead : url.lead with
  | absolute scheme =>
    have hscheme : FreeOf ['/', '?', '#'] (scheme ++ [':']) := by
      intro c hc hd
      rcases mem_append.mp hc with hc | hc
      · exact h.scheme scheme hlead c hc (mem_cons_of_mem _ hd)
      · rw [mem_singleton.mp hc] at hd
        revert hd
        decide
    simp only [forall_mem_cons]
    exact ⟨hscheme, hnil, h.freeOf_authority, hpath⟩
  | network =>
    simp only [forall_mem_cons]
    exact ⟨hnil, hnil, h.freeOf_authority, hpath⟩
  | relative => exact hpath

theorem WellFormed.freeOf_pieces_ends (h : url.WellFormed) :
    ∀ piece ∈ url.pieces, FreeOf ['/', '?'] piece :=
  fun piece hpiece => (h.freeOf_pieces piece hpiece).mono (by decide)

theorem Same.length_pieces (h : l.Same r) : l.pieces.length = r.pieces.length := by
  have hlength := h.path.length_eq
  unfold pieces
  rw [h.lead]
  cases r.lead <;> simpa using hlength

theorem Same.visible_path (h : l.Same r) (hl : l.WellFormed) (hr : r.WellFormed) :
    (l.path.map Segment.text).map visible = (r.path.map Segment.text).map visible := by
  have hfree : ∀ {segment : Segment}, segment.WellFormed → FreeOf ['/', '?'] segment.text :=
    fun hsegment => hsegment.freeOf.mono (by decide)
  have hpath := h.path
  have hl := hl.path
  have hr := hr.path
  generalize l.path = path at hpath hl
  generalize r.path = path' at hpath hr
  induction hpath with
  | nil => rfl
  | cons hsegment _ ih =>
    rw [forall_mem_cons] at hl hr
    simp only [map_cons]
    rw [ih hl.2 hr.2, (redactMatrixParams_inj (hfree hl.1) (hfree hr.1)).mp
      (hsegment.redactMatrixParams hl.1 hr.1)]

theorem behindAt_authority (h : url.WellFormed) : behindAt url.authority = url.host := by
  have hhost : '@' ∉ url.host := fun hmem => h.host _ hmem (by decide)
  rw [behindAt, authority]
  cases url.userinfo with
  | none => simp [splitLast_eq_none hhost]
  | some info => simp [splitLast_append hhost]

/-- Behind a scheme the userinfo is what is stripped. Elsewhere the same shows if no `@` is in
what is taken for the authority, and no userinfo differs. -/
theorem Same.basesAgree (h : l.Same r) (hl : l.WellFormed) (hr : r.WellFormed)
    (hlead : l.lead.isAbsolute = true ∨ exposed l.pieces = l.pieces ∧
      exposed r.pieces = r.pieces ∧ l.userinfo = r.userinfo) : l.BasesAgree r := by
  have hpath := h.visible_path hl hr
  rcases hlead with habsolute | ⟨hexposed, hexposed', huserinfo⟩
  · cases hlead : l.lead with
    | absolute scheme =>
      have hexposed : ∀ {url : Locator}, url.WellFormed → url.lead = .absolute scheme →
          exposed url.pieces =
            (scheme ++ [':']) :: [] :: url.host :: url.path.map Segment.text := by
        intro url hurl hlead
        simp [exposed, pieces, hlead, exposeBehind, behindAt_authority hurl]
      rw [BasesAgree, hexposed hl hlead, hexposed hr (h.lead ▸ hlead), h.host]
      simp only [map_cons, hpath]
    | network => simp [hlead, Lead.isAbsolute] at habsolute
    | relative => simp [hlead, Lead.isAbsolute] at habsolute
  · have hauthority : l.authority = r.authority := by rw [authority, authority, huserinfo, h.host]
    rw [BasesAgree, hexposed, hexposed', pieces, pieces, h.lead, hauthority]
    cases r.lead with
    | absolute scheme => simp only [map_cons, hpath]
    | network => simp only [map_cons, hpath]
    | relative => exact hpath

theorem shownQuery_congr {query query' : Option (Separated UrlParam)}
    (h : Option.Rel (Separated.Related UrlParam.Same) query query') :
    shownQuery query = shownQuery query' := by
  cases h with
  | none => rfl
  | some hquery =>
    have htext := (hquery.imp fun _ _ hparam => UrlParam.Same.shown hparam).text_congr
    rw [shownQuery, shownQuery, Option.elim_some, Option.elim_some, htext]

theorem shownFragment_inj {fragment fragment' : Option (Separated FragmentPiece)}
    (h : Option.Rel (Separated.Related FragmentPiece.Same) fragment fragment')
    (hl : ∀ f ∈ fragment, f.WellFormed FragmentPiece.WellFormed)
    (hr : ∀ f ∈ fragment', f.WellFormed FragmentPiece.WellFormed) :
    shownFragment fragment = shownFragment fragment' ↔
      Option.Rel (Separated.Related FragmentPiece.Agrees) fragment fragment' := by
  cases h with
  | none => exact ⟨fun _ => .none, fun _ => rfl⟩
  | @some l r hsame =>
    have hvalid := hsame.attach (hl l rfl) (hr r rfl)
    have hfree := (hl l rfl).imp fun _ h => FragmentPiece.freeOf_redactFragmentPiece h
    have hfree' := (hr r rfl).imp fun _ h => FragmentPiece.freeOf_redactFragmentPiece h
    constructor
    · intro hshown
      have hpieces := hvalid.of_text hfree hfree' (List.cons.inj hshown).2
      refine .some (hpieces.imp ?_)
      rintro x y ⟨⟨hxy, hx, hy⟩, heq⟩
      exact (FragmentPiece.redactFragmentPiece_inj hxy hx hy).mp heq
    · intro hrelated
      cases hrelated with
      | some hagrees =>
        have hboth := hagrees.attach (hl l rfl) (hr r rfl)
        refine congrArg (List.cons '#') (Separated.Related.text_congr (hboth.imp ?_))
        rintro x y ⟨hxy, hx, hy⟩
        exact (FragmentPiece.redactFragmentPiece_inj hxy.same hx hy).mpr hxy

theorem WellFormed.hash_notMem (h : url.WellFormed) :
    '#' ∉ redactMatrixParams (stripUrlUserinfo url.base) ++ shownQuery url.query := by
  rw [mem_append, not_or]
  constructor
  · rw [base_eq_joined]
    exact notMem_shown (by decide) h.freeOf_pieces
  · cases hquery : url.query with
    | none => exact not_mem_nil
    | some query =>
      have hfree : query.WellFormed fun param => '#' ∉ param.shown := by
        apply (h.query query hquery).imp
        rintro ⟨name, value⟩ hparam hmem
        rcases mem_append.mp hmem with hmem | hmem
        · exact hparam.name _ hmem (by decide)
        · cases value with
          | none => cases hmem
          | some value =>
            have hmask : '#' ∉ '=' :: redactedText := by decide
            exact hmask hmem
      rw [shownQuery, Option.elim_some]
      split_ifs
      · exact not_mem_nil
      · simpa using hfree.notMem_text (by decide)

/-- What shows of two URLs that differ in their secret parts is the same exactly if their bases
and the places of missing bare tokens agree. -/
theorem Same.redactAllQueryValues_iff (h : l.Same r) (hl : l.WellFormed) (hr : r.WellFormed) :
    redactAllQueryValues l.text = redactAllQueryValues r.text ↔
      l.BasesAgree r ∧ l.FragmentsAgree r := by
  have hbase : redactMatrixParams (stripUrlUserinfo l.base) =
      redactMatrixParams (stripUrlUserinfo r.base) ↔ l.BasesAgree r := by
    rw [base_eq_joined, base_eq_joined]
    exact shown_inj h.length_pieces hl.freeOf_pieces_ends hr.freeOf_pieces_ends
  have hquery := shownQuery_congr h.query
  have hfragment := shownFragment_inj h.fragment hl.fragment hr.fragment
  have hfront := hl.hash_notMem
  have hfront' := hr.hash_notMem
  rw [redactAllQueryValues_text hl, redactAllQueryValues_text hr, ← hbase, FragmentsAgree,
    ← hfragment, hquery]
  rw [hquery] at hfront
  constructor
  · intro heq
    have hrelated := h.fragment
    generalize l.fragment = fragment at heq hrelated ⊢
    generalize r.fragment = fragment' at heq hrelated ⊢
    cases hrelated with
    | none => simpa [shownFragment] using heq
    | some hsame =>
      simp only [shownFragment, Option.elim_some] at heq ⊢
      have hsplit := congrArg (splitOnce '#') heq
      rw [splitOnce_append hfront, splitOnce_append hfront', Option.some.injEq, Prod.mk.injEq,
        append_cancel_right_eq] at hsplit
      exact ⟨hsplit.1, congrArg _ hsplit.2⟩
  · rintro ⟨hshown, hsame⟩
    rw [hshown, hsame]

end

end Locator

end Policy

end Qcg
