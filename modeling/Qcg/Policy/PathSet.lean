import Qcg.Policy.Path
import Mathlib.Data.List.Chain
import Mathlib.Data.List.Infix
import Mathlib.Data.List.Pairwise

/-!
# What an accepted set of paths is

The check of a path set sorts the paths by their collision keys and compares neighbours. What
it accepts is a property of each pair of paths, so that it holds of any part of an accepted
set and in any order.
-/

namespace Qcg

open List

namespace Policy

open Lexicographic

/-- A collision key that works on the safe paths name by name. -/
structure CollisionKey where
  key : String → String
  parts_key : ∀ path, isSafeRelativePath path = true → parts (key path) = (parts path).map key

variable (ck : CollisionKey)

/-- Two paths that may stand in one tree: their keys differ, they spell the directories they
share alike, and neither uses the other as a directory when that is a file. -/
structure Compatible (l r : String × Bool) : Prop where
  distinct : ck.key l.1 ≠ ck.key r.1
  agree : Agree (fun e => parts (ck.key e.1)) (fun e => parts e.1) l r
  left : parts (ck.key l.1) <+: parts (ck.key r.1) → l.2 = true
  right : parts (ck.key r.1) <+: parts (ck.key l.1) → r.2 = true

variable {ck}

theorem Compatible.symm {l r : String × Bool} (h : Compatible ck l r) : Compatible ck r l :=
  ⟨h.distinct.symm, h.agree.symm, h.right, h.left⟩

instance : Std.Symm (Compatible ck) :=
  ⟨fun _ _ => Compatible.symm⟩

variable (ck)

def entryOf (entry : String × Bool) : PathEntry :=
  ⟨ck.key entry.1, entry.1, entry.2⟩

variable {ck}

def PathEntry.Even (entry : PathEntry) : Prop :=
  (parts entry.key).length = (parts entry.path).length

variable {α : Type} {l r : PathEntry}

theorem alias_eq_false_iff (hl : l.Even) (hr : r.Even) :
    l.alias r = false ↔
      Agree (fun e : PathEntry => parts e.key) (fun e => parts e.path) l r :=
  any_takeWhile_eq_false hl hr

theorem mem_inits_tail {p l : List α} : p ∈ l.inits.tail ↔ p ≠ [] ∧ p <+: l := by
  cases l with
  | nil => simp
  | cons a l =>
    rw [inits_cons, tail_cons, prefix_cons_iff, mem_map]
    constructor
    · rintro ⟨q, hq, rfl⟩
      exact ⟨by simp, .inr ⟨q, rfl, (mem_inits q l).mp hq⟩⟩
    · rintro ⟨hne, rfl | ⟨q, rfl, hq⟩⟩
      · exact absurd rfl hne
      · exact ⟨q, (mem_inits q l).mpr hq, rfl⟩

theorem mem_inits_tail_dropLast {p l : List α} :
    p ∈ l.inits.tail.dropLast ↔ p ≠ [] ∧ p <+: l ∧ p ≠ l := by
  induction l using List.reverseRecOn with
  | nil => simp
  | append_singleton front a =>
    have hinits : (front ++ [a]).inits.tail.dropLast = front.inits.tail := by
      cases front <;> simp [inits_append]
    rw [hinits, mem_inits_tail, prefix_concat_iff]
    refine and_congr_right fun _ => ⟨fun hfront => ⟨.inr hfront, ?_⟩, fun h => h.1.resolve_left h.2⟩
    rintro rfl
    have hlength := hfront.length_le
    simp only [length_append, length_singleton] at hlength
    omega

theorem linear_charLe : Linear fun c d : Char => decide (c.toNat ≤ d.toNat) where
  total c d := by simpa using Nat.le_total c.toNat d.toNat
  trans c d e hcd hde := by
    simp only [decide_eq_true_eq] at hcd hde ⊢
    exact hcd.trans hde
  antisymm c d hcd hdc := by
    simp only [decide_eq_true_eq] at hcd hdc
    exact Char.toNat_inj.mp (Nat.le_antisymm hcd hdc)

theorem linear_textLe : Linear textLe :=
  linear_charLe.lex.comap fun _ _ h => String.toList_inj.mp h

theorem linear_partsLe : Linear (lex textLe) :=
  linear_textLe.lex

instance : Std.Total fun l r : PathEntry => l.le r = true :=
  ⟨fun _ _ => linear_partsLe.total _ _⟩

instance : IsTrans PathEntry fun l r => l.le r = true :=
  ⟨fun _ _ _ => linear_partsLe.trans _ _ _⟩

/-- Two entries have different keys and spell the directories that they share alike. -/
def PathEntry.Apart (l r : PathEntry) : Prop :=
  parts l.key ≠ parts r.key ∧
    Agree (fun e : PathEntry => parts e.key) (fun e => parts e.path) l r

theorem PathEntry.Apart.symm (h : l.Apart r) : r.Apart l :=
  ⟨h.1.symm, h.2.symm⟩

theorem neighbours_iff {l : List PathEntry} (heven : ∀ e ∈ l, e.Even)
    (hsorted : l.Pairwise fun a b => a.le b = true) :
    ((l.zip l.tail).any fun pair => pair.1.key = pair.2.key || pair.1.alias pair.2) = false ↔
      l.Pairwise PathEntry.Apart := by
  have hneighbour : ∀ a b : PathEntry, a ∈ l → b ∈ l →
      ((decide (a.key = b.key) || a.alias b) = false ↔ a.Apart b) := by
    intro a b ha hb
    rw [Bool.or_eq_false_iff, alias_eq_false_iff (heven a ha) (heven b hb),
      decide_eq_false_iff_not, PathEntry.Apart, ne_eq, parts_injective.eq_iff]
  rw [@any_zip_tail_eq_false _ (fun a b : PathEntry => a.key = b.key || a.alias b) l,
    List.IsChain.iff_of_mem_imp hneighbour]
  constructor
  · intro hchain
    have hne := linear_partsLe.pairwise_ne hsorted (hchain.imp fun _ _ h => h.1)
    have hagree := linear_textLe.pairwise_agree hsorted (hchain.imp fun _ _ h => h.2)
    exact hne.and hagree
  · exact List.Pairwise.isChain

/-- No file of the set has a member below it. -/
theorem fileParents_iff {l : List PathEntry} :
    (l.any fun entry => entry.parentKeys.any fun parent =>
        l.any fun other => parts other.key = parent && !other.isDir) = false ↔
      ∀ entry ∈ l, ∀ other ∈ l, parts other.key <+: parts entry.key →
        parts other.key ≠ parts entry.key → other.isDir = true := by
  simp only [any_eq_false, Bool.and_eq_true, decide_eq_true_eq, Bool.not_eq_true',
    any_eq_true, not_exists, not_and, PathEntry.parentKeys, mem_inits_tail_dropLast,
    Bool.not_eq_false]
  constructor
  · intro h entry hentry other hother hinit hne
    exact h entry hentry _ ⟨parts_ne_nil _, hinit, hne⟩ other hother rfl
  · rintro h entry hentry parent ⟨_, hinit, hne⟩ other hother rfl
    exact h entry hentry other hother hinit hne

/-- The keys of the set differ, and a directory of two members has one spelling. -/
def KeysApart (ck : CollisionKey) (entries : List (String × Bool)) : Prop :=
  entries.Pairwise fun l r => ck.key l.1 ≠ ck.key r.1 ∧
    Agree (fun e => parts (ck.key e.1)) (fun e => parts e.1) l r

/-- No file of the set stands, by key, above another member. -/
def NoFileAbove (ck : CollisionKey) (entries : List (String × Bool)) : Prop :=
  ∀ entry ∈ entries, ∀ other ∈ entries, parts (ck.key other.1) <+: parts (ck.key entry.1) →
    parts (ck.key other.1) ≠ parts (ck.key entry.1) → other.2 = true

open Classical in
/-- The answer in terms of the members of the set and of the pairs of them. -/
theorem validatePathTreeSet_eq (ck : CollisionKey) (entries : List (String × Bool)) :
    validatePathTreeSet ck.key entries =
      if ∀ entry ∈ entries, isSafeRelativePath entry.1 = true then
        if KeysApart ck entries then
          if NoFileAbove ck entries then .ok ()
          else .error "path set uses a file as a directory"
        else .error "unsafe or colliding path set"
      else .error "unsafe or colliding path set" := by
  let paths := entries.map (entryOf ck)
  let sorted := paths.insertionSort fun l r => l.le r = true
  have hperm : sorted.Perm paths := perm_insertionSort _ _
  have hwrong : (paths.any fun entry => !isSafeRelativePath entry.path) = false ↔
      ∀ entry ∈ entries, isSafeRelativePath entry.1 = true := by
    simp [paths, entryOf]
  change (if paths.any _ = true then _ else if (sorted.zip sorted.tail).any _ = true then _ else
    if sorted.any (fun entry => entry.parentKeys.any fun parent => sorted.any _) = true then _
    else _) = _
  by_cases hsafe : ∀ entry ∈ entries, isSafeRelativePath entry.1 = true
  · have heven : ∀ e ∈ sorted, e.Even := by
      intro e he
      obtain ⟨entry, hentry, rfl⟩ := mem_map.mp (hperm.mem_iff.mp he)
      change (parts (ck.key entry.1)).length = (parts entry.1).length
      rw [ck.parts_key _ (hsafe entry hentry), length_map]
    have hapart : sorted.Pairwise PathEntry.Apart ↔ KeysApart ck entries := by
      rw [hperm.pairwise_iff PathEntry.Apart.symm, pairwise_map]
      exact Pairwise.iff fun _ _ => and_congr parts_injective.ne_iff Iff.rfl
    have hpairs := (neighbours_iff heven (pairwise_insertionSort _ _)).trans hapart
    have hfiles : _ ↔ NoFileAbove ck entries := (@fileParents_iff sorted).trans (by
      simp only [hperm.mem_iff, paths, forall_mem_map]
      rfl)
    rw [hwrong.mpr hsafe, if_pos hsafe]
    simp only [Bool.true_and, Bool.false_eq_true, if_false, ← hpairs, ← hfiles,
      ← Bool.not_eq_true, ite_not]
  · rw [if_neg hsafe, if_pos (by rwa [← Bool.not_eq_false, hwrong])]

theorem compatible_of_validatePathTreeSet {entries : List (String × Bool)}
    (h : validatePathTreeSet ck.key entries = .ok ()) :
    (∀ entry ∈ entries, isSafeRelativePath entry.1 = true) ∧ entries.Pairwise (Compatible ck) := by
  rw [validatePathTreeSet_eq] at h
  split_ifs at h with hsafe hapart habove
  refine ⟨hsafe, hapart.imp_of_mem fun hl hr h => ?_⟩
  have hne := parts_injective.ne h.1
  exact ⟨h.1, h.2, fun hinit => habove _ hr _ hl hinit hne,
    fun hinit => habove _ hl _ hr hinit hne.symm⟩

/-- The order of the paths does not matter. -/
theorem validatePathTreeSet_perm {l r : List (String × Bool)} (h : l.Perm r) :
    validatePathTreeSet ck.key l = validatePathTreeSet ck.key r := by
  have hapart : KeysApart ck l ↔ KeysApart ck r :=
    h.pairwise_iff fun hlr => ⟨hlr.1.symm, hlr.2.symm⟩
  have habove : NoFileAbove ck l ↔ NoFileAbove ck r := by simp only [NoFileAbove, h.mem_iff]
  have hsafe : (∀ entry ∈ l, isSafeRelativePath entry.1 = true) ↔
      ∀ entry ∈ r, isSafeRelativePath entry.1 = true := by
    simp only [h.mem_iff]
  classical
  rw [validatePathTreeSet_eq, validatePathTreeSet_eq]
  exact if_congr hsafe (if_congr hapart (if_congr habove rfl rfl) rfl) rfl

/-- A set is accepted when its paths are safe, no two have one key, no file stands above another
member and directories with one key have one spelling; the answer is the same in any order. -/
theorem path_tree_sets_accepted (ck : CollisionKey) (entries : List (String × Bool)) :
    (validatePathTreeSet ck.key entries = .ok () ↔
      (∀ entry ∈ entries, isSafeRelativePath entry.1 = true) ∧
      (entries.Pairwise fun l r => ck.key l.1 ≠ ck.key r.1) ∧
      (∀ entry ∈ entries, ∀ other ∈ entries, parts (ck.key other.1) <+: parts (ck.key entry.1) →
        parts (ck.key other.1) ≠ parts (ck.key entry.1) → other.2 = true) ∧
      ∀ l ∈ entries, ∀ r ∈ entries, ∀ n,
        n ≤ (parts (ck.key l.1)).length → n ≤ (parts (ck.key r.1)).length →
        (parts (ck.key l.1)).take n = (parts (ck.key r.1)).take n →
        (parts l.1).take n = (parts r.1).take n) ∧
    ∀ other, entries.Perm other →
      validatePathTreeSet ck.key other = validatePathTreeSet ck.key entries := by
  refine ⟨?_, fun other hperm => (validatePathTreeSet_perm hperm).symm⟩
  have hagree : entries.Pairwise (Agree (fun e => parts (ck.key e.1)) fun e => parts e.1) ↔
      ∀ l ∈ entries, ∀ r ∈ entries,
        Agree (fun e => parts (ck.key e.1)) (fun e => parts e.1) l r := by
    constructor
    · intro h l hl r hr
      exact h.forall_of_forall (fun _ _ _ _ _ _ => rfl) hl hr
    · exact pairwise_of_forall_mem_list
  have hapart : KeysApart ck entries ↔ _ := pairwise_and_iff.trans (and_congr_right' hagree)
  have hanswer : validatePathTreeSet ck.key entries = .ok () ↔
      (∀ entry ∈ entries, isSafeRelativePath entry.1 = true) ∧ KeysApart ck entries ∧
        NoFileAbove ck entries := by
    rw [validatePathTreeSet_eq]
    split_ifs <;> simp_all
  rw [hanswer, hapart, and_assoc, and_comm (b := NoFileAbove ck entries)]
  rfl

end Policy

end Qcg
