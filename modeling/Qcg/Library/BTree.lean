import Qcg.Library.Json
import Std.Data.ExtTreeMap
import Std.Data.ExtTreeSet
import Mathlib.Tactic.Tauto

/-!
# Ordered maps and sets keyed by text

Names for the extensional tree maps and sets of the standard library at string
keys, and the passage from the member lists of JSON objects.
-/

/-- An ordered map with string keys; two maps with the same entries are equal. -/
abbrev BTreeMap (β : Type) := Std.ExtTreeMap String β compare

abbrev BTreeSet := Std.ExtTreeSet String compare

namespace BTreeMap

variable {β : Type}

/-- Later entries replace earlier ones, as in Rust's `extend`. -/
def extend (m : BTreeMap β) (entries : List (String × β)) : BTreeMap β :=
  entries.foldl (fun acc entry => acc.insert entry.1 entry.2) m

def values (m : BTreeMap β) : List β :=
  m.toList.map Prod.snd

/-- The entry with the least key, as Rust's `first_key_value`. -/
def first? (m : BTreeMap β) : Option (String × β) :=
  m.toList.head?

def ofMembers (members : Json.Members) : BTreeMap Json.Value :=
  extend ∅ members

theorem get_insert (m : BTreeMap β) (key : String) (value : β) (k : String) :
    (m.insert key value)[k]? = if k = key then some value else m[k]? := by
  rw [Std.ExtTreeMap.getElem?_insert]
  simp only [Std.compare_eq_iff_eq, eq_comm (a := key)]

theorem get_insert_of_ne (m : BTreeMap β) {key k : String} (value : β) (h : k ≠ key) :
    (m.insert key value)[k]? = m[k]? := by
  simp [get_insert, h]

theorem get_erase (m : BTreeMap β) (key k : String) :
    (m.erase key)[k]? = if k = key then none else m[k]? := by
  rw [Std.ExtTreeMap.getElem?_erase]
  simp only [Std.compare_eq_iff_eq, eq_comm (a := key)]

variable {m : BTreeMap β} {value : β}

theorem mem_values :
    value ∈ m.values ↔ ∃ key : String, m[key]? = some value := by
  simp only [values, List.mem_map, Prod.exists, Std.ExtTreeMap.mem_toList_iff_getElem?_eq_some,
    exists_eq_right]

variable {k : String} {entries : List (String × β)}

theorem get_extend_of_notMem (h : k ∉ entries.map Prod.fst) : (extend m entries)[k]? = m[k]? := by
  induction entries generalizing m with
  | nil => rfl
  | cons entry entries ih =>
    rw [List.map_cons, List.mem_cons, not_or] at h
    show (extend (m.insert entry.1 entry.2) entries)[k]? = _
    rw [ih h.2, get_insert_of_ne _ _ h.1]

theorem get_extend_of_mem (hnodup : (entries.map Prod.fst).Nodup) (h : (k, value) ∈ entries) :
    (extend m entries)[k]? = some value := by
  induction entries generalizing m with
  | nil => simp at h
  | cons entry entries ih =>
    rw [List.map_cons, List.nodup_cons] at hnodup
    show (extend (m.insert entry.1 entry.2) entries)[k]? = _
    rcases List.mem_cons.mp h with rfl | h
    · rw [get_extend_of_notMem hnodup.1]
      simp
    · exact ih hnodup.2 h

theorem contains_insert_of_contains (key : String) (value : β)
    (h : m.contains k = true) : (m.insert key value).contains k = true := by
  rw [Std.ExtTreeMap.contains_insert, h, Bool.or_true]

theorem contains_extend (entries : List (String × β))
    (h : m.contains k = true) : (extend m entries).contains k = true := by
  induction entries generalizing m with
  | nil => exact h
  | cons entry entries ih => exact ih (contains_insert_of_contains entry.1 entry.2 h)

/-- A map is rebuilt from its own entries. -/
theorem extend_empty_toList (m : BTreeMap β) : extend ∅ m.toList = m := by
  apply Std.ExtTreeMap.ext_getElem?
  intro k
  have hkeys : m.toList.map Prod.fst = m.keys := Std.ExtTreeMap.map_fst_toList_eq_keys
  cases hk : (m[k]? : Option β) with
  | none =>
    rw [get_extend_of_notMem]
    · simp
    · rw [hkeys, Std.ExtTreeMap.mem_keys]
      exact fun hmem => by simp [Std.ExtTreeMap.getElem?_eq_some_getElem hmem] at hk
  | some value =>
    refine get_extend_of_mem ?_ (Std.ExtTreeMap.mem_toList_iff_getElem?_eq_some.mpr hk)
    rw [hkeys]
    exact Std.ExtTreeMap.nodup_keys

/-- Only the last of two writes under one key remains. -/
theorem insert_insert_self (m : BTreeMap β) (key : String) (v w : β) :
    (m.insert key v).insert key w = m.insert key w := by
  apply Std.ExtTreeMap.ext_getElem?
  intro k
  simp only [get_insert]
  split_ifs <;> rfl

theorem get_filter (m : BTreeMap β) (f : String → β → Bool) (k : String) :
    (m.filter f)[k]? = m[k]?.filter (f k) := by
  rw [Std.ExtTreeMap.getElem?_filter']

theorem get_foldl_erase (m : BTreeMap β) (keys : List String) (k : String) :
    (keys.foldl (fun m key => m.erase key) m)[k]? = if k ∈ keys then none else m[k]? := by
  induction keys generalizing m with
  | nil => simp
  | cons key keys ih =>
    rw [List.foldl_cons, ih, get_erase]
    by_cases hkeys : k ∈ keys <;> by_cases hkey : k = key <;> simp [hkeys, hkey]

variable {v : β}

theorem first?_eq_some_iff :
    m.first? = some (k, v) ↔
      m[k]? = some v ∧
        ∀ (k' : String) (v' : β), m[k']? = some v' → k = k' ∨ compare k k' = .lt := by
  unfold first?
  have hsorted := Std.ExtTreeMap.ordered_keys_toList (t := m)
  constructor
  · intro h
    obtain ⟨rest, hrest⟩ := List.head?_eq_some_iff.mp h
    constructor
    · rw [← Std.ExtTreeMap.mem_toList_iff_getElem?_eq_some, hrest]
      simp
    · intro k' v' h'
      rw [← Std.ExtTreeMap.mem_toList_iff_getElem?_eq_some, hrest, List.mem_cons] at h'
      rw [hrest, List.pairwise_cons] at hsorted
      rcases h' with h' | h'
      · cases h'
        exact .inl rfl
      · exact .inr (hsorted.1 _ h')
  · rintro ⟨hk, hleast⟩
    rw [← Std.ExtTreeMap.mem_toList_iff_getElem?_eq_some] at hk
    cases hlist : m.toList with
    | nil => simp [hlist] at hk
    | cons first rest =>
      rw [hlist, List.pairwise_cons] at hsorted
      rw [hlist, List.mem_cons] at hk
      rcases hk with rfl | hk
      · rfl
      · have hfirst : m[first.1]? = some first.2 := by
          rw [← Std.ExtTreeMap.mem_toList_iff_getElem?_eq_some, hlist]
          simp
        have hlt := hsorted.1 _ hk
        rcases hleast first.1 first.2 hfirst with heq | hlt'
        · rw [← heq] at hlt
          simp at hlt
        · exact absurd hlt' (Std.OrientedCmp.not_lt_of_lt hlt)

theorem first?_eq_none_iff :
    m.first? = none ↔ ∀ k : String, (m[k]? : Option β) = none := by
  rw [first?, List.head?_eq_none_iff]
  constructor
  · intro h k
    cases hk : (m[k]? : Option β) with
    | none => rfl
    | some v =>
      rw [← Std.ExtTreeMap.mem_toList_iff_getElem?_eq_some, h] at hk
      simp at hk
  · intro h
    apply List.eq_nil_iff_forall_not_mem.mpr
    rintro ⟨k, v⟩ hmem
    rw [Std.ExtTreeMap.mem_toList_iff_getElem?_eq_some, h k] at hmem
    cases hmem

theorem isSome_first? (m : BTreeMap β) : m.first?.isSome = !m.isEmpty := by
  rw [first?, ← Std.ExtTreeMap.isEmpty_toList]
  cases m.toList <;> rfl

/-- The first entry stays first in any part of the map that still holds it. -/
theorem first?_of_le {m' : BTreeMap β} (h : m.first? = some (k, v)) (hk : m'[k]? = some v)
    (hle : ∀ (k' : String) (v' : β), m'[k']? = some v' → m[k']? = some v') :
    m'.first? = some (k, v) := by
  rw [first?_eq_some_iff] at h ⊢
  exact ⟨hk, fun k' v' h' => h.2 k' v' (hle k' v' h')⟩

def sumBy (f : β → Nat) (m : BTreeMap β) : Nat :=
  m.toList.foldr (fun entry sum => f entry.2 + sum) 0

theorem nodup_toList (m : BTreeMap β) : m.toList.Nodup := by
  have hkeys : (m.toList.map Prod.fst).Nodup := by
    rw [Std.ExtTreeMap.map_fst_toList_eq_keys]
    exact Std.ExtTreeMap.nodup_keys
  exact (List.pairwise_map.mp hkeys).imp fun h heq => h (congrArg Prod.fst heq)

theorem toList_perm {key : String} (h : m[key]? = some value) :
    m.toList.Perm ((key, value) :: (m.erase key).toList) := by
  have hnodup : ((key, value) :: (m.erase key).toList).Nodup := by
    refine List.nodup_cons.mpr ⟨?_, nodup_toList _⟩
    simp [Std.ExtTreeMap.mem_toList_iff_getElem?_eq_some]
  refine (List.perm_ext_iff_of_nodup (nodup_toList m) hnodup).mpr ?_
  rintro ⟨k, v⟩
  simp only [List.mem_cons, Prod.mk.injEq, Std.ExtTreeMap.mem_toList_iff_getElem?_eq_some,
    get_erase]
  by_cases hk : k = key
  · simp [hk, h, eq_comm]
  · simp [hk]

theorem sumBy_eq (f : β → Nat) (m : BTreeMap β) (key : String) :
    sumBy f m = (m[key]?.map f).getD 0 + sumBy f (m.erase key) := by
  cases hkey : (m[key]? : Option β) with
  | none =>
    have herase : m.erase key = m := by
      apply Std.ExtTreeMap.ext_getElem?
      intro k
      by_cases hk : k = key <;> simp [get_erase, hk, hkey]
    simp [herase]
  | some value =>
    rw [sumBy, (toList_perm hkey).foldr_eq' (by intros; omega) 0]
    rfl

theorem sumBy_insert (f : β → Nat) (m : BTreeMap β) (key : String) (value : β) :
    sumBy f (m.insert key value) = f value + sumBy f (m.erase key) := by
  have herase : (m.insert key value).erase key = m.erase key := by
    apply Std.ExtTreeMap.ext_getElem?
    intro k
    by_cases hk : k = key <;> simp [get_erase, get_insert, hk]
  rw [sumBy_eq f _ key, herase, get_insert, if_pos rfl]
  rfl

end BTreeMap

namespace BTreeSet

variable (s : BTreeSet)

theorem mem_insert (key k : String) : k ∈ s.insert key ↔ k = key ∨ k ∈ s := by
  rw [Std.ExtTreeSet.mem_insert, Std.compare_eq_iff_eq, eq_comm]

theorem mem_erase (key k : String) : k ∈ s.erase key ↔ k ≠ key ∧ k ∈ s := by
  rw [Std.ExtTreeSet.mem_erase, ne_eq, Std.compare_eq_iff_eq, eq_comm]

theorem mem_foldl_insert (keys : List String) (k : String) :
    k ∈ keys.foldl (fun s key => s.insert key) s ↔ k ∈ keys ∨ k ∈ s := by
  induction keys generalizing s with
  | nil => simp
  | cons key keys ih =>
    rw [List.foldl_cons, ih, mem_insert, List.mem_cons]
    tauto

theorem mem_foldl_erase (keys : List String) (k : String) :
    k ∈ keys.foldl (fun s key => s.erase key) s ↔ k ∉ keys ∧ k ∈ s := by
  induction keys generalizing s with
  | nil => simp
  | cons key keys ih =>
    rw [List.foldl_cons, ih, mem_erase, List.mem_cons]
    tauto

end BTreeSet
