import Mathlib.Data.Prod.Lex
import Mathlib.Data.List.Nodup
import Mathlib.Data.String.Basic
import Mathlib.Data.List.Sort
import Qcg.Library.Binary64

/-!
# Values of the expression language

The numbers and values that expressions compute with, as `serde_json` holds them, their exact
comparison and the one equality that the operators and functions share.
-/

namespace Qcg.Expr

open List

/-- A JSON number: an integer that an `i64` or a `u64` holds, or a finite double. -/
inductive Number where
  | int (n : Int) (low : -2 ^ 63 ≤ n) (high : n < 2 ^ 64)
  | float (x : Binary64)

namespace Number

/-- The exact number that is denoted. -/
def value : Number → ℚ
  | .int n _ _ => n
  | .float x => x.value

/-- The length of a collection, as a `u64`. -/
def ofLength (n : Nat) : Number :=
  .int (n % 2 ^ 64 : Nat) (by omega) (by omega)

section Compare

variable (conversion : Binary64.Conversion)

def asF64 : Number → Binary64
  | .int n _ _ => conversion.convert n
  | .float x => x

/-- The first magnitude an `i128` cannot hold. -/
def i128Limit : ℚ :=
  2 ^ 127

def exactInteger : Number → Option Int
  | .int n _ _ => some n
  | .float x =>
    if x.value.den ≠ 1 ∨ x.value < -i128Limit ∨ x.value ≥ i128Limit then none
    else some x.value.num

def compareNumbers (left right : Number) : Option Ordering :=
  match left.exactInteger, right.exactInteger with
  | some l, some r => some (compare l r)
  | _, _ => some (compare (left.asF64 conversion).value (right.asF64 conversion).value)

variable {a : Number} {n : Int}

theorem exactInteger_eq_some (h : a.exactInteger = some n) : a.value = n := by
  cases a with
  | int m low high =>
    cases h
    rfl
  | float x =>
    simp only [exactInteger] at h
    split_ifs at h with hout
    push Not at hout
    cases h
    exact (Rat.coe_int_num_of_den_eq_one hout.1).symm

theorem exactInteger_eq_none (h : a.exactInteger = none) :
    ∃ x : Binary64, a = .float x ∧
      (x.value.den ≠ 1 ∨ x.value < -i128Limit ∨ x.value ≥ i128Limit) := by
  cases a with
  | int m low high => cases h
  | float x =>
    refine ⟨x, rfl, ?_⟩
    by_contra hin
    simp [exactInteger, hin] at h

/-- Two pairs in the same strict order compare alike. -/
theorem compare_congr {α β : Type*} [LinearOrder α] [LinearOrder β] {a b : α} {c d : β}
    (hlt : a < b ↔ c < d) (hgt : b < a ↔ d < c) : compare a b = compare c d := by
  rcases lt_trichotomy c d with h | h | h
  · rw [compare_lt_iff_lt.mpr h, compare_lt_iff_lt.mpr (hlt.mpr h)]
  · have heq : a = b := le_antisymm (not_lt.mp (mt hgt.mp (by simp [h])))
      (not_lt.mp (mt hlt.mp (by simp [h])))
    rw [compare_eq_iff_eq.mpr h, compare_eq_iff_eq.mpr heq]
  · rw [compare_gt_iff_gt.mpr h, compare_gt_iff_gt.mpr (hgt.mpr h)]

theorem convert_order (low : -2 ^ 63 ≤ n) (high : n < 2 ^ 64) {x : Binary64}
    (h : x.value.den ≠ 1 ∨ x.value < -i128Limit ∨ x.value ≥ i128Limit) :
    ((conversion.convert n).value < x.value ↔ (n : ℚ) < x.value) ∧
      (x.value < (conversion.convert n).value ↔ x.value < (n : ℚ)) := by
  obtain ⟨hlow, hhigh⟩ := conversion.bounds low high.le
  have hlowq : (-2 ^ 63 : ℚ) ≤ n := by exact_mod_cast low
  have hhighq : (n : ℚ) < 2 ^ 64 := by exact_mod_cast high
  rcases h with hfraction | hbelow | habove
  · exact conversion.compare_small low high.le
      (Binary64.abs_value_lt_of_den_ne_one hfraction) hfraction
  · have hfar : x.value < -2 ^ 64 := by
      unfold i128Limit at hbelow
      linarith
    constructor <;> constructor <;> intro h <;> linarith
  · have hfar : 2 ^ 64 < x.value := by
      unfold i128Limit at habove
      linarith
    constructor <;> constructor <;> intro h <;> linarith

theorem compareNumbers_eq (a b : Number) :
    compareNumbers conversion a b = some (compare a.value b.value) := by
  rw [compareNumbers]
  cases ha : a.exactInteger with
  | some m =>
    cases hb : b.exactInteger with
    | some n =>
      rw [exactInteger_eq_some ha, exactInteger_eq_some hb]
      exact congrArg some (compare_congr Int.cast_lt.symm Int.cast_lt.symm)
    | none =>
      obtain ⟨y, rfl, hy⟩ := exactInteger_eq_none hb
      cases a with
      | int n low high =>
        obtain ⟨hlt, hgt⟩ := convert_order conversion low high hy
        exact congrArg some (compare_congr hlt hgt)
      | float x => rfl
  | none =>
    obtain ⟨x, rfl, hx⟩ := exactInteger_eq_none ha
    cases b with
    | int n low high =>
      obtain ⟨hlt, hgt⟩ := convert_order conversion low high hx
      exact congrArg some (compare_congr hgt hlt)
    | float y => rfl

end Compare

end Number

/-- A JSON value; the members of an object are listed in the order of their keys. -/
inductive Value where
  | null
  | bool (b : Bool)
  | number (n : Number)
  | string (s : String)
  | array (items : List Value)
  | object (members : List (String × Value))

section Equal

variable (conversion : Binary64.Conversion)

mutual

/-- The one expression equality. -/
def valuesEqual : Value → Value → Bool
  | .number left, .number right => left.compareNumbers conversion right == some .eq
  | .array left, .array right => left.length == right.length && itemsEqual left right
  | .object left, .object right => left.length == right.length && membersEqual left right
  -- the remaining pairs are compared as they are
  | .null, .null => true
  | .bool left, .bool right => left == right
  | .string left, .string right => left == right
  | _, _ => false

def itemsEqual : List Value → List Value → Bool
  | left :: lefts, right :: rights => valuesEqual left right && itemsEqual lefts rights
  | _, _ => true

def membersEqual : List (String × Value) → List (String × Value) → Bool
  | [], _ => true
  | (key, value) :: rest, right =>
    (match right.lookup key with
      | some other => valuesEqual value other
      | none => false) && membersEqual rest right

end

end Equal

/-! ### What a value stands for

Two values are equal when they stand for the same thing: numbers by what they denote, objects by
the value at each key. -/

mutual

/-- Each object holds a key once. -/
def Value.WellFormed : Value → Prop
  | .array items => ItemsWellFormed items
  | .object members => (members.map Prod.fst).Nodup ∧ MembersWellFormed members
  | _ => True

def ItemsWellFormed : List Value → Prop
  | [] => True
  | item :: rest => item.WellFormed ∧ ItemsWellFormed rest

def MembersWellFormed : List (String × Value) → Prop
  | [] => True
  | (_, value) :: rest => value.WellFormed ∧ MembersWellFormed rest

end

inductive Meaning where
  | null
  | bool (b : Bool)
  | number (q : ℚ)
  | string (s : String)
  | array (items : List Meaning)
  | object (member : String → Option Meaning)

mutual

def Value.meaning : Value → Meaning
  | .null => .null
  | .bool b => .bool b
  | .number n => .number n.value
  | .string s => .string s
  | .array items => .array (itemMeanings items)
  | .object members => .object (memberMeaning members)

def itemMeanings : List Value → List Meaning
  | [] => []
  | item :: rest => item.meaning :: itemMeanings rest

def memberMeaning : List (String × Value) → String → Option Meaning
  | [], _ => none
  | (key, value) :: rest, k => if k == key then some value.meaning else memberMeaning rest k

end

theorem itemMeanings_eq_map (items : List Value) :
    itemMeanings items = items.map Value.meaning := by
  induction items with
  | nil => rfl
  | cons item rest ih => rw [itemMeanings, ih, map_cons]

theorem memberMeaning_eq (members : List (String × Value)) (k : String) :
    memberMeaning members k = (members.lookup k).map Value.meaning := by
  induction members with
  | nil => rfl
  | cons member rest ih =>
    obtain ⟨key, value⟩ := member
    rw [memberMeaning, lookup_cons]
    cases k == key
    · exact ih
    · rfl

theorem itemsWellFormed_iff {items : List Value} :
    ItemsWellFormed items ↔ ∀ item ∈ items, item.WellFormed := by
  induction items with
  | nil => simp [ItemsWellFormed]
  | cons item rest ih => simp [ItemsWellFormed, ih]

variable {members : List (String × Value)}
variable {k : String} {v : Value}

theorem MembersWellFormed.lookup (h : MembersWellFormed members) (hv : members.lookup k = some v) :
    v.WellFormed := by
  induction members with
  | nil => cases hv
  | cons member rest ih =>
    obtain ⟨key, value⟩ := member
    rw [lookup_cons] at hv
    cases hk : k == key <;> rw [hk] at hv
    · exact ih h.2 hv
    · cases hv
      exact h.1

theorem isSome_lookup_iff (members : List (String × Value)) (k : String) :
    (members.lookup k).isSome ↔ k ∈ members.map Prod.fst := by
  simp

theorem lookup_of_mem (hnodup : (members.map Prod.fst).Nodup) (h : (k, v) ∈ members) :
    members.lookup k = some v := by
  induction members with
  | nil => cases h
  | cons member rest ih =>
    obtain ⟨key, value⟩ := member
    rw [map_cons, nodup_cons] at hnodup
    rw [lookup_cons]
    rcases mem_cons.mp h with heq | hrest
    · cases heq
      simp
    · have hne : k ≠ key := by
        rintro rfl
        exact hnodup.1 (mem_map.mpr ⟨(k, v), hrest, rfl⟩)
      rw [beq_false_of_ne hne]
      exact ih hnodup.2 hrest

theorem mem_of_lookup (h : members.lookup k = some v) : (k, v) ∈ members := by
  obtain ⟨before, after, rfl, -⟩ := lookup_eq_some_iff.mp h
  simp

/-- Objects of the same size agree at every key when one agrees with the other at its own keys. -/
theorem memberMeaning_eq_iff {left right : List (String × Value)}
    (hleft : (left.map Prod.fst).Nodup) (hright : (right.map Prod.fst).Nodup) :
    memberMeaning left = memberMeaning right ↔
      left.length = right.length ∧
        ∀ k v, (k, v) ∈ left → ∃ w, right.lookup k = some w ∧ v.meaning = w.meaning := by
  constructor
  · intro h
    have hat : ∀ k, (left.lookup k).map Value.meaning = (right.lookup k).map Value.meaning := by
      intro k
      rw [← memberMeaning_eq, ← memberMeaning_eq, h]
    have hkeys : (left.map Prod.fst).Perm (right.map Prod.fst) := by
      rw [perm_ext_iff_of_nodup hleft hright]
      intro k
      rw [← isSome_lookup_iff, ← isSome_lookup_iff]
      have hsome := congrArg Option.isSome (hat k)
      rw [Option.isSome_map, Option.isSome_map] at hsome
      rw [hsome]
    refine ⟨by simpa using hkeys.length_eq, ?_⟩
    intro k v hmem
    have hk := hat k
    rw [lookup_of_mem hleft hmem] at hk
    obtain ⟨w, hw, hmeaning⟩ := Option.map_eq_some_iff.mp hk.symm
    exact ⟨w, hw, hmeaning.symm⟩
  · rintro ⟨hlength, hagree⟩
    have hsubset : left.map Prod.fst ⊆ right.map Prod.fst := by
      intro k hk
      obtain ⟨⟨_, v⟩, hmem, rfl⟩ := mem_map.mp hk
      obtain ⟨w, hw, -⟩ := hagree _ v hmem
      rw [← isSome_lookup_iff, hw]
      rfl
    -- as many keys, each once: the inclusion is an equality
    have hkeys : (left.map Prod.fst).Perm (right.map Prod.fst) :=
      (hleft.subperm hsubset).perm_of_length_le (by simp [hlength])
    funext k
    rw [memberMeaning_eq, memberMeaning_eq]
    cases hk : left.lookup k with
    | some v =>
      obtain ⟨w, hw, hmeaning⟩ := hagree k v (mem_of_lookup hk)
      rw [hw, Option.map_some, Option.map_some, hmeaning]
    | none =>
      have habsent : ¬ (right.lookup k).isSome := by
        rw [isSome_lookup_iff, ← hkeys.mem_iff, ← isSome_lookup_iff, hk]
        exact Bool.false_ne_true
      rw [Option.not_isSome_iff_eq_none.mp habsent]

section Equal

variable (conversion : Binary64.Conversion)

mutual

theorem valuesEqual_iff : ∀ a b : Value, a.WellFormed → b.WellFormed →
    (valuesEqual conversion a b = true ↔ a.meaning = b.meaning)
  | .number m, .number n, _, _ => by
    rw [valuesEqual, Number.compareNumbers_eq]
    simp [Value.meaning]
  | .array left, .array right, hl, hr => by
    rw [valuesEqual, Bool.and_eq_true, beq_iff_eq, Value.meaning, Value.meaning,
      Meaning.array.injEq]
    constructor
    · rintro ⟨hlength, hitems⟩
      exact (itemsEqual_iff left right hl hr hlength).mp hitems
    · intro hmeaning
      have hlength : left.length = right.length := by
        simpa [itemMeanings_eq_map] using congrArg List.length hmeaning
      exact ⟨hlength, (itemsEqual_iff left right hl hr hlength).mpr hmeaning⟩
  | .object left, .object right, hl, hr => by
    rw [valuesEqual, Bool.and_eq_true, beq_iff_eq, Value.meaning, Value.meaning,
      Meaning.object.injEq, memberMeaning_eq_iff hl.1 hr.1,
      membersEqual_iff left right hl.2 hr.2]
  | .null, .null, _, _ => by simp [valuesEqual]
  | .bool p, .bool q, _, _ => by simp [valuesEqual, Value.meaning]
  | .string s, .string t, _, _ => by simp [valuesEqual, Value.meaning]
  | .null, .bool _, _, _ | .null, .number _, _, _ | .null, .string _, _, _
  | .null, .array _, _, _ | .null, .object _, _, _ => by simp [valuesEqual, Value.meaning]
  | .bool _, .null, _, _ | .bool _, .number _, _, _ | .bool _, .string _, _, _
  | .bool _, .array _, _, _ | .bool _, .object _, _, _ => by simp [valuesEqual, Value.meaning]
  | .number _, .null, _, _ | .number _, .bool _, _, _ | .number _, .string _, _, _
  | .number _, .array _, _, _ | .number _, .object _, _, _ => by simp [valuesEqual, Value.meaning]
  | .string _, .null, _, _ | .string _, .bool _, _, _ | .string _, .number _, _, _
  | .string _, .array _, _, _ | .string _, .object _, _, _ => by simp [valuesEqual, Value.meaning]
  | .array _, .null, _, _ | .array _, .bool _, _, _ | .array _, .number _, _, _
  | .array _, .string _, _, _ | .array _, .object _, _, _ => by simp [valuesEqual, Value.meaning]
  | .object _, .null, _, _ | .object _, .bool _, _, _ | .object _, .number _, _, _
  | .object _, .string _, _, _ | .object _, .array _, _, _ => by
    simp [valuesEqual, Value.meaning]

theorem itemsEqual_iff : ∀ left right : List Value,
    ItemsWellFormed left → ItemsWellFormed right → left.length = right.length →
    (itemsEqual conversion left right = true ↔ itemMeanings left = itemMeanings right)
  | [], [], _, _, _ => by simp [itemsEqual]
  | l :: lefts, r :: rights, hl, hr, hlength => by
    rw [itemsEqual, Bool.and_eq_true, itemMeanings, itemMeanings, List.cons.injEq,
      valuesEqual_iff l r hl.1 hr.1,
      itemsEqual_iff lefts rights hl.2 hr.2 (Nat.succ.inj hlength)]
  | [], _ :: _, _, _, hlength => by cases hlength
  | _ :: _, [], _, _, hlength => by cases hlength

theorem membersEqual_iff : ∀ left right : List (String × Value),
    MembersWellFormed left → MembersWellFormed right →
    (membersEqual conversion left right = true ↔
      ∀ k v, (k, v) ∈ left → ∃ w, right.lookup k = some w ∧ v.meaning = w.meaning)
  | [], right, _, _ => by simp [membersEqual]
  | (key, value) :: rest, right, hl, hr => by
    rw [membersEqual, Bool.and_eq_true, membersEqual_iff rest right hl.2 hr]
    have hhead : (match right.lookup key with
        | some other => valuesEqual conversion value other
        | none => false) = true ↔
          ∃ w, right.lookup key = some w ∧ value.meaning = w.meaning := by
      cases hk : right.lookup key with
      | none => simp
      | some other => simp [valuesEqual_iff value other hl.1 (hr.lookup hk)]
    rw [hhead]
    constructor
    · rintro ⟨hfirst, hrest⟩ k v hmem
      rcases mem_cons.mp hmem with heq | hmem
      · cases heq
        exact hfirst
      · exact hrest k v hmem
    · intro h
      exact ⟨h key value mem_cons_self, fun k v hmem => h k v (mem_cons_of_mem _ hmem)⟩

end

/-- On well-formed values the equality is the kernel of `meaning`. -/
theorem valuesEqual_equivalence :
    Equivalence fun a b : {v : Value // v.WellFormed} => valuesEqual conversion a b = true where
  refl a := (valuesEqual_iff conversion a a a.2 a.2).mpr rfl
  symm {a b} h := (valuesEqual_iff conversion b a b.2 a.2).mpr
    ((valuesEqual_iff conversion a b a.2 b.2).mp h).symm
  trans {a b c} hab hbc := (valuesEqual_iff conversion a c a.2 c.2).mpr
    (((valuesEqual_iff conversion a b a.2 b.2).mp hab).trans
      ((valuesEqual_iff conversion b c b.2 c.2).mp hbc))

end Equal

end Qcg.Expr
