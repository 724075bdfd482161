import Mathlib.Algebra.Ring.Int.Defs
import Mathlib.Algebra.Ring.Nat
import Mathlib.Data.List.Basic
import Mathlib.Order.Basic

/-!
# JSON values

The value type of a JSON library with integer numbers and objects kept as member
lists in key order. The accessors carry the names of the usual Rust library: a
missing key or a value of another kind reads as `none`, never as an error.
-/

namespace Json

open List

/-- A JSON value. Objects are lists of members in the order they are written. -/
inductive Value where
  | null
  | bool (b : Bool)
  | num (n : Int)
  | str (s : String)
  | arr (items : List Value)
  | obj (members : List (String × Value))
deriving Inhabited, Repr

abbrev Members := List (String × Value)

namespace Value

mutual

def decEq : (v w : Value) → Decidable (v = w)
  | null, null => isTrue rfl
  | bool a, bool b => decidable_of_iff (a = b) (by simp)
  | num a, num b => decidable_of_iff (a = b) (by simp)
  | str a, str b => decidable_of_iff (a = b) (by simp)
  | arr a, arr b =>
      match decEqList a b with
      | isTrue h => isTrue (by rw [h])
      | isFalse h => isFalse (by simpa using h)
  | obj a, obj b =>
      match decEqMembers a b with
      | isTrue h => isTrue (by rw [h])
      | isFalse h => isFalse (by simpa using h)
  | null, bool _ | null, num _ | null, str _ | null, arr _ | null, obj _ => isFalse (by simp)
  | bool _, null | bool _, num _ | bool _, str _ | bool _, arr _ | bool _, obj _ =>
      isFalse (by simp)
  | num _, null | num _, bool _ | num _, str _ | num _, arr _ | num _, obj _ => isFalse (by simp)
  | str _, null | str _, bool _ | str _, num _ | str _, arr _ | str _, obj _ => isFalse (by simp)
  | arr _, null | arr _, bool _ | arr _, num _ | arr _, str _ | arr _, obj _ => isFalse (by simp)
  | obj _, null | obj _, bool _ | obj _, num _ | obj _, str _ | obj _, arr _ => isFalse (by simp)

def decEqList : (vs ws : List Value) → Decidable (vs = ws)
  | [], [] => isTrue rfl
  | [], _ :: _ | _ :: _, [] => isFalse (by simp)
  | v :: vs, w :: ws =>
      match decEq v w, decEqList vs ws with
      | isTrue h, isTrue h' => isTrue (by rw [h, h'])
      | isFalse h, _ => isFalse (by simp [h])
      | _, isFalse h => isFalse (by simp [h])

def decEqMembers : (vs ws : Members) → Decidable (vs = ws)
  | [], [] => isTrue rfl
  | [], _ :: _ | _ :: _, [] => isFalse (by simp)
  | (k, v) :: vs, (l, w) :: ws =>
      if hk : k = l then
        match decEq v w, decEqMembers vs ws with
        | isTrue h, isTrue h' => isTrue (by rw [hk, h, h'])
        | isFalse h, _ => isFalse (by simp [h])
        | _, isFalse h => isFalse (by simp [h])
      else isFalse (by simp [hk])

end

instance : DecidableEq Value := decEq

end Value

namespace Members

def get (members : Members) (key : String) : Option Value :=
  List.lookup key members

/-- Writing a member at its place in key order, replacing an earlier one. -/
def insert : Members → String → Value → Members
  | [], key, value => [(key, value)]
  | (k, v) :: rest, key, value =>
      match compare key k with
      | .lt => (key, value) :: (k, v) :: rest
      | .eq => (key, value) :: rest
      | .gt => (k, v) :: insert rest key value

def remove (members : Members) (key : String) : Members :=
  members.filter fun member => member.1 != key

def modify (members : Members) (key : String) (f : Value → Value) : Members :=
  members.map fun member => if member.1 = key then (member.1, f member.2) else member

/-- The object with the given entries, a later one replacing an earlier one. -/
def ofList (entries : List (String × Value)) : Members :=
  entries.foldl (fun members entry => insert members entry.1 entry.2) []

@[simp] theorem get_nil (key : String) : get [] key = none := rfl

theorem get_cons (k : String) (v : Value) (rest : Members) (key : String) :
    get ((k, v) :: rest) key = if key = k then some v else get rest key := by
  by_cases h : key = k
  · simp [get, h]
  · simp [get, lookup_cons, beq_eq_false_iff_ne.mpr h, h]

variable {p : String × Value → Bool} {members : Members}

theorem mem_of_get {key : String} {value : Value} (h : get members key = some value) :
    (key, value) ∈ members := by
  induction members with
  | nil => cases h
  | cons member rest ih =>
    obtain ⟨k, v⟩ := member
    rw [get_cons] at h
    split_ifs at h with hkey
    · cases h
      simp [hkey]
    · exact mem_cons_of_mem _ (ih h)

theorem get_insert (members : Members) (key : String) (value : Value) (k : String) :
    get (insert members key value) k = if k = key then some value else get members k := by
  induction members with
  | nil => simp [insert, get_cons]
  | cons member rest ih =>
    obtain ⟨k', v'⟩ := member
    unfold insert
    cases h : compare key k' with
    | lt => simp [get_cons]
    | eq =>
      obtain rfl := Std.LawfulEqCmp.eq_of_compare h
      by_cases hk : k = key <;> simp [get_cons, hk]
    | gt =>
      have hne : key ≠ k' := by
        rintro rfl
        simp at h
      by_cases hk : k = k'
      · subst hk
        simp [get_cons, hne.symm]
      · simp [get_cons, hk, ih]

@[simp] theorem get_insert_self (members : Members) (key : String) (value : Value) :
    get (insert members key value) key = some value := by
  simp [get_insert]

theorem get_insert_of_ne (members : Members) {key k : String} (value : Value) (h : k ≠ key) :
    get (insert members key value) k = get members k := by
  simp [get_insert, h]

theorem get_map (members : Members) (f : String → Value → Value) (key : String) :
    get (members.map fun member => (member.1, f member.1 member.2)) key =
      (get members key).map (f key) := by
  induction members with
  | nil => rfl
  | cons member rest ih =>
    obtain ⟨k', v'⟩ := member
    rw [map_cons, get_cons, get_cons, ih]
    split_ifs with hkey
    · rw [hkey, Option.map_some]
    · rfl

theorem map_eq_map_iff {members : Members} {f g : String → Value → Value} :
    (members.map fun member => (member.1, f member.1 member.2)) =
        (members.map fun member => (member.1, g member.1 member.2)) ↔
      ∀ key value, (key, value) ∈ members → f key value = g key value := by
  rw [map_inj_left]
  constructor
  · intro h key value hmem
    exact (Prod.mk.inj (h _ hmem)).2
  · rintro h ⟨key, value⟩ hmem
    rw [h key value hmem]

theorem insert_map (members : Members) (f : String → Value → Value) (key : String)
    (value : Value) :
    insert (members.map fun member => (member.1, f member.1 member.2)) key (f key value) =
      (insert members key value).map fun member => (member.1, f member.1 member.2) := by
  induction members with
  | nil => rfl
  | cons member rest ih =>
    obtain ⟨k', v'⟩ := member
    rw [map_cons, insert, insert]
    cases compare key k' with
    | lt => rfl
    | eq => rfl
    | gt => exact congrArg _ ih

theorem ofList_map (entries : List (String × Value)) (f : String → Value → Value) :
    ofList (entries.map fun entry => (entry.1, f entry.1 entry.2)) =
      (ofList entries).map fun member => (member.1, f member.1 member.2) := by
  have hfold : ∀ members : Members,
      (entries.map fun entry => (entry.1, f entry.1 entry.2)).foldl
          (fun members entry => insert members entry.1 entry.2)
          (members.map fun member => (member.1, f member.1 member.2)) =
        (entries.foldl (fun members entry => insert members entry.1 entry.2) members).map
          fun member => (member.1, f member.1 member.2) := by
    induction entries with
    | nil => exact fun _ => rfl
    | cons entry rest ih =>
      intro members
      rw [map_cons, foldl_cons, foldl_cons, ← ih, insert_map]
  exact hfold []

theorem modify_eq_map (members : Members) (key : String) (f : Value → Value) :
    modify members key f =
      members.map fun member => (member.1, if member.1 = key then f member.2 else member.2) := by
  refine map_congr_left fun member _ => ?_
  split_ifs <;> rfl

theorem modify_modify (members : Members) (key : String) (f g : Value → Value) :
    modify (modify members key g) key f = modify members key fun value => f (g value) := by
  rw [modify, modify, modify, map_map]
  refine map_congr_left fun member _ => ?_
  by_cases hkey : member.1 = key <;> simp [hkey]

theorem modify_eq_modify_iff {key : String} {f g : Value → Value} :
    modify members key f = modify members key g ↔
      ∀ value, (key, value) ∈ members → f value = g value := by
  rw [modify_eq_map, modify_eq_map,
    map_eq_map_iff (f := fun k value => if k = key then f value else value)
      (g := fun k value => if k = key then g value else value)]
  constructor
  · intro h value hmem
    simpa using h key value hmem
  · intro h k value hmem
    split_ifs with hkey
    · subst hkey
      exact h value hmem
    · rfl

theorem get_remove (members : Members) (key k : String) :
    get (remove members key) k = if k = key then none else get members k := by
  induction members with
  | nil => simp [remove]
  | cons member rest ih =>
    obtain ⟨k', v'⟩ := member
    by_cases hremoved : k' = key
    · have hrest : remove ((k', v') :: rest) key = remove rest key := by simp [remove, hremoved]
      rw [hrest, ih, get_cons]
      split_ifs with hkey hfirst
      · rfl
      · exact absurd (hfirst.trans hremoved) hkey
      · rfl
    · have hrest : remove ((k', v') :: rest) key = (k', v') :: remove rest key := by
        simp [remove, hremoved]
      rw [hrest, get_cons, get_cons, ih]
      split_ifs with hfirst hkey
      · exact absurd (hfirst.symm.trans hkey) hremoved
      · rfl
      · rfl
      · rfl

/-- A test that takes a key leaves its member readable. -/
theorem get_filter (members : Members) (key : String) (hp : ∀ v, p (key, v) = true) :
    get (members.filter p) key = get members key := by
  induction members with
  | nil => rfl
  | cons member rest ih =>
    obtain ⟨k', v'⟩ := member
    rw [filter_cons, get_cons]
    split_ifs with htaken hkey hkey
    · rw [get_cons, if_pos hkey]
    · rw [get_cons, if_neg hkey, ih]
    · rw [← hkey] at htaken
      exact absurd (hp v') htaken
    · exact ih

/-- A test that rejects a key does not see it written. -/
theorem filter_insert (members : Members) (key : String) (value : Value)
    (hp : ∀ v, p (key, v) = false) :
    (insert members key value).filter p = members.filter p := by
  induction members with
  | nil => simp [insert, hp]
  | cons member rest ih =>
    obtain ⟨k', v'⟩ := member
    unfold insert
    cases h : compare key k' with
    | lt => simp [filter_cons, hp]
    | eq =>
      obtain rfl := Std.LawfulEqCmp.eq_of_compare h
      simp [hp]
    | gt => simp [filter_cons, ih]

theorem get_foldl_insert (entries : List (String × Value)) (members : Members) (key : String) :
    get (entries.foldl (fun members entry => insert members entry.1 entry.2) members) key =
      (get entries.reverse key).or (get members key) := by
  induction entries generalizing members with
  | nil => simp
  | cons entry rest ih =>
    have hlast : get (rest.reverse ++ [entry]) key =
        (get rest.reverse key).or (get [entry] key) :=
      lookup_append
    rw [foldl_cons, ih, get_insert, reverse_cons, hlast,
      show entry = (entry.1, entry.2) from rfl, get_cons]
    cases get rest.reverse key with
    | some value => simp
    | none => by_cases h : key = entry.1 <;> simp [h]

/-- Reading a built object finds the last entry under the key. -/
theorem get_ofList (entries : List (String × Value)) (key : String) :
    get (ofList entries) key = get entries.reverse key := by
  rw [ofList, get_foldl_insert]
  simp

end Members

namespace Value

/-- Object member access; every other kind of value has no members. -/
def get : Value → String → Option Value
  | obj members, key => Members.get members key
  | _, _ => none

/-- Indexing reads an absent member as `null`. -/
def index (v : Value) (key : String) : Value :=
  (v.get key).getD null

def asU64 : Value → Option Nat
  | num (.ofNat n) => if n < 2 ^ 64 then some n else none
  | _ => none

def asI64 : Value → Option Int
  | num n => if -2 ^ 63 ≤ n ∧ n < 2 ^ 63 then some n else none
  | _ => none

def asStr : Value → Option String
  | str s => some s
  | _ => none

def asBool : Value → Option Bool
  | bool b => some b
  | _ => none

def asObject : Value → Option Members
  | obj members => some members
  | _ => none

def asArray : Value → Option (List Value)
  | arr items => some items
  | _ => none

def isNull : Value → Bool
  | null => true
  | _ => false

def isString (v : Value) : Bool := v.asStr.isSome

def isObject (v : Value) : Bool := v.asObject.isSome

/-- The string member under a key, the access nearly every reader makes. -/
def getStr (v : Value) (key : String) : Option String :=
  (v.get key).bind asStr

def getU64 (v : Value) (key : String) : Option Nat :=
  (v.get key).bind asU64

@[simp] theorem get_obj (members : Members) (key : String) :
    (obj members).get key = Members.get members key := rfl

@[simp] theorem asStr_str (s : String) : (str s).asStr = some s := rfl

variable {n : Nat}

theorem asU64_natCast (h : n < 2 ^ 64) : (num n).asU64 = some n :=
  if_pos h

theorem asU64_eq_some {v : Value} (h : v.asU64 = some n) : v = num n ∧ n < 2 ^ 64 := by
  unfold asU64 at h
  split at h
  · split_ifs at h with hm
    cases h
    exact ⟨rfl, hm⟩
  · cases h

mutual

/-- A function applied to every string of a value; keys stay. -/
def mapTexts (f : String → String) : Value → Value
  | str s => str (f s)
  | arr items => arr (mapItemTexts f items)
  | obj members => obj (mapMemberTexts f members)
  | v => v

def mapItemTexts (f : String → String) : List Value → List Value
  | [] => []
  | item :: items => mapTexts f item :: mapItemTexts f items

def mapMemberTexts (f : String → String) : Members → Members
  | [] => []
  | (key, value) :: members => (key, mapTexts f value) :: mapMemberTexts f members

end

mutual

def texts : Value → List String
  | str s => [s]
  | arr items => itemTexts items
  | obj members => memberTexts members
  | _ => []

def itemTexts : List Value → List String
  | [] => []
  | item :: items => texts item ++ itemTexts items

def memberTexts : Members → List String
  | [] => []
  | (_, value) :: members => texts value ++ memberTexts members

end

theorem mapMemberTexts_eq_map (f : String → String) (members : Members) :
    mapMemberTexts f members = members.map fun member => (member.1, mapTexts f member.2) := by
  induction members with
  | nil => rfl
  | cons member members ih => rw [mapMemberTexts, ih, map_cons]

section

variable (f g : String → String)

mutual

theorem mapTexts_comp : (v : Value) → mapTexts f (mapTexts g v) = mapTexts (f ∘ g) v
  | null | bool _ | num _ | str _ => rfl
  | arr items => by rw [mapTexts, mapTexts, mapTexts, mapItemTexts_comp items]
  | obj members => by rw [mapTexts, mapTexts, mapTexts, mapMemberTexts_comp members]

theorem mapItemTexts_comp : (items : List Value) →
    mapItemTexts f (mapItemTexts g items) = mapItemTexts (f ∘ g) items
  | [] => rfl
  | item :: items => by
    rw [mapItemTexts, mapItemTexts, mapItemTexts, mapTexts_comp item, mapItemTexts_comp items]

theorem mapMemberTexts_comp : (members : Members) →
    mapMemberTexts f (mapMemberTexts g members) = mapMemberTexts (f ∘ g) members
  | [] => rfl
  | (key, value) :: members => by
    rw [mapMemberTexts, mapMemberTexts, mapMemberTexts, mapTexts_comp value,
      mapMemberTexts_comp members]

end

mutual

/-- Two functions agree on a value exactly when they agree on its strings. -/
theorem mapTexts_eq_iff : (v : Value) →
    (mapTexts f v = mapTexts g v ↔ ∀ s ∈ texts v, f s = g s)
  | null | bool _ | num _ => by simp [mapTexts, texts]
  | str s => by simp [mapTexts, texts]
  | arr items => by rw [mapTexts, mapTexts, arr.injEq, mapItemTexts_eq_iff items, texts]
  | obj members => by rw [mapTexts, mapTexts, obj.injEq, mapMemberTexts_eq_iff members, texts]

theorem mapItemTexts_eq_iff : (items : List Value) →
    (mapItemTexts f items = mapItemTexts g items ↔ ∀ s ∈ itemTexts items, f s = g s)
  | [] => by simp [mapItemTexts, itemTexts]
  | item :: items => by
    rw [mapItemTexts, mapItemTexts, List.cons.injEq, mapTexts_eq_iff item,
      mapItemTexts_eq_iff items, itemTexts, forall_mem_append]

theorem mapMemberTexts_eq_iff : (members : Members) →
    (mapMemberTexts f members = mapMemberTexts g members ↔
      ∀ s ∈ memberTexts members, f s = g s)
  | [] => by simp [mapMemberTexts, memberTexts]
  | (key, value) :: members => by
    rw [mapMemberTexts, mapMemberTexts, List.cons.injEq, Prod.mk.injEq,
      eq_self_iff_true, true_and, mapTexts_eq_iff value, mapMemberTexts_eq_iff members,
      memberTexts, forall_mem_append]

end

end

end Value

end Json
