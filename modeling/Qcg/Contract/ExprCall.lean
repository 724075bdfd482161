import Mathlib.Data.List.Sort
import Mathlib.Data.Sum.Order
import Qcg.Contract.ExprValue
import Qcg.Library.Checked
import Qcg.Library.Selection

/-!
# Operators and functions of the expression language

`evaluate_binary` and `evaluate_call` on values. Unicode case mapping, trimming, splitting and
replacing in strings and the arithmetic of doubles belong to the host; everything that compares
values is here.
-/

namespace Qcg.Expr

open List

inductive BinaryOperator where
  | or | and | eq | ne | gt | lt | ge | le | add | sub | mul | div | rem
  deriving DecidableEq, Repr

def BinaryOperator.text : BinaryOperator → String
  | .or => "||"
  | .and => "&&"
  | .eq => "=="
  | .ne => "!="
  | .gt => ">"
  | .lt => "<"
  | .ge => ">="
  | .le => "<="
  | .add => "+"
  | .sub => "-"
  | .mul => "*"
  | .div => "/"
  | .rem => "%"

/-- The functions that `evaluate_call` knows. -/
inductive Function where
  | len | contains | empty | default | upper | lower | trim | startsWith | endsWith | replace
  | split | join | first | last | keys | values | reverse | flatten | unique | sort | sum | min
  | max
  deriving DecidableEq, Repr

namespace Function

def name : Function → String
  | .len => "len"
  | .contains => "contains"
  | .empty => "empty"
  | .default => "default"
  | .upper => "upper"
  | .lower => "lower"
  | .trim => "trim"
  | .startsWith => "starts_with"
  | .endsWith => "ends_with"
  | .replace => "replace"
  | .split => "split"
  | .join => "join"
  | .first => "first"
  | .last => "last"
  | .keys => "keys"
  | .values => "values"
  | .reverse => "reverse"
  | .flatten => "flatten"
  | .unique => "unique"
  | .sort => "sort"
  | .sum => "sum"
  | .min => "min"
  | .max => "max"

def all : List Function :=
  [.len, .contains, .empty, .default, .upper, .lower, .trim, .startsWith, .endsWith, .replace,
    .split, .join, .first, .last, .keys, .values, .reverse, .flatten, .unique, .sort, .sum, .min,
    .max]

def ofName (name : String) : Option Function :=
  all.find? fun function => function.name == name

theorem ofName_name (function : Function) : ofName function.name = some function := by
  cases function <;> rfl

/-- What a call with another number of arguments is told. -/
def arityError (function : Function) : String :=
  function.name ++ "() requires " ++
    match function with
    | .contains | .default => "exactly two arguments"
    | .len | .empty => "exactly one argument"
    | .upper | .lower | .trim => "exactly one string"
    | .startsWith | .endsWith | .split => "exactly two strings"
    | .replace => "exactly three strings"
    | .join => "an array and an optional separator"
    | .keys | .values => "exactly one object"
    | .first | .last | .reverse | .flatten | .unique | .sort | .sum | .min | .max =>
      "exactly one array"

end Function

/-- What the evaluator takes from the standard library. A double operation gives `none` when its
result is not finite. -/
structure Host where
  conversion : Binary64.Conversion
  add : Binary64 → Binary64 → Option Binary64
  sub : Binary64 → Binary64 → Option Binary64
  mul : Binary64 → Binary64 → Option Binary64
  div : Binary64 → Binary64 → Option Binary64
  rem : Binary64 → Binary64 → Option Binary64
  zero : Binary64
  toUppercase : String → String
  toLowercase : String → String
  trim : String → String
  replace : String → String → String → String
  split : String → String → List String

section Evaluate

variable (host : Host)

def truthy : Value → Bool
  | .null => false
  | .bool b => b
  | .number n => (n.asF64 host.conversion).value ≠ 0
  | .string s => s ≠ ""
  | .array items => !items.isEmpty
  | .object members => !members.isEmpty

def asNumber (value : Value) (operator : String) : Except String Binary64 :=
  match value with
  | .number n => .ok (n.asF64 host.conversion)
  | _ => .error ("operator `" ++ operator ++ "` requires numbers")

def numberValue : Option Binary64 → Except String Value
  | some x => .ok (.number (.float x))
  | none => .error "numeric expression result is not finite"

def compareOrderedBy (ordering : Ordering) : BinaryOperator → Except String Bool
  | .gt => .ok (ordering == .gt)
  | .lt => .ok (ordering == .lt)
  | .ge => .ok (ordering != .lt)
  | .le => .ok (ordering != .gt)
  | operator => .error ("unknown ordering operator `" ++ operator.text ++ "`")

def compareOrder (left : Value) (operator : BinaryOperator) (right : Value) :
    Except String Bool :=
  match left, right with
  | .string l, .string r => compareOrderedBy (compare l r) operator
  | .number l, .number r =>
    match l.compareNumbers host.conversion r with
    | some ordering => compareOrderedBy ordering operator
    | none => .error "invalid right number"
  | .bool _, .bool _ => .error ("operator `" ++ operator.text ++ "` is not valid for booleans")
  | .null, .null => .error ("operator `" ++ operator.text ++ "` is not valid for null")
  | _, _ => .error ("type mismatch in expression with operator `" ++ operator.text ++ "`")

def arithmetic (left : Value) (operator : BinaryOperator) (right : Value) :
    Except String Value := do
  let l ← asNumber host left operator.text
  let r ← asNumber host right operator.text
  match operator with
  | .add => numberValue (host.add l r)
  | .sub => numberValue (host.sub l r)
  | .mul => numberValue (host.mul l r)
  | .div => if r.value = 0 then .error "division by zero" else numberValue (host.div l r)
  | .rem => if r.value = 0 then .error "remainder by zero" else numberValue (host.rem l r)
  | _ => .error ("unknown arithmetic operator `" ++ operator.text ++ "`")

def evaluateBinary (operator : BinaryOperator) (left right : Value) : Except String Value :=
  match operator with
  | .or => .ok (.bool (truthy host left || truthy host right))
  | .and => .ok (.bool (truthy host left && truthy host right))
  | .eq => .ok (.bool (valuesEqual host.conversion left right))
  | .ne => .ok (.bool (!valuesEqual host.conversion left right))
  | .gt | .lt | .ge | .le => (compareOrder host left operator right).map Value.bool
  | .add | .sub | .mul | .div | .rem => arithmetic host left operator right

def compareJsonScalar : Value → Value → Option Ordering
  | .number left, .number right => left.compareNumbers host.conversion right
  | .string left, .string right => some (compare left right)
  | .bool left, .bool right => some (compare left right)
  | _, _ => none

def isOrderableScalar (value : Value) : Bool :=
  (compareJsonScalar host value value).isSome

def unorderedArrayError (function : Function) : String :=
  function.name ++ "() requires an array of numbers, strings, or booleans"

/-- The check of `sort`: each element on its own and against the one before it. -/
def checkSort (previous : Option Value) : List Value → Except String Unit
  | [] => .ok ()
  | item :: rest =>
    if !isOrderableScalar host item then .error (unorderedArrayError .sort)
    else
      match previous with
      | none => checkSort (some item) rest
      | some before =>
        if (compareJsonScalar host before item).isNone then .error (unorderedArrayError .sort)
        else checkSort (some item) rest

/-- The order that `sort_by` is given; the sort is stable. -/
def inOrder (left right : Value) : Prop :=
  (compareJsonScalar host left right).getD .eq ≠ .gt

instance : DecidableRel (inOrder host) := fun left right =>
  inferInstanceAs (Decidable ((compareJsonScalar host left right).getD .eq ≠ .gt))

def sortItems (items : List Value) : Except String Value := do
  checkSort host none items
  .ok (.array (items.insertionSort (inOrder host)))

def extremeStep (function : Function) (wanted : Ordering) (selected : Option Value)
    (item : Value) : Except String (Option Value) :=
  if !isOrderableScalar host item then .error (unorderedArrayError function)
  else
    match selected with
    | none => .ok (some item)
    | some current =>
      match compareJsonScalar host item current with
      | none => .error (unorderedArrayError function)
      | some ordering => .ok (some (if ordering == wanted then item else current))

def extreme (items : List Value) (function : Function) (wanted : Ordering) :
    Except String Value := do
  let selected ← items.foldlM (extremeStep host function wanted) none
  .ok (selected.getD .null)

def uniqueStep (unique : List Value) (item : Value) : List Value :=
  if unique.any (valuesEqual host.conversion · item) then unique else unique ++ [item]

def joinValues (value : Value) (separator : String) : Except String Value :=
  match value with
  | .array items => do
    let parts ← items.mapM fun
      | .string part => .ok part
      | _ => .error "join() requires an array of strings"
    .ok (.string (separator.intercalate parts))
  | _ => .error "join() requires an array"

def flattenItem : Value → List Value
  | .array nested => nested
  | item => [item]

/-- One element of the loop of `sum`; a sum that is not finite stays so. -/
def sumStep (total : Option Binary64) (item : Value) : Except String (Option Binary64) := do
  let x ← asNumber host item "sum()"
  .ok (total.bind fun total => host.add total x)

def applyFunction : Function → List Value → Except String Value
  | .len, [.string s] => .ok (.number (.ofLength s.length))
  | .len, [.array items] => .ok (.number (.ofLength items.length))
  | .len, [.object members] => .ok (.number (.ofLength members.length))
  | .len, [_] => .error "len() requires a string, array, or object"
  | .contains, [.string container, .string needle] =>
    .ok (.bool (decide (needle.toList <:+: container.toList)))
  | .contains, [.array container, needle] =>
    .ok (.bool (container.any (valuesEqual host.conversion · needle)))
  | .contains, [.object container, .string needle] =>
    .ok (.bool (container.lookup needle).isSome)
  | .contains, [_, _] => .error "contains() received incompatible arguments"
  | .empty, [value] => .ok (.bool (!truthy host value))
  | .default, [.null, fallback] => .ok fallback
  | .default, [value, _] => .ok value
  | .upper, [.string s] => .ok (.string (host.toUppercase s))
  | .upper, [_] => .error "upper() requires a string"
  | .lower, [.string s] => .ok (.string (host.toLowercase s))
  | .lower, [_] => .error "lower() requires a string"
  | .trim, [.string s] => .ok (.string (host.trim s))
  | .trim, [_] => .error "trim() requires a string"
  | .startsWith, [.string s, .string start] =>
    .ok (.bool (start.toList.isPrefixOf s.toList))
  | .startsWith, [_, _] => .error "starts_with() requires two strings"
  | .endsWith, [.string s, .string ending] => .ok (.bool (ending.toList.isSuffixOf s.toList))
  | .endsWith, [_, _] => .error "ends_with() requires two strings"
  | .replace, [.string s, .string old, .string new] =>
    .ok (.string (host.replace s old new))
  | .replace, [_, _, _] => .error "replace() requires three strings"
  | .split, [.string s, .string separator] =>
    .ok (.array ((host.split s separator).map Value.string))
  | .split, [_, _] => .error "split() requires two strings"
  | .join, [value] => joinValues value ""
  | .join, [value, .string separator] => joinValues value separator
  | .join, [_, _] => .error "join() separator must be a string"
  | .first, [.array items] => .ok (items.head?.getD .null)
  | .first, [_] => .error "first() requires an array"
  | .last, [.array items] => .ok (items.getLast?.getD .null)
  | .last, [_] => .error "last() requires an array"
  | .keys, [.object members] => .ok (.array (members.map fun member => .string member.1))
  | .keys, [_] => .error "keys() requires an object"
  | .values, [.object members] => .ok (.array (members.map Prod.snd))
  | .values, [_] => .error "values() requires an object"
  | .reverse, [.array items] => .ok (.array items.reverse)
  | .reverse, [_] => .error "reverse() requires an array"
  | .flatten, [.array items] => .ok (.array (items.flatMap flattenItem))
  | .flatten, [_] => .error "flatten() requires an array"
  | .unique, [.array items] => .ok (.array (items.foldl (uniqueStep host) []))
  | .unique, [_] => .error "unique() requires an array"
  | .sort, [.array items] => sortItems host items
  | .sort, [_] => .error "sort() requires an array"
  | .sum, [.array items] => do
    let total ← items.foldlM (sumStep host) (some host.zero)
    numberValue total
  | .sum, [_] => .error "sum() requires an array"
  | .min, [.array items] => extreme host items .min .lt
  | .min, [_] => .error "min() requires an array"
  | .max, [.array items] => extreme host items .max .gt
  | .max, [_] => .error "max() requires an array"
  | function, _ => .error function.arityError

def evaluateCall (name : String) (arguments : List Value) : Except String Value :=
  match Function.ofName name with
  | some function => applyFunction host function arguments
  | none => .error ("unknown expression function `" ++ name ++ "`")

/-- A host with one of the allowed conversions and no arithmetic, for closed instances. -/
def plainHost : Host where
  conversion := .truncating
  add _ _ := none
  sub _ _ := none
  mul _ _ := none
  div _ _ := none
  rem _ _ := none
  zero := .truncate 0
  toUppercase s := s
  toLowercase s := s
  trim s := s
  replace s _ _ := s
  split s _ := [s]

theorem evaluateCall_name (function : Function) (arguments : List Value) :
    evaluateCall host function.name arguments = applyFunction host function arguments := by
  rw [evaluateCall, Function.ofName_name]

def Holds (operator : BinaryOperator) (a b : Number) : Prop :=
  evaluateBinary host operator (.number a) (.number b) = .ok (.bool true)

section

variable (a b : Number)

include a b

theorem compareOrder_number (operator : BinaryOperator) :
    compareOrder host (.number a) operator (.number b) =
      compareOrderedBy (compare a.value b.value) operator := by
  rw [compareOrder, Number.compareNumbers_eq]

theorem holds_le : Holds host .le a b ↔ a.value ≤ b.value := by
  rw [Holds, evaluateBinary, compareOrder_number]
  simp [compareOrderedBy, Except.map, compare_le_iff_le]

theorem holds_ge : Holds host .ge a b ↔ b.value ≤ a.value := by
  rw [Holds, evaluateBinary, compareOrder_number]
  simp [compareOrderedBy, Except.map, compare_ge_iff_ge]

theorem holds_lt : Holds host .lt a b ↔ a.value < b.value := by
  rw [Holds, evaluateBinary, compareOrder_number]
  simp [compareOrderedBy, Except.map, compare_lt_iff_lt]

theorem holds_gt : Holds host .gt a b ↔ b.value < a.value := by
  rw [Holds, evaluateBinary, compareOrder_number]
  simp [compareOrderedBy, Except.map, compare_gt_iff_gt]

theorem holds_eq : Holds host .eq a b ↔ a.value = b.value := by
  rw [Holds, evaluateBinary, valuesEqual, Number.compareNumbers_eq]
  simp

end

/-- The ordering operators are those of a total preorder whose classes are those of `==`. -/
structure OrderingLaws : Prop where
  refl : ∀ a, Holds host .le a a
  trans : ∀ a b c, Holds host .le a b → Holds host .le b c → Holds host .le a c
  total : ∀ a b, Holds host .le a b ∨ Holds host .le b a
  antisymm : ∀ a b, Holds host .le a b ∧ Holds host .le b a ↔ Holds host .eq a b
  ge : ∀ a b, Holds host .ge a b ↔ Holds host .le b a
  lt : ∀ a b, Holds host .lt a b ↔ ¬ Holds host .le b a
  gt : ∀ a b, Holds host .gt a b ↔ ¬ Holds host .le a b

theorem orderingLaws : OrderingLaws host where
  refl a := (holds_le host a a).mpr le_rfl
  trans a b c hab hbc := (holds_le host a c).mpr
    (((holds_le host a b).mp hab).trans ((holds_le host b c).mp hbc))
  total a b := by
    rw [holds_le, holds_le]
    exact le_total _ _
  antisymm a b := by rw [holds_le, holds_le, holds_eq, le_antisymm_iff]
  ge a b := by rw [holds_ge, holds_le]
  lt a b := by rw [holds_lt, holds_le, not_le]
  gt a b := by rw [holds_gt, holds_le, not_le]

/-- The items that no item before them equals, given those already passed. -/
def firstsAfter (equal : Value → Value → Bool) (earlier : List Value) : List Value → List Value
  | [] => []
  | item :: rest =>
    if earlier.any (equal · item) then firstsAfter equal (earlier ++ [item]) rest
    else item :: firstsAfter equal (earlier ++ [item]) rest

/-- Comparing with the kept items only is as good as comparing with all that were passed. -/
def Represents (kept earlier : List Value) : Prop :=
  ∀ item : Value, item.WellFormed →
    kept.any (valuesEqual host.conversion · item) =
      earlier.any (valuesEqual host.conversion · item)

variable {earlier : List Value}

theorem represents_uniqueStep {kept : List Value} {item : Value} (hwf : item.WellFormed)
    (hkept : ∀ x ∈ kept, x.WellFormed) (h : Represents host kept earlier) :
    Represents host (uniqueStep host kept item) (earlier ++ [item]) := by
  intro other hother
  rw [any_append, ← h other hother, uniqueStep]
  split_ifs with hseen
  · -- what equals the dropped item equals its representative
    obtain ⟨seen, hmem, hequal⟩ := any_eq_true.mp hseen
    by_cases hitem : valuesEqual host.conversion item other = true
    · have htrans := (valuesEqual_equivalence host.conversion).trans
        (x := ⟨seen, hkept seen hmem⟩) (y := ⟨item, hwf⟩) (z := ⟨other, hother⟩) hequal hitem
      have hany : kept.any (valuesEqual host.conversion · other) = true :=
        any_eq_true.mpr ⟨seen, hmem, htrans⟩
      simp [hany]
    · simp [hitem]
  · rw [any_append]

theorem foldl_uniqueStep {kept items : List Value} (hitems : ∀ x ∈ items, x.WellFormed)
    (hkept : ∀ x ∈ kept, x.WellFormed) (h : Represents host kept earlier) :
    items.foldl (uniqueStep host) kept =
      kept ++ firstsAfter (valuesEqual host.conversion) earlier items := by
  induction items generalizing kept earlier with
  | nil => simp [firstsAfter]
  | cons item rest ih =>
    have hwf : item.WellFormed := hitems item mem_cons_self
    have hrest : ∀ x ∈ rest, x.WellFormed := fun x hx => hitems x (mem_cons_of_mem _ hx)
    have hnext := represents_uniqueStep host hwf hkept h
    have hseen := h item hwf
    rw [foldl_cons, firstsAfter]
    by_cases hany : earlier.any (valuesEqual host.conversion · item) = true
    · have hstep : uniqueStep host kept item = kept := by
        rw [uniqueStep, hseen, if_pos hany]
      rw [hstep] at hnext ⊢
      rw [if_pos hany]
      exact ih hrest hkept hnext
    · have hstep : uniqueStep host kept item = kept ++ [item] := by
        rw [uniqueStep, hseen, if_neg hany]
      have hkept' : ∀ x ∈ kept ++ [item], x.WellFormed := by
        intro x hx
        rcases mem_append.mp hx with hx | hx
        · exact hkept x hx
        · rw [mem_singleton.mp hx]
          exact hwf
      rw [hstep] at hnext ⊢
      rw [if_neg hany, ih hrest hkept' hnext, append_assoc, singleton_append]

variable {items : List Value}

theorem applyFunction_unique (hitems : ItemsWellFormed items) :
    applyFunction host .unique [.array items] =
      .ok (.array (firstsAfter (valuesEqual host.conversion) [] items)) := by
  rw [applyFunction, foldl_uniqueStep host (itemsWellFormed_iff.mp hitems) (by simp)
    (fun _ _ => rfl), nil_append]

/-- Numbers are compared by what they denote, and equality, order, membership and
de-duplication follow that comparison. -/
theorem comparison_exact :
    (∀ a b : Number,
      a.compareNumbers host.conversion b = some (compare a.value b.value)) ∧
    (Equivalence fun a b : {v : Value // v.WellFormed} =>
      valuesEqual host.conversion a b = true) ∧
    OrderingLaws host ∧
    (∀ a b, evaluateBinary host .eq a b = .ok (.bool (valuesEqual host.conversion a b))) ∧
    (∀ items needle, evaluateCall host "contains" [.array items, needle] =
      .ok (.bool (items.any (valuesEqual host.conversion · needle)))) ∧
    (∀ items, ItemsWellFormed items → evaluateCall host "unique" [.array items] =
      .ok (.array (firstsAfter (valuesEqual host.conversion) [] items))) := by
  refine ⟨Number.compareNumbers_eq host.conversion, valuesEqual_equivalence host.conversion,
    orderingLaws host, fun _ _ => rfl, ?_, ?_⟩
  · intro items needle
    exact evaluateCall_name host .contains _
  · intro items hitems
    rw [← applyFunction_unique host hitems]
    exact evaluateCall_name host .unique _

theorem comparison_exact_nested :
    ItemsWellFormed [.array [.bool true], .null, .array [.bool true]] ∧
      evaluateCall plainHost "unique" [.array [.array [.bool true], .null, .array [.bool true]]] =
        .ok (.array [.array [.bool true], .null]) := by
  have hwf : ItemsWellFormed [.array [.bool true], .null, .array [.bool true]] := by
    simp [ItemsWellFormed, Value.WellFormed]
  refine ⟨hwf, ?_⟩
  rw [(comparison_exact plainHost).2.2.2.2.2 _ hwf]
  rfl

inductive ScalarKind where
  | number | string | bool
  deriving DecidableEq

def scalarKind : Value → Option ScalarKind
  | .number _ => some .number
  | .string _ => some .string
  | .bool _ => some .bool
  | _ => none

/-- A scalar in a linear order that is right within each kind. -/
def scalarKey : Value → ℚ ⊕ₗ String
  | .number n => toLex (.inl n.value)
  | .bool b => toLex (.inl (if b then 1 else 0))
  | .string s => toLex (.inr s)
  | _ => toLex (.inl 0)

variable {l r : Value}

theorem compareJsonScalar_of_kind {kind : ScalarKind} (hl : scalarKind l = some kind)
    (hr : scalarKind r = some kind) :
    compareJsonScalar host l r = some (compare (scalarKey l) (scalarKey r)) := by
  cases l <;> cases r <;> cases kind <;> simp [scalarKind] at hl hr
  case bool.bool.bool p q => cases p <;> cases q <;> rfl
  case number.number.number m n =>
    rw [compareJsonScalar, Number.compareNumbers_eq]
    exact congrArg some
      (Number.compare_congr Sum.Lex.inl_lt_inl_iff.symm Sum.Lex.inl_lt_inl_iff.symm)
  case string.string.string s t =>
    exact congrArg some
      (Number.compare_congr Sum.Lex.inr_lt_inr_iff.symm Sum.Lex.inr_lt_inr_iff.symm)

theorem isSome_compareJsonScalar_iff :
    (compareJsonScalar host l r).isSome ↔
      ∃ kind, scalarKind l = some kind ∧ scalarKind r = some kind := by
  constructor
  · intro h
    cases l <;> cases r <;> simp_all [compareJsonScalar, scalarKind]
  · rintro ⟨kind, hl, hr⟩
    rw [compareJsonScalar_of_kind host hl hr]
    rfl

theorem isOrderableScalar_iff {item : Value} :
    isOrderableScalar host item = true ↔ ∃ kind, scalarKind item = some kind := by
  rw [isOrderableScalar, isSome_compareJsonScalar_iff]
  simp only [and_self]

def Uniform (kind : ScalarKind) (items : List Value) : Prop :=
  ∀ item ∈ items, scalarKind item = some kind

theorem checkSort_some {before : Value} {kind : ScalarKind} (items : List Value)
    (hbefore : scalarKind before = some kind) :
    checkSort host (some before) items = .ok () ↔ Uniform kind items := by
  induction items generalizing before with
  | nil => simp [checkSort, Uniform]
  | cons item rest ih =>
    by_cases hitem : scalarKind item = some kind
    · have horderable : isOrderableScalar host item = true :=
        (isOrderableScalar_iff host).mpr ⟨kind, hitem⟩
      have hpair := compareJsonScalar_of_kind host hbefore hitem
      rw [checkSort]
      simp only [horderable, Bool.not_true, Bool.false_eq_true, if_false, hpair,
        Option.isNone_some]
      rw [ih hitem]
      simp [Uniform, hitem]
    · have hpair : (compareJsonScalar host before item).isNone = true := by
        rw [← Option.not_isSome, Bool.not_eq_true', ← Bool.not_eq_true,
          isSome_compareJsonScalar_iff]
        rintro ⟨other, hother, hsame⟩
        rw [hbefore] at hother
        exact hitem (hsame.trans hother.symm)
      simp [checkSort, hpair, Uniform, hitem]

theorem checkSort_none (items : List Value) :
    checkSort host none items = .ok () ↔ ∃ kind, Uniform kind items := by
  cases items with
  | nil => exact ⟨fun _ => ⟨.bool, by simp [Uniform]⟩, fun _ => rfl⟩
  | cons item rest =>
    rw [checkSort]
    cases hkind : scalarKind item with
    | none =>
      have hnot : ¬ isOrderableScalar host item = true := by
        rw [isOrderableScalar_iff]
        simp [hkind]
      simp [hnot, Uniform, hkind]
    | some kind =>
      have horderable : isOrderableScalar host item = true :=
        (isOrderableScalar_iff host).mpr ⟨kind, hkind⟩
      simp only [horderable, Bool.not_true, Bool.false_eq_true, if_false]
      rw [checkSort_some host rest hkind]
      simp [Uniform, hkind]

theorem inOrder_of_kind {kind : ScalarKind} (hl : scalarKind l = some kind)
    (hr : scalarKind r = some kind) :
    inOrder host l r ↔ scalarKey l ≤ scalarKey r := by
  rw [inOrder, compareJsonScalar_of_kind host hl hr, Option.getD_some, compare_le_iff_le]

theorem insertionSort_of_uniform {kind : ScalarKind} (h : Uniform kind items) :
    items.insertionSort (inOrder host) = Selection.sortBy scalarKey items := by
  have hmap := map_insertionSort (inOrder host) (fun a b => scalarKey a ≤ scalarKey b) id
    items fun a ha b hb => inOrder_of_kind host (h a ha) (h b hb)
  rw [map_id, map_id] at hmap
  exact hmap

theorem sortItems_eq_ok_iff {sorted : Value} :
    sortItems host items = .ok sorted ↔
      (∃ kind, Uniform kind items) ∧ sorted = .array (Selection.sortBy scalarKey items) := by
  rw [sortItems, Except.unit_bind_eq_ok, checkSort_none]
  constructor
  · rintro ⟨⟨kind, hkind⟩, hsorted⟩
    rw [insertionSort_of_uniform host hkind] at hsorted
    exact ⟨⟨kind, hkind⟩, (Except.ok.inj hsorted).symm⟩
  · rintro ⟨⟨kind, hkind⟩, rfl⟩
    exact ⟨⟨kind, hkind⟩, by rw [insertionSort_of_uniform host hkind]⟩

/-- The key whose least element the scan looks for. -/
def Prefers {κ : Type*} [LinearOrder κ] (key : Value → κ) (wanted : Ordering) : Prop :=
  ∀ a b, compare (scalarKey a) (scalarKey b) = wanted ↔ key a < key b

theorem prefers_lt : Prefers scalarKey .lt := fun _ _ => compare_lt_iff_lt

theorem prefers_gt : Prefers (fun a => OrderDual.toDual (scalarKey a)) .gt :=
  fun _ _ => compare_gt_iff_gt.trans OrderDual.toDual_lt_toDual.symm

section Scan

variable {κ : Type*} [LinearOrder κ] {key : Value → κ} {wanted : Ordering} {kind : ScalarKind}

theorem extremeStep_some (hprefers : Prefers key wanted) (function : Function)
    {current item : Value}
    (hcurrent : scalarKind current = some kind) (hitem : scalarKind item = some kind) :
    extremeStep host function wanted (some current) item =
      .ok (some (if key item < key current then item else current)) := by
  have horderable : isOrderableScalar host item = true :=
    (isOrderableScalar_iff host).mpr ⟨kind, hitem⟩
  have hpair := compareJsonScalar_of_kind host hitem hcurrent
  simp only [extremeStep, horderable, Bool.not_true, Bool.false_eq_true, if_false, hpair,
    beq_iff_eq, hprefers item current]

theorem extremeStep_other (function : Function) (wanted : Ordering) {current item : Value}
    (hcurrent : scalarKind current = some kind) (hitem : scalarKind item ≠ some kind) :
    extremeStep host function wanted (some current) item =
      .error (unorderedArrayError function) := by
  have hpair : compareJsonScalar host item current = none := by
    rw [← Option.not_isSome_iff_eq_none, isSome_compareJsonScalar_iff]
    rintro ⟨other, hsame, hother⟩
    rw [hcurrent] at hother
    exact hitem (hsame.trans hother.symm)
  simp [extremeStep, hpair]

section

variable (hprefers : Prefers key wanted)

include hprefers

theorem foldlM_extremeStep_uniform (function : Function) {current : Value} {result : Option Value}
    (hcurrent : scalarKind current = some kind)
    (h : items.foldlM (extremeStep host function wanted) (some current) = .ok result) :
    Uniform kind items := by
  induction items generalizing current with
  | nil => simp [Uniform]
  | cons item rest ih =>
    obtain ⟨next, hstep, hrest⟩ := Except.foldlM_cons_eq_ok.mp h
    by_cases hitem : scalarKind item = some kind
    · rw [extremeStep_some host hprefers function hcurrent hitem] at hstep
      cases hstep
      have hnext : scalarKind (if key item < key current then item else current) = some kind := by
        split_ifs <;> assumption
      have huniform := ih hnext hrest
      intro x hx
      rcases mem_cons.mp hx with rfl | hx
      · exact hitem
      · exact huniform x hx
    · rw [extremeStep_other host function wanted hcurrent hitem] at hstep
      cases hstep

theorem foldlM_extremeStep (function : Function) {current : Value} {seen : List Value}
    (hcurrent : scalarKind current = some kind) (hitems : Uniform kind items)
    (hleast : Selection.FirstLeast key current seen) :
    ∃ best, items.foldlM (extremeStep host function wanted) (some current) = .ok (some best) ∧
      Selection.FirstLeast key best (seen ++ items) := by
  induction items generalizing current seen with
  | nil => exact ⟨current, rfl, by simpa using hleast⟩
  | cons item rest ih =>
    have hitem : scalarKind item = some kind := hitems item mem_cons_self
    have hrest : Uniform kind rest := fun x hx => hitems x (mem_cons_of_mem _ hx)
    have hnext : scalarKind (if key item < key current then item else current) = some kind := by
      split_ifs <;> assumption
    obtain ⟨best, hfold, hbest⟩ := ih hnext hrest (hleast.concat item)
    refine ⟨best, ?_, by simpa using hbest⟩
    rw [foldlM_cons, extremeStep_some host hprefers function hcurrent hitem]
    exact hfold

theorem extreme_of_uniform (function : Function)
    {item : Value} {rest : List Value} (h : Uniform kind (item :: rest)) :
    ∃ best, extreme host (item :: rest) function wanted = .ok best ∧
      Selection.FirstLeast key best (item :: rest) := by
  have hitem : scalarKind item = some kind := h item mem_cons_self
  have hrest : Uniform kind rest := fun x hx => h x (mem_cons_of_mem _ hx)
  have horderable : isOrderableScalar host item = true :=
    (isOrderableScalar_iff host).mpr ⟨kind, hitem⟩
  obtain ⟨best, hfold, hbest⟩ := foldlM_extremeStep host hprefers function hitem hrest
    (Selection.firstLeast_singleton item)
  have hstart : extremeStep host function wanted none item = .ok (some item) := by
    simp [extremeStep, horderable]
  have hscan : (item :: rest).foldlM (extremeStep host function wanted) none = .ok (some best) :=
    Except.foldlM_cons_eq_ok.mpr ⟨some item, hstart, hfold⟩
  exact ⟨best, Except.bind_eq_ok.mpr ⟨some best, hscan, rfl⟩, hbest⟩

theorem uniform_of_extreme (function : Function) {best : Value}
    (h : extreme host items function wanted = .ok best) :
    ∃ kind, Uniform kind items := by
  cases items with
  | nil => exact ⟨.bool, by simp [Uniform]⟩
  | cons item rest =>
    obtain ⟨result, hfold, -⟩ := Except.bind_eq_ok.mp h
    obtain ⟨next, hstep, hrest⟩ := Except.foldlM_cons_eq_ok.mp hfold
    cases hkind : scalarKind item with
    | none =>
      have hnot : ¬ isOrderableScalar host item = true := by
        rw [isOrderableScalar_iff]
        simp [hkind]
      simp [extremeStep, hnot] at hstep
    | some kind =>
      have horderable : isOrderableScalar host item = true :=
        (isOrderableScalar_iff host).mpr ⟨kind, hkind⟩
      simp only [extremeStep, horderable, Bool.not_true, Bool.false_eq_true, if_false] at hstep
      cases hstep
      have huniform := foldlM_extremeStep_uniform host hprefers function hkind hrest
      refine ⟨kind, ?_⟩
      intro x hx
      rcases mem_cons.mp hx with rfl | hx
      · exact hkind
      · exact huniform x hx

end

end Scan

theorem evaluateBinary_le_of_kind {kind : ScalarKind} (hkind : kind ≠ .bool)
    (hl : scalarKind l = some kind) (hr : scalarKind r = some kind)
    (h : scalarKey l ≤ scalarKey r) : evaluateBinary host .le l r = .ok (.bool true) := by
  have hcompare := compareJsonScalar_of_kind host hl hr
  have hle : compare (scalarKey l) (scalarKey r) ≠ .gt := compare_le_iff_le.mpr h
  have horder : compareOrder host l .le r =
      compareOrderedBy (compare (scalarKey l) (scalarKey r)) .le := by
    cases l <;> cases r <;> cases kind <;> simp [scalarKind] at hl hr hkind
    case number.number.number m n =>
      rw [compareJsonScalar] at hcompare
      rw [compareOrder, hcompare]
    case string.string.string s t =>
      rw [compareJsonScalar, Option.some.injEq] at hcompare
      rw [compareOrder, hcompare]
  rw [evaluateBinary, horder, compareOrderedBy, bne_iff_ne.mpr hle]
  rfl

theorem valuesEqual_of_kind {kind : ScalarKind} (hl : scalarKind l = some kind)
    (hr : scalarKind r = some kind) :
    valuesEqual host.conversion l r = true ↔ scalarKey l = scalarKey r := by
  have hcompare := compareJsonScalar_of_kind host hl hr
  cases l <;> cases r <;> cases kind <;> simp [scalarKind] at hl hr
  case bool.bool.bool p q => cases p <;> cases q <;> simp [valuesEqual, scalarKey]
  case number.number.number m n =>
    rw [compareJsonScalar] at hcompare
    rw [valuesEqual, hcompare, beq_iff_eq, Option.some.injEq, compare_eq_iff_eq]
  case string.string.string s t => simp [valuesEqual, scalarKey]

/-- The order of a sorted array: that of `<=`, which booleans do not have. -/
def NonDecreasing : Value → Value → Prop
  | .bool p, .bool q => p = true → q = true
  | l, r => evaluateBinary host .le l r = .ok (.bool true)

theorem nonDecreasing_of_kind {kind : ScalarKind} (hl : scalarKind l = some kind)
    (hr : scalarKind r = some kind) (h : scalarKey l ≤ scalarKey r) : NonDecreasing host l r := by
  cases kind with
  | bool =>
    cases l <;> cases r <;> simp [scalarKind] at hl hr
    case bool.bool p q =>
      cases p <;> cases q <;> simp_all [NonDecreasing, scalarKey]
      exact absurd h (by norm_num)
  | number =>
    have hle := evaluateBinary_le_of_kind host (by simp) hl hr h
    cases l <;> simp [scalarKind] at hl
    exact hle
  | string =>
    have hle := evaluateBinary_le_of_kind host (by simp) hl hr h
    cases l <;> simp [scalarKind] at hl
    exact hle

def Succeeds (result : Except String Value) : Prop :=
  ∃ value, result = .ok value

theorem succeeds_sort_iff (items : List Value) :
    Succeeds (evaluateCall host "sort" [.array items]) ↔ ∃ kind, Uniform kind items := by
  have hcall : evaluateCall host "sort" [.array items] = sortItems host items :=
    evaluateCall_name host .sort _
  rw [hcall]
  constructor
  · rintro ⟨sorted, hsorted⟩
    exact ((sortItems_eq_ok_iff host).mp hsorted).1
  · intro h
    exact ⟨_, (sortItems_eq_ok_iff host).mpr ⟨h, rfl⟩⟩

theorem succeeds_extreme_iff {κ : Type*} [LinearOrder κ] {key : Value → κ} {wanted : Ordering}
    (hprefers : Prefers key wanted) (function : Function) (items : List Value) :
    Succeeds (extreme host items function wanted) ↔ ∃ kind, Uniform kind items := by
  constructor
  · rintro ⟨best, hbest⟩
    exact uniform_of_extreme host hprefers function hbest
  · rintro ⟨kind, hkind⟩
    cases items with
    | nil => exact ⟨.null, rfl⟩
    | cons item rest =>
      obtain ⟨best, hbest, -⟩ := extreme_of_uniform host hprefers function hkind
      exact ⟨best, hbest⟩

/-- `sort`, `min` and `max` accept the same arrays; the sort is stable and non-decreasing, with
the minimum first and a maximum last. -/
theorem sort_min_max_agree (items : List Value) :
    (Succeeds (evaluateCall host "sort" [.array items]) ↔
      Succeeds (evaluateCall host "min" [.array items])) ∧
    (Succeeds (evaluateCall host "sort" [.array items]) ↔
      Succeeds (evaluateCall host "max" [.array items])) ∧
    ∀ result, evaluateCall host "sort" [.array items] = .ok result →
      ∃ sorted, result = .array sorted ∧ sorted.Perm items ∧
        (∀ item ∈ items, sorted.filter (valuesEqual host.conversion item) =
          items.filter (valuesEqual host.conversion item)) ∧
        sorted.Pairwise (NonDecreasing host) ∧
        ∀ first last, sorted.head? = some first → sorted.getLast? = some last →
          evaluateCall host "min" [.array items] = .ok first ∧
          ∃ greatest, evaluateCall host "max" [.array items] = .ok greatest ∧
            valuesEqual host.conversion greatest last = true := by
  have hmin : evaluateCall host "min" [.array items] = extreme host items .min .lt :=
    evaluateCall_name host .min _
  have hmax : evaluateCall host "max" [.array items] = extreme host items .max .gt :=
    evaluateCall_name host .max _
  have hsort : evaluateCall host "sort" [.array items] = sortItems host items :=
    evaluateCall_name host .sort _
  rw [succeeds_sort_iff, hmin, hmax, succeeds_extreme_iff host prefers_lt,
    succeeds_extreme_iff host prefers_gt, hsort]
  refine ⟨Iff.rfl, Iff.rfl, ?_⟩
  intro result hresult
  obtain ⟨⟨kind, hkind⟩, rfl⟩ := (sortItems_eq_ok_iff host).mp hresult
  have hperm := Selection.sortBy_perm scalarKey items
  have hsorted : Uniform kind (Selection.sortBy scalarKey items) :=
    fun x hx => hkind x (hperm.mem_iff.mp hx)
  refine ⟨_, rfl, hperm, ?_, ?_, ?_⟩
  · intro item hitem
    refine @Selection.filter_sortBy _ _ _ _ _ (scalarKey item) _ ?_
    intro x hx
    rw [valuesEqual_of_kind host (hkind item hitem) (hkind x hx), eq_comm]
  · refine (Selection.sortBy_pairwise scalarKey items).imp_of_mem ?_
    intro a b ha hb hle
    exact nonDecreasing_of_kind host (hsorted a ha) (hsorted b hb) hle
  · intro first last hfirst hlast
    cases items with
    | nil => cases hfirst
    | cons item rest =>
      obtain ⟨least, hleast, hfirstLeast⟩ := extreme_of_uniform host prefers_lt .min hkind
      obtain ⟨greatest, hgreatest, hfirstGreatest⟩ := extreme_of_uniform host prefers_gt .max hkind
      rw [hfirstLeast.head?_sortBy, Option.some.injEq] at hfirst
      have hmem : last ∈ item :: rest := hperm.mem_iff.mp (List.mem_of_getLast? hlast)
      have hle := Selection.le_of_getLast?_sortBy hlast greatest hfirstGreatest.mem
      have hge : scalarKey last ≤ scalarKey greatest :=
        OrderDual.toDual_le_toDual.mp (hfirstGreatest.le hmem)
      refine ⟨hfirst ▸ hleast, greatest, hgreatest, ?_⟩
      rw [valuesEqual_of_kind host (hkind greatest hfirstGreatest.mem) (hkind last hmem)]
      exact le_antisymm hle hge

theorem sort_min_max_agree_booleans :
    evaluateCall plainHost "sort" [.array [.bool true, .bool false]] =
        .ok (.array [.bool false, .bool true]) ∧
      evaluateCall plainHost "min" [.array [.bool true, .bool false]] = .ok (.bool false) := by
  have hsort : evaluateCall plainHost "sort" [.array [.bool true, .bool false]] =
      .ok (.array [.bool false, .bool true]) := rfl
  obtain ⟨sorted, hsorted, -, -, -, hends⟩ :=
    (sort_min_max_agree plainHost [.bool true, .bool false]).2.2 _ hsort
  cases hsorted
  exact ⟨hsort, (hends (.bool false) (.bool true) rfl rfl).1⟩

/-- Booleans are sorted, but the language has no `<=` between them. -/
theorem sorted_booleans_not_ordered :
    evaluateCall plainHost "sort" [.array [.bool true, .bool false]] =
        .ok (.array [.bool false, .bool true]) ∧
      evaluateBinary plainHost .le (.bool false) (.bool true) =
        .error "operator `<=` is not valid for booleans" :=
  ⟨rfl, rfl⟩

end Evaluate

end Qcg.Expr
