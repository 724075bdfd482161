import Qcg.Contract.ValueBag
import Qcg.Library.Checked
import Qcg.Library.Splitting
import Mathlib.Data.List.Nodup
import Mathlib.Data.List.Pairwise

/-!
# Resolving run inputs

`resolveInputs` walks the input stages in order. A stage whose `when` holds for the inputs
collected so far fills the defaults of its fields and checks their values. Admission
stores the resolved map and the engine resolves it once more, so what matters is whether
the second walk finds anything left to do.
-/

namespace Qcg

open List
open Except (bind_eq_ok foldlM_cons_eq_ok)

open Json (Value)

inductive FieldType where
  | string
  | text
  | number
  | boolean
  | select
  | multiselect
  | list
  | file
  | json
  | naturalLanguage
  | custom (kind : String)
deriving DecidableEq, Repr

/-- The parts of an input field that validation reads. -/
structure InputField where
  id : String
  kind : FieldType
  required : Bool := false
  default : Option Value := none
  pattern : Option String := none
  options : List String := []
  optionsFrom : Option String := none
  minItems : Option Nat := none
  schema : Option Value := none
deriving DecidableEq

structure InputStage where
  id : String
  when_ : Option String := none
  fields : List InputField := []
deriving DecidableEq

structure RuntimeLimits where
  fileInputLimitBytes : Option Nat := none
  inputTotalLimitBytes : Option Nat := none
  fileCountLimit : Option Nat := none
deriving DecidableEq

/-- What input validation reads of a manifest. -/
structure InputContract where
  stages : List InputStage
  /-- The forms of `on_exhausted` questions, with the node that asks. -/
  askForms : List (String × List InputField) := []
  runtime : RuntimeLimits := {}

inductive ContractError where
  | invalid (message : String)
  | payloadTooLarge (field : String) (actualBytes limitBytes : Nat)
deriving DecidableEq

inductive FileValueError where
  | tooLarge (actualBytes limitBytes : Nat)
  | other (message : String)
deriving DecidableEq

/-- The libraries that input validation calls: expressions, file values, regular
expressions, JSON Schema and the JSON writer. -/
structure InputApi where
  evalExpr : String → ValueBag → Except String Bool
  /-- The name of a file value, within a size limit. -/
  fileName : Value → Option Nat → Except FileValueError String
  regex : String → Except String (String → Bool)
  schemaIsBounded : Value → Except String Unit
  /-- A compiled schema reports the place and the text of a violation. -/
  validator : Value → Except String (Value → Option (String × String))
  /-- The serialized size, or the size reached when the limit was passed. -/
  serializedSize : Value → Option Nat → Except Nat Nat

namespace InputApi

variable (api : InputApi)

def evalBool (values : BTreeMap Value) : Option String → Except String Bool
  | none => .ok true
  | some expr => api.evalExpr expr (ValueBag.withInputs values)

/-- A text against the pattern of its field; `subject` names the text in the error. -/
def checkPattern (field : InputField) (subject text : String) : Except ContractError Unit :=
  match field.pattern with
  | none => .ok ()
  | some pattern =>
      match api.regex pattern with
      | .error error =>
          .error (.invalid ("input `" ++ field.id ++ "` has invalid pattern `" ++ pattern ++
            "`: " ++
            error))
      | .ok isMatch =>
          if isMatch text then .ok ()
          else .error (.invalid ("input `" ++ field.id ++ "`" ++ subject ++
            " does not match pattern `" ++ pattern ++ "`"))

def checkFile (runtime : RuntimeLimits) (field : InputField) (value : Value) :
    Except ContractError Unit :=
  match api.fileName value runtime.fileInputLimitBytes with
  | .error (.tooLarge actualBytes limitBytes) =>
      .error (.payloadTooLarge field.id actualBytes limitBytes)
  | .error (.other error) =>
      .error (.invalid ("input `" ++ field.id ++ "` is an invalid file value: " ++ error))
  | .ok name => checkPattern api field " file name" name

def checkText (field : InputField) (value : Value) : Except ContractError Unit :=
  match value.asStr with
  | none => .error (.invalid ("input `" ++ field.id ++ "` must be a string"))
  | some text => checkPattern api field "" text

end InputApi

def isNumber : Value → Bool
  | .num _ => true
  | _ => false

def checkSelect (field : InputField) (value : Value) : Except ContractError Unit :=
  match value.asStr with
  | none => .error (.invalid ("input `" ++ field.id ++ "` must be a string"))
  | some text =>
      if field.options = [] ∨ text ∈ field.options then .ok ()
      else .error (.invalid ("input `" ++ field.id ++ "` must be one of: " ++
        ", ".intercalate field.options))

def checkItem (field : InputField) (item : Value) : Except ContractError Unit :=
  match item.asStr with
  | none => .error (.invalid ("input `" ++ field.id ++ "` multiselect items must be strings"))
  | some text =>
      if text ∈ field.options then .ok ()
      else .error (.invalid ("input `" ++ field.id ++ "` item `" ++ text ++ "` must be one of: " ++
        ", ".intercalate field.options))

def checkItems (field : InputField) (value : Value) : Except ContractError Unit :=
  match value.asArray with
  | none => .error (.invalid ("input `" ++ field.id ++ "` must be an array"))
  | some items =>
      if field.minItems.any fun minItems => items.length < minItems then
        .error (.invalid ("input `" ++ field.id ++ "` must contain at least " ++
          toString (field.minItems.getD 0) ++ " item(s)"))
      else if field.kind = .multiselect ∧ field.options ≠ [] then items.forM (checkItem field)
      else .ok ()

namespace InputApi

variable (api : InputApi)

def checkKind (runtime : RuntimeLimits) (field : InputField) (value : Value) :
    Except ContractError Unit :=
  match field.kind with
  | .json | .custom _ => .ok ()
  | .file => checkFile api runtime field value
  | .string | .text | .naturalLanguage => checkText api field value
  | .number =>
      if isNumber value then .ok ()
      else .error (.invalid ("input `" ++ field.id ++ "` must be a number"))
  | .boolean =>
      if value.asBool.isSome then .ok ()
      else .error (.invalid ("input `" ++ field.id ++ "` must be a boolean"))
  | .select => checkSelect field value
  | .multiselect | .list => checkItems field value

def checkSchema (field : InputField) (value : Value) : Except ContractError Unit :=
  match field.schema with
  | none => .ok ()
  | some schema =>
      match api.validator schema with
      | .error error =>
          .error (.invalid ("input `" ++ field.id ++ "` has invalid or unsafe JSON Schema: " ++
            error))
      | .ok validate =>
          match validate value with
          | some (path, error) =>
              .error (.invalid ("input `" ++ field.id ++
                "` does not satisfy its JSON Schema at `" ++
                path ++ "`: " ++ error))
          | none => .ok ()

def validateFieldValue (runtime : RuntimeLimits) (field : InputField) (value : Value) :
    Except ContractError Unit := do
  checkKind api runtime field value
  checkSchema api field value

def addSize (runtime : RuntimeLimits) (total : Nat) (entry : String × Value) :
    Except ContractError Nat :=
  match api.serializedSize entry.2 runtime.fileInputLimitBytes, runtime.fileInputLimitBytes with
  | .ok bytes, _ =>
      if 2 ^ 64 ≤ total + bytes then .error (.invalid "inputs size overflowed usize")
      else
        match runtime.inputTotalLimitBytes with
        | some limitBytes =>
            if limitBytes < total + bytes then
              .error (.payloadTooLarge "inputs" (total + bytes) limitBytes)
            else .ok (total + bytes)
        | none => .ok (total + bytes)
  | .error actualBytes, some limitBytes =>
      .error (.payloadTooLarge entry.1 actualBytes limitBytes)
  | .error _, none =>
      .error (.invalid ("input `" ++ entry.1 ++ "` size overflowed the field limit"))

def validateInputSizes (runtime : RuntimeLimits) (values : BTreeMap Value) :
    Except ContractError Unit := do
  let _ ← values.toList.foldlM (addSize api runtime) 0

def fillDefault (values : BTreeMap Value) (field : InputField) : BTreeMap Value :=
  match (values[field.id]? : Option Value), field.default with
  | none, some default => values.insert field.id default
  | _, _ => values

def countFile (runtime : RuntimeLimits) (field : InputField) (fileInputs : Nat) :
    Except ContractError Nat :=
  if field.kind = .file then
    if 2 ^ 64 ≤ fileInputs + 1 then .error (.invalid "input file count overflowed usize")
    else
      match runtime.fileCountLimit with
      | some limit =>
          if limit < fileInputs + 1 then
            .error (.invalid ("input file count " ++ toString (fileInputs + 1) ++
              " exceeds runtime.file_count_limit " ++ toString limit))
          else .ok (fileInputs + 1)
      | none => .ok (fileInputs + 1)
  else .ok fileInputs

/-- One field of an active stage; carries the inputs and the number of files so far. -/
def resolveField (runtime : RuntimeLimits) (acc : BTreeMap Value × Nat) (field : InputField) :
    Except ContractError (BTreeMap Value × Nat) :=
  let values := fillDefault acc.1 field
  match (values[field.id]? : Option Value) with
  | none =>
      if field.required then
        .error (.invalid ("required input `" ++ field.id ++ "` is missing"))
      else .ok (values, acc.2)
  | some value => do
      validateFieldValue api runtime field value
      let fileInputs ← countFile runtime field acc.2
      return (values, fileInputs)

def resolveStage (runtime : RuntimeLimits) (acc : BTreeMap Value × Nat) (stage : InputStage) :
    Except ContractError (BTreeMap Value × Nat) :=
  match evalBool api acc.1 stage.when_ with
  | .error error =>
      .error (.invalid ("invalid stage `" ++ stage.id ++ "` when expression: " ++ error))
  | .ok false => .ok acc
  | .ok true => stage.fields.foldlM (resolveField api runtime) acc

def checkKnown (stages : List InputStage) (id : String) : Except ContractError Unit :=
  if stages.any fun stage => stage.fields.any fun field => field.id = id then .ok ()
  else .error (.invalid ("unknown input `" ++ id ++ "`"))

def resolveInputs (contract : InputContract) (values : BTreeMap Value) :
    Except ContractError (BTreeMap Value) := do
  validateInputSizes api contract.runtime values
  let (values, _) ← contract.stages.foldlM (resolveStage api contract.runtime) (values, 0)
  values.keys.forM (checkKnown contract.stages)
  validateInputSizes api contract.runtime values
  return values

def isBlank (s : String) : Bool :=
  s.toList.all Splitting.isWhitespace

def validateNamespacedId (value : String) : Except String Unit :=
  if value = "" then .error "identifier must not be empty"
  else if value.toUTF8.data.toList.all fun b =>
      (97 ≤ b && b ≤ 122) || (48 ≤ b && b ≤ 57) || b = 95 || b = 46 then .ok ()
  else .error ("identifier `" ++ value ++
    "` must use only lowercase ASCII letters, digits, `_`, and `.`")

def checkCustom (scope : String) (field : InputField) : Except ContractError Unit :=
  match field.kind with
  | .custom kind =>
      match validateNamespacedId kind with
      | .error error =>
          .error (.invalid (scope ++ " `" ++ field.id ++ "` has invalid custom field type: " ++
            error))
      | .ok _ =>
          if field.schema.isNone then
            .error (.invalid (scope ++ " `" ++ field.id ++ "` custom field type `" ++ kind ++
              "` requires schema"))
          else .ok ()
  | _ => .ok ()

def checkBoundedSchema (scope : String) (field : InputField) : Except ContractError Unit :=
  match field.schema with
  | none => .ok ()
  | some schema =>
      match api.schemaIsBounded schema with
      | .error error =>
          .error (.invalid (scope ++ " `" ++ field.id ++ "` has invalid or unsafe JSON Schema: " ++
            error))
      | .ok _ => .ok ()

def checkDefault (runtime : RuntimeLimits) (field : InputField) : Except ContractError Unit :=
  match field.default with
  | none => .ok ()
  | some value => validateFieldValue api runtime field value

def validateInputFieldContract (runtime : RuntimeLimits) (scope : String) (field : InputField) :
    Except ContractError Unit :=
  if field.optionsFrom.isSome then
    .error (.invalid (scope ++ " `" ++ field.id ++
      "` cannot use options_from; dynamic options are " ++
      "only valid for ask_user form fields"))
  else do
    checkCustom scope field
    checkBoundedSchema api scope field
    checkDefault api runtime field

def admitField (runtime : RuntimeLimits) (scope : String) (seen : List String)
    (field : InputField) : Except ContractError (List String) :=
  if isBlank field.id ∨ field.id ∈ seen then
    .error (.invalid (scope ++ " field id `" ++ field.id ++ "` must be non-empty and unique"))
  else do
    validateInputFieldContract api runtime scope field
    return field.id :: seen

/-- Carries the stage ids and the field ids seen so far. -/
def admitStage (runtime : RuntimeLimits) (seen : List String × List String) (stage : InputStage) :
    Except ContractError (List String × List String) :=
  if isBlank stage.id ∨ stage.id ∈ seen.1 then
    .error (.invalid ("input stage id `" ++ stage.id ++ "` must be non-empty and unique"))
  else do
    let fields ← stage.fields.foldlM (admitField api runtime "input") seen.2
    return (stage.id :: seen.1, fields)

def admitForm (runtime : RuntimeLimits) (form : String × List InputField) :
    Except ContractError Unit := do
  let _ ← form.2.foldlM
    (admitField api runtime ("node `" ++ form.1 ++ "` on_exhausted input")) []

/-- The rule by which a manifest's inputs are accepted. -/
def inputRule (contract : InputContract) : Except ContractError Unit := do
  let _ ← contract.stages.foldlM (admitStage api contract.runtime) ([], [])
  contract.askForms.forM (admitForm api contract.runtime)

variable {api} {runtime : RuntimeLimits}

variable {field : InputField}
variable {seen seen' : List String} {contract : InputContract} {n n' : Nat} {scope : String}

theorem admitField_eq_ok (h : admitField api runtime scope seen field = .ok seen') :
    field.id ∉ seen ∧ seen' = field.id :: seen := by
  unfold admitField at h
  split_ifs at h with hid
  obtain ⟨_, _, h⟩ := bind_eq_ok.mp h
  cases h
  exact ⟨fun hmem => hid (.inr hmem), rfl⟩

variable {fields : List InputField}

theorem admitFields_eq_ok (h : fields.foldlM (admitField api runtime scope) seen = .ok seen') :
    seen' = (fields.map InputField.id).reverse ++ seen ∧ (seen.Nodup → seen'.Nodup) := by
  induction fields generalizing seen with
  | nil =>
    cases h
    exact ⟨rfl, fun hseen => hseen⟩
  | cons field fields ih =>
    obtain ⟨mid, hmid, hrest⟩ := foldlM_cons_eq_ok.mp h
    obtain ⟨hnew, rfl⟩ := admitField_eq_ok hmid
    obtain ⟨hids, hnodup⟩ := ih hrest
    constructor
    · simp [hids]
    · intro hseen
      exact hnodup (nodup_cons.mpr ⟨hnew, hseen⟩)

def fieldsOf (stages : List InputStage) : List InputField :=
  stages.flatMap InputStage.fields

variable {stages : List InputStage}

theorem admitStages_eq_ok {seen seen' : List String × List String}
    (h : stages.foldlM (admitStage api runtime) seen = .ok seen') :
    seen'.2 = ((fieldsOf stages).map InputField.id).reverse ++ seen.2 ∧
      (seen.2.Nodup → seen'.2.Nodup) := by
  induction stages generalizing seen with
  | nil =>
    cases h
    exact ⟨rfl, fun hseen => hseen⟩
  | cons stage stages ih =>
    obtain ⟨mid, hmid, hrest⟩ := foldlM_cons_eq_ok.mp h
    unfold admitStage at hmid
    split_ifs at hmid
    obtain ⟨fields, hfields, hmid⟩ := bind_eq_ok.mp hmid
    cases hmid
    obtain ⟨hids, hnodup⟩ := admitFields_eq_ok hfields
    obtain ⟨hids', hnodup'⟩ := ih hrest
    constructor
    · simp [hids', hids, fieldsOf]
    · intro hseen
      exact hnodup' (hnodup hseen)

theorem fieldIds_nodup (h : inputRule api contract = .ok ()) :
    ((fieldsOf contract.stages).map InputField.id).Nodup := by
  obtain ⟨seen, hseen, -⟩ := bind_eq_ok.mp h
  obtain ⟨hids, hnodup⟩ := admitStages_eq_ok hseen
  have hall := hnodup nodup_nil
  rw [hids, append_nil, nodup_reverse] at hall
  exact hall

def Included (values values' : BTreeMap Value) : Prop :=
  ∀ (id : String) (value : Value), values[id]? = some value → values'[id]? = some value

theorem Included.refl (values : BTreeMap Value) : Included values values :=
  fun _ _ h => h

variable {a b : BTreeMap Value}

theorem Included.trans {c : BTreeMap Value} (h : Included a b) (h' : Included b c) : Included a c :=
  fun id value hvalue => h' id value (h id value hvalue)

theorem Included.antisymm (h : Included a b) (h' : Included b a) : a = b := by
  apply Std.ExtTreeMap.ext_getElem?
  intro id
  cases hb : (b[id]? : Option Value) with
  | some value => exact h' id value hb
  | none =>
    cases ha : (a[id]? : Option Value) with
    | none => rfl
    | some value =>
      rw [h id value ha] at hb
      cases hb

/-- A field that a walk over `values` finds in order and leaves as it is. -/
def FieldSettled (api : InputApi) (runtime : RuntimeLimits) (values : BTreeMap Value)
    (field : InputField) : Prop :=
  match (values[field.id]? : Option Value) with
  | some value => validateFieldValue api runtime field value = .ok ()
  | none => field.default = none ∧ field.required = false

theorem FieldSettled.congr {values values' : BTreeMap Value}
    (h : FieldSettled api runtime values field) (hsame : values'[field.id]? = values[field.id]?) :
    FieldSettled api runtime values' field := by
  unfold FieldSettled at h ⊢
  rw [hsame]
  exact h

variable {values : BTreeMap Value} {id : String}

theorem get_fillDefault_of_ne (h : id ≠ field.id) :
    (fillDefault values field)[id]? = values[id]? := by
  unfold fillDefault
  split
  · exact BTreeMap.get_insert_of_ne _ _ h
  · rfl

theorem fillDefault_of_settled (h : FieldSettled api runtime values field) :
    fillDefault values field = values := by
  unfold FieldSettled at h
  unfold fillDefault
  cases hvalue : (values[field.id]? : Option Value) with
  | some value => rfl
  | none =>
    rw [hvalue] at h
    rw [h.1]

theorem included_fillDefault (values : BTreeMap Value) (field : InputField) :
    Included values (fillDefault values field) := by
  intro id value hvalue
  by_cases hid : id = field.id
  · subst hid
    unfold fillDefault
    rw [hvalue]
    exact hvalue
  · rw [get_fillDefault_of_ne hid]
    exact hvalue

def Within (runtime : RuntimeLimits) (fileInputs : Nat) : Prop :=
  fileInputs < 2 ^ 64 ∧ ∀ limit, runtime.fileCountLimit = some limit → fileInputs ≤ limit

theorem Within.mono {m : Nat} (h : Within runtime m) (hle : n ≤ m) : Within runtime n :=
  ⟨Nat.lt_of_le_of_lt hle h.1, fun limit hlimit => Nat.le_trans hle (h.2 limit hlimit)⟩

def fileOf (values : BTreeMap Value) (field : InputField) : Nat :=
  match (values[field.id]? : Option Value) with
  | some _ => if field.kind = .file then 1 else 0
  | none => 0

def filesIn (values : BTreeMap Value) (fields : List InputField) : Nat :=
  (fields.map (fileOf values)).sum

theorem countFile_eq_ok :
    countFile runtime field n = .ok n' ↔
      n' = n + (if field.kind = .file then 1 else 0) ∧
        (field.kind = .file → Within runtime (n + 1)) := by
  unfold countFile
  by_cases hfile : field.kind = .file
  · rw [if_pos hfile, if_pos hfile]
    split_ifs with hover
    · simp only [false_iff, not_and]
      intro _ hwithin
      exact absurd (hwithin hfile).1 (by omega)
    · cases hlimit : runtime.fileCountLimit with
      | none =>
        have hwithin : Within runtime (n + 1) := ⟨by omega, by simp [hlimit]⟩
        simp [hwithin, eq_comm]
      | some limit =>
        simp only
        split_ifs with hfull
        · simp only [false_iff, not_and]
          intro _ hwithin
          exact absurd ((hwithin hfile).2 limit hlimit) (by omega)
        · have hwithin : Within runtime (n + 1) := by
            refine ⟨by omega, fun l hl => ?_⟩
            rw [hlimit] at hl
            cases hl
            omega
          simp [hwithin, eq_comm]
  · simp [hfile, eq_comm]

variable {acc acc' : BTreeMap Value × Nat}

theorem resolveField_eq_ok :
    resolveField api runtime acc field = .ok acc' ↔
      acc'.1 = fillDefault acc.1 field ∧ FieldSettled api runtime acc'.1 field ∧
        acc'.2 = acc.2 + fileOf acc'.1 field ∧
        (fileOf acc'.1 field ≠ 0 → Within runtime acc'.2) := by
  obtain ⟨values, n⟩ := acc
  obtain ⟨values', n'⟩ := acc'
  unfold resolveField
  simp only
  constructor
  · intro h
    cases hvalue : ((fillDefault values field)[field.id]? : Option Value) with
    | none =>
      simp only [hvalue] at h
      split_ifs at h with hrequired
      cases h
      have hnone : field.default = none := by
        unfold fillDefault at hvalue
        split at hvalue
        · simp at hvalue
        · rename_i hcase
          by_contra hsome
          obtain ⟨default, hdefault⟩ := Option.ne_none_iff_exists'.mp hsome
          exact hcase default hvalue hdefault
      simp [FieldSettled, fileOf, hvalue, hnone, hrequired]
    | some value =>
      simp only [hvalue] at h
      obtain ⟨_, hvalid, h⟩ := bind_eq_ok.mp h
      obtain ⟨count, hcount, h⟩ := bind_eq_ok.mp h
      cases h
      obtain ⟨rfl, hwithin⟩ := countFile_eq_ok.mp hcount
      refine ⟨rfl, ?_, ?_, ?_⟩
      · simp [FieldSettled, hvalue, hvalid]
      · simp [fileOf, hvalue]
      · by_cases hfile : field.kind = .file
        · simpa [fileOf, hvalue, hfile] using hwithin hfile
        · simp [fileOf, hvalue, hfile]
  · rintro ⟨rfl, hsettled, hcount, hwithin⟩
    unfold FieldSettled at hsettled
    unfold fileOf at hcount hwithin
    cases hvalue : ((fillDefault values field)[field.id]? : Option Value) with
    | none =>
      simp only [hvalue] at hsettled hcount
      simp [hsettled.2, hcount]
    | some value =>
      simp only [hvalue] at hsettled hcount hwithin
      refine bind_eq_ok.mpr ⟨(), hsettled, bind_eq_ok.mpr ⟨n', ?_, rfl⟩⟩
      rw [countFile_eq_ok]
      refine ⟨hcount, fun hfile => ?_⟩
      rw [if_pos hfile] at hcount hwithin
      rw [← hcount]
      exact hwithin (by simp)

section

variable (h : fields.foldlM (resolveField api runtime) acc = .ok acc')

include h

theorem resolveFields_included :
    Included acc.1 acc'.1 := by
  induction fields generalizing acc with
  | nil =>
    cases h
    exact .refl _
  | cons field fields ih =>
    obtain ⟨mid, hmid, hrest⟩ := foldlM_cons_eq_ok.mp h
    have hfill := (resolveField_eq_ok.mp hmid).1
    exact (hfill ▸ included_fillDefault acc.1 field).trans (ih hrest)

theorem resolveFields_other
    (hid : id ∉ fields.map InputField.id) : acc'.1[id]? = acc.1[id]? := by
  induction fields generalizing acc with
  | nil =>
    cases h
    rfl
  | cons field fields ih =>
    rw [map_cons, mem_cons, not_or] at hid
    obtain ⟨mid, hmid, hrest⟩ := foldlM_cons_eq_ok.mp h
    rw [ih hrest hid.2, (resolveField_eq_ok.mp hmid).1]
    exact get_fillDefault_of_ne hid.1

/-- With distinct ids, no field unsettles an earlier one. -/
theorem resolveFields_settled
    (hnodup : (fields.map InputField.id).Nodup) :
    ∀ field ∈ fields, FieldSettled api runtime acc'.1 field := by
  induction fields generalizing acc with
  | nil => simp
  | cons first fields ih =>
    rw [map_cons, nodup_cons] at hnodup
    obtain ⟨mid, hmid, hrest⟩ := foldlM_cons_eq_ok.mp h
    intro field hfield
    rcases mem_cons.mp hfield with rfl | hfield
    · exact (resolveField_eq_ok.mp hmid).2.1.congr (resolveFields_other hrest hnodup.1)
    · exact ih hrest hnodup.2 field hfield

end

/-- A walk that ends with the inputs it began with found every field settled. -/
theorem resolveFields_fixed
    (h : fields.foldlM (resolveField api runtime) (values, n) = .ok (values, n')) :
    (∀ field ∈ fields, FieldSettled api runtime values field) ∧
      n' = n + filesIn values fields ∧ (Within runtime n → Within runtime n') := by
  induction fields generalizing n with
  | nil =>
    cases h
    exact ⟨by simp, by simp [filesIn], fun hn => hn⟩
  | cons first fields ih =>
    obtain ⟨⟨mid, k⟩, hmid, hrest⟩ := foldlM_cons_eq_ok.mp h
    obtain ⟨hfill, hsettled, hcount, hwithin⟩ := resolveField_eq_ok.mp hmid
    have hsame : mid = values := by
      refine (resolveFields_included hrest).antisymm ?_
      rw [show mid = fillDefault values first from hfill]
      exact included_fillDefault values first
    subst hsame
    obtain ⟨hall, hcount', hwithin'⟩ := ih hrest
    refine ⟨?_, ?_, fun hn => hwithin' ?_⟩
    · intro field hfield
      rcases mem_cons.mp hfield with rfl | hfield
      · exact hsettled
      · exact hall field hfield
    · simp only at hcount
      simp only [hcount', hcount, filesIn, map_cons, sum_cons]
      omega
    · by_cases hfile : fileOf mid first = 0
      · simp only at hcount
        rwa [hcount, hfile]
      · exact hwithin hfile

theorem resolveFields_of_settled (h : ∀ field ∈ fields, FieldSettled api runtime values field)
    (hwithin : Within runtime (n + filesIn values fields)) :
    fields.foldlM (resolveField api runtime) (values, n) =
      .ok (values, n + filesIn values fields) := by
  induction fields generalizing n with
  | nil => rfl
  | cons first fields ih =>
    have hfirst : FieldSettled api runtime values first := h first (by simp)
    have hsum : n + filesIn values (first :: fields) =
        n + fileOf values first + filesIn values fields := by
      simp only [filesIn, map_cons, sum_cons]
      omega
    rw [hsum] at hwithin ⊢
    refine foldlM_cons_eq_ok.mpr ⟨(values, n + fileOf values first), ?_, ?_⟩
    · refine resolveField_eq_ok.mpr ⟨(fillDefault_of_settled hfirst).symm, hfirst, rfl, fun _ => ?_⟩
      exact hwithin.mono (by simp)
    · exact ih (fun field hfield => h field (by simp [hfield])) hwithin

/-- A stage that a walk over `values` passes over, or finds with every field settled. -/
def StageSettled (api : InputApi) (runtime : RuntimeLimits) (values : BTreeMap Value)
    (stage : InputStage) : Prop :=
  ∃ active, evalBool api values stage.when_ = .ok active ∧
    (active = true → ∀ field ∈ stage.fields, FieldSettled api runtime values field)

def activeFiles (api : InputApi) (values : BTreeMap Value) (stages : List InputStage) : Nat :=
  (stages.map fun stage =>
    match evalBool api values stage.when_ with
    | .ok true => filesIn values stage.fields
    | _ => 0).sum

variable {stage : InputStage}

theorem resolveStage_included (h : resolveStage api runtime acc stage = .ok acc') :
    Included acc.1 acc'.1 := by
  unfold resolveStage at h
  split at h
  · cases h
  · cases h
    exact .refl _
  · exact resolveFields_included h

theorem resolveStage_other (h : resolveStage api runtime acc stage = .ok acc')
    (hid : id ∉ stage.fields.map InputField.id) : acc'.1[id]? = acc.1[id]? := by
  unfold resolveStage at h
  split at h
  · cases h
  · cases h
    rfl
  · exact resolveFields_other h hid

theorem resolveStages_included (h : stages.foldlM (resolveStage api runtime) acc = .ok acc') :
    Included acc.1 acc'.1 :=
  Except.foldlM_induction (P := fun s => Included acc.1 s.1) h (.refl _)
    fun _ _ _ _ hs hstep => hs.trans (resolveStage_included hstep)

theorem resolveStages_other (h : stages.foldlM (resolveStage api runtime) acc = .ok acc')
    (hid : id ∉ (fieldsOf stages).map InputField.id) : acc'.1[id]? = acc.1[id]? := by
  refine Except.foldlM_induction (P := fun s => s.1[id]? = acc.1[id]?) h rfl ?_
  intro s stage s' hstage hs hstep
  rw [resolveStage_other hstep, hs]
  intro hmem
  obtain ⟨field, hfield, rfl⟩ := mem_map.mp hmem
  exact hid (mem_map.mpr ⟨field, mem_flatMap.mpr ⟨stage, hstage, hfield⟩, rfl⟩)

theorem resolveStages_fixed
    (h : stages.foldlM (resolveStage api runtime) (values, n) = .ok (values, n')) :
    (∀ stage ∈ stages, StageSettled api runtime values stage) ∧
      n' = n + activeFiles api values stages ∧ (Within runtime n → Within runtime n') := by
  induction stages generalizing n with
  | nil =>
    cases h
    exact ⟨by simp, by simp [activeFiles], fun hn => hn⟩
  | cons first stages ih =>
    obtain ⟨⟨mid, k⟩, hmid, hrest⟩ := foldlM_cons_eq_ok.mp h
    have hfrom : Included values mid := resolveStage_included hmid
    have hto : Included mid values := resolveStages_included hrest
    obtain rfl := hto.antisymm hfrom
    obtain ⟨hall, hcount, hwithin⟩ := ih hrest
    have hfirst : StageSettled api runtime mid first ∧
        k = n + (match evalBool api mid first.when_ with
          | .ok true => filesIn mid first.fields
          | _ => 0) ∧ (Within runtime n → Within runtime k) := by
      unfold resolveStage at hmid
      cases hwhen : evalBool api mid first.when_ with
      | error error => simp [hwhen] at hmid
      | ok active =>
        simp only [hwhen] at hmid
        cases active with
        | false =>
          cases hmid
          exact ⟨⟨false, hwhen, by simp⟩, rfl, fun hn => hn⟩
        | true =>
          obtain ⟨hfields, hk, hkeep⟩ := resolveFields_fixed hmid
          exact ⟨⟨true, hwhen, fun _ => hfields⟩, hk, hkeep⟩
    refine ⟨?_, ?_, fun hn => hwithin (hfirst.2.2 hn)⟩
    · intro stage hstage
      rcases mem_cons.mp hstage with rfl | hstage
      · exact hfirst.1
      · exact hall stage hstage
    · simp only [hcount, hfirst.2.1, activeFiles, map_cons, sum_cons]
      omega

theorem resolveStages_of_settled (h : ∀ stage ∈ stages, StageSettled api runtime values stage)
    (hwithin : Within runtime (n + activeFiles api values stages)) :
    stages.foldlM (resolveStage api runtime) (values, n) =
      .ok (values, n + activeFiles api values stages) := by
  induction stages generalizing n with
  | nil => rfl
  | cons first stages ih =>
    obtain ⟨active, hwhen, hfields⟩ := h first (by simp)
    set files := (match evalBool api values first.when_ with
      | .ok true => filesIn values first.fields
      | _ => 0) with hfiles
    have hsum : n + activeFiles api values (first :: stages) =
        n + files + activeFiles api values stages := by
      simp only [activeFiles, map_cons, sum_cons, hfiles]
      omega
    rw [hsum] at hwithin ⊢
    refine foldlM_cons_eq_ok.mpr ⟨(values, n + files), ?_,
      ih (fun stage hstage => h stage (by simp [hstage])) hwithin⟩
    unfold resolveStage
    rw [hwhen] at hfiles ⊢
    cases active with
    | false => simp [hfiles]
    | true =>
      simp only at hfiles ⊢
      rw [hfiles] at hwithin ⊢
      exact resolveFields_of_settled (hfields rfl) (hwithin.mono (by simp))

theorem resolveStages_turn {l₁ l₂ : List InputStage} {start turn last : BTreeMap Value × Nat}
    (hnodup : ((fieldsOf (l₁ ++ stage :: l₂)).map InputField.id).Nodup)
    (hturn : l₁.foldlM (resolveStage api runtime) start = .ok turn)
    (hlast : (l₁ ++ stage :: l₂).foldlM (resolveStage api runtime) start = .ok last)
    (hactive : evalBool api turn.1 stage.when_ = .ok true) :
    ∀ field ∈ stage.fields, FieldSettled api runtime last.1 field := by
  obtain ⟨turn', hturn', hrest⟩ := Except.foldlM_append_eq_ok.mp hlast
  rw [hturn] at hturn'
  cases hturn'
  obtain ⟨mid, hmid, hrest⟩ := foldlM_cons_eq_ok.mp hrest
  rw [resolveStage, hactive] at hmid
  have hids : (fieldsOf (l₁ ++ stage :: l₂)).map InputField.id =
      (fieldsOf l₁).map InputField.id ++
        (stage.fields.map InputField.id ++ (fieldsOf l₂).map InputField.id) := by
    simp [fieldsOf]
  rw [hids] at hnodup
  have hboth := (nodup_append.mp hnodup).2.1
  intro field hfield
  refine (resolveFields_settled hmid (nodup_append.mp hboth).1 field hfield).congr ?_
  apply resolveStages_other hrest
  intro hmem
  exact (nodup_append.mp hboth).2.2 _ (mem_map_of_mem hfield) _ hmem rfl

/-- The stages that a contract turns on for raw inputs: each of them sees the inputs and the
defaults of those that are turned on before it. -/
def switchedOn (api : InputApi) : BTreeMap Value → List InputStage → List InputStage
  | _, [] => []
  | values, stage :: stages =>
    match evalBool api values stage.when_ with
    | .ok true => stage :: switchedOn api (stage.fields.foldl fillDefault values) stages
    | _ => switchedOn api values stages

/-- Raw inputs with the defaults of the stages that are turned on. -/
def filled (api : InputApi) (contract : InputContract) (values : BTreeMap Value) : BTreeMap Value :=
  (fieldsOf (switchedOn api values contract.stages)).foldl fillDefault values

theorem resolveFields_eq (h : fields.foldlM (resolveField api runtime) acc = .ok acc') :
    acc'.1 = fields.foldl fillDefault acc.1 := by
  induction fields generalizing acc with
  | nil =>
    cases h
    rfl
  | cons field fields ih =>
    obtain ⟨mid, hmid, hrest⟩ := foldlM_cons_eq_ok.mp h
    rw [ih hrest, (resolveField_eq_ok.mp hmid).1, foldl_cons]

theorem resolveStages_eq (h : stages.foldlM (resolveStage api runtime) acc = .ok acc') :
    acc'.1 = (fieldsOf (switchedOn api acc.1 stages)).foldl fillDefault acc.1 := by
  induction stages generalizing acc with
  | nil =>
    cases h
    rfl
  | cons stage stages ih =>
    obtain ⟨mid, hmid, hrest⟩ := foldlM_cons_eq_ok.mp h
    rw [ih hrest]
    unfold resolveStage at hmid
    rw [switchedOn]
    split at hmid
    · cases hmid
    · next hwhen =>
      cases hmid
      rw [hwhen]
    · next hwhen =>
      rw [hwhen, resolveFields_eq hmid]
      simp [fieldsOf]

theorem switchedOn_sublist (values : BTreeMap Value) (stages : List InputStage) :
    (switchedOn api values stages).Sublist stages := by
  induction stages generalizing values with
  | nil => exact .slnil
  | cons stage stages ih =>
    rw [switchedOn]
    split
    · exact (ih _).cons_cons stage
    · exact (ih _).cons stage

/-- A stage that is turned on was active in its turn. -/
theorem turn_of_mem_switchedOn (h : stages.foldlM (resolveStage api runtime) acc = .ok acc')
    (hmem : stage ∈ switchedOn api acc.1 stages) :
    ∃ l₁ l₂ turn, stages = l₁ ++ stage :: l₂ ∧
      l₁.foldlM (resolveStage api runtime) acc = .ok turn ∧
      evalBool api turn.1 stage.when_ = .ok true := by
  induction stages generalizing acc with
  | nil => cases hmem
  | cons first stages ih =>
    obtain ⟨mid, hmid, hrest⟩ := foldlM_cons_eq_ok.mp h
    have hlater (hmem : stage ∈ switchedOn api mid.1 stages) : ∃ l₁ l₂ turn,
        first :: stages = l₁ ++ stage :: l₂ ∧ l₁.foldlM (resolveStage api runtime) acc = .ok turn ∧
          evalBool api turn.1 stage.when_ = .ok true := by
      obtain ⟨l₁, l₂, turn, rfl, hturn, hwhen⟩ := ih hrest hmem
      exact ⟨first :: l₁, l₂, turn, rfl, foldlM_cons_eq_ok.mpr ⟨mid, hmid, hturn⟩, hwhen⟩
    have hstep := hmid
    unfold resolveStage at hstep
    rw [switchedOn] at hmem
    split at hstep
    · cases hstep
    · next hwhen =>
      cases hstep
      rw [hwhen] at hmem
      exact hlater hmem
    · next hwhen =>
      rw [hwhen] at hmem
      rcases mem_cons.mp hmem with rfl | hmem
      · exact ⟨[], stages, acc, rfl, rfl, hwhen⟩
      · rw [← resolveFields_eq hstep] at hmem
        exact hlater hmem

theorem foldl_fillDefault_other (h : id ∉ fields.map InputField.id) :
    (fields.foldl fillDefault values)[id]? = values[id]? := by
  induction fields generalizing values with
  | nil => rfl
  | cons field fields ih =>
    rw [map_cons, mem_cons, not_or] at h
    rw [foldl_cons, ih h.2, get_fillDefault_of_ne h.1]

/-- The fields of a stage that is not turned on keep what the raw inputs have. -/
theorem get_filled_of_off (hnodup : ((fieldsOf contract.stages).map InputField.id).Nodup)
    (hstage : stage ∈ contract.stages) (hoff : stage ∉ switchedOn api values contract.stages)
    (hfield : field ∈ stage.fields) :
    (filled api contract values)[field.id]? = values[field.id]? := by
  apply foldl_fillDefault_other
  rw [fieldsOf, map_flatMap, nodup_flatMap] at hnodup
  intro hmem
  obtain ⟨other, hother, heq⟩ := mem_map.mp hmem
  obtain ⟨on, hon, hother⟩ := mem_flatMap.mp hother
  have hne : on ≠ stage := fun h => hoff (h ▸ hon)
  have : Std.Symm (Function.onFun Disjoint fun stage : InputStage =>
      stage.fields.map InputField.id) :=
    ⟨fun _ _ h _ ha hb => h hb ha⟩
  have hdisjoint := hnodup.2.forall ((switchedOn_sublist values contract.stages).subset hon)
    hstage hne
  exact hdisjoint (mem_map_of_mem hother) (heq ▸ mem_map_of_mem hfield)

/-- What defaults must not bring about: a condition that no longer evaluates, a stage that is not
turned on in its turn and then asks for something that the raw inputs do not settle, or too many
files. -/
structure Stable (api : InputApi) (contract : InputContract) (values : BTreeMap Value) : Prop where
  evaluates : ∀ stage ∈ contract.stages,
    ∃ active, evalBool api (filled api contract values) stage.when_ = .ok active
  passedOver : ∀ stage ∈ contract.stages, stage ∉ switchedOn api values contract.stages →
    evalBool api (filled api contract values) stage.when_ = .ok true →
    ∀ field ∈ stage.fields, FieldSettled api contract.runtime values field
  files : Within contract.runtime
    (activeFiles api (filled api contract values) contract.stages)

theorem resolveInputs_eq_ok {resolved : BTreeMap Value} :
    resolveInputs api contract values = .ok resolved ↔
      validateInputSizes api contract.runtime values = .ok () ∧
        (∃ n, contract.stages.foldlM (resolveStage api contract.runtime) (values, 0) =
          .ok (resolved, n)) ∧
        resolved.keys.forM (checkKnown contract.stages) = .ok () ∧
        validateInputSizes api contract.runtime resolved = .ok () := by
  constructor
  · intro h
    obtain ⟨_, hsizes, h⟩ := bind_eq_ok.mp h
    obtain ⟨⟨last, n⟩, hwalk, h⟩ := bind_eq_ok.mp h
    obtain ⟨_, hknown, h⟩ := bind_eq_ok.mp h
    obtain ⟨_, hend, h⟩ := bind_eq_ok.mp h
    cases h
    exact ⟨hsizes, ⟨n, hwalk⟩, hknown, hend⟩
  · rintro ⟨hsizes, ⟨n, hwalk⟩, hknown, hend⟩
    refine bind_eq_ok.mpr ⟨(), hsizes, bind_eq_ok.mpr ⟨_, hwalk, ?_⟩⟩
    exact bind_eq_ok.mpr ⟨(), hknown, bind_eq_ok.mpr ⟨(), hend, rfl⟩⟩

/-- The inputs that an accepted contract resolves raw ones to are resolved to themselves exactly
when the raw ones are stable. -/
theorem resolveInputs_idempotent_iff {contract : InputContract} {values resolved : BTreeMap Value}
    (haccepted : inputRule api contract = .ok ())
    (h : resolveInputs api contract values = .ok resolved) :
    resolveInputs api contract resolved = .ok resolved ↔ Stable api contract values := by
  obtain ⟨-, ⟨n, hwalk⟩, hknown, hsizes⟩ := resolveInputs_eq_ok.mp h
  have hnodup := fieldIds_nodup haccepted
  obtain rfl : resolved = filled api contract values := resolveStages_eq hwalk
  constructor
  · intro hagain
    obtain ⟨-, ⟨k, hsecond⟩, -, -⟩ := resolveInputs_eq_ok.mp hagain
    obtain ⟨hsettled, hcount, hwithin⟩ := resolveStages_fixed hsecond
    have hzero : Within contract.runtime 0 := ⟨by simp, by simp⟩
    refine ⟨?_, ?_, ?_⟩
    · intro stage hstage
      obtain ⟨active, hactive, -⟩ := hsettled stage hstage
      exact ⟨active, hactive⟩
    · intro stage hstage hoff hactive field hfield
      obtain ⟨active, hwhen, hfields⟩ := hsettled stage hstage
      rw [hactive] at hwhen
      cases hwhen
      exact (hfields rfl field hfield).congr (get_filled_of_off hnodup hstage hoff hfield).symm
    · have hk := hwithin hzero
      rwa [hcount, Nat.zero_add] at hk
  · intro hstable
    refine resolveInputs_eq_ok.mpr ⟨hsizes, ⟨_, resolveStages_of_settled ?_ ?_⟩, hknown, hsizes⟩
    · intro stage hstage
      obtain ⟨active, hactive⟩ := hstable.evaluates stage hstage
      refine ⟨active, hactive, fun htrue => ?_⟩
      subst htrue
      by_cases hoff : stage ∈ switchedOn api values contract.stages
      · obtain ⟨l₁, l₂, turn, hsplit, hturn, hwhen⟩ := turn_of_mem_switchedOn hwalk hoff
        rw [hsplit] at hwalk hnodup
        exact resolveStages_turn hnodup hturn hwalk hwhen
      · intro field hfield
        exact (hstable.passedOver stage hstage hoff hactive field hfield).congr
          (get_filled_of_off hnodup hstage hoff hfield)
    · rw [Nat.zero_add]
      exact hstable.files

end InputApi

/-- Whether an expression value counts as true. -/
def truthy : Value → Bool
  | .null => false
  | .bool b => b
  | .num n => n != 0
  | .str s => s != ""
  | .arr items => !items.isEmpty
  | .obj members => !members.isEmpty

/-- Expressions that are a single path; every other library answers yes. -/
def InputApi.plain : InputApi where
  evalExpr expr bag := .ok (truthy ((bag.getPath expr).getD .null))
  fileName value _ := .ok ((value.getStr "name").getD "")
  regex _ := .ok fun _ => true
  schemaIsBounded _ := .ok ()
  validator _ := .ok fun _ => none
  serializedSize _ _ := .ok 0

def advancedField : InputField :=
  { id := "advanced", kind := .boolean, default := some (.bool true) }

def tokenField : InputField :=
  { id := "token", kind := .string, required := true }

def switchContract (tokenFirst : Bool) : InputContract :=
  let token : InputStage :=
    { id := "token", when_ := some "inputs.advanced", fields := [tokenField] }
  let switch : InputStage := { id := "switch", fields := [advancedField] }
  { stages := if tokenFirst then [token, switch] else [switch, token] }

theorem resolveInputs_idempotent_iff_switch :
    InputApi.plain.resolveInputs (switchContract false) (BTreeMap.extend ∅ [("token", .str "t")]) =
        .ok (BTreeMap.extend ∅ [("token", .str "t"), ("advanced", .bool true)]) ∧
      (InputApi.plain.resolveInputs (switchContract false)
          (BTreeMap.extend ∅ [("token", .str "t"), ("advanced", .bool true)]) =
          .ok (BTreeMap.extend ∅ [("token", .str "t"), ("advanced", .bool true)]) ↔
        InputApi.Stable InputApi.plain (switchContract false)
          (BTreeMap.extend ∅ [("token", .str "t")])) := by
  have hresolved : InputApi.plain.resolveInputs (switchContract false)
      (BTreeMap.extend ∅ [("token", .str "t")]) =
        .ok (BTreeMap.extend ∅ [("token", .str "t"), ("advanced", .bool true)]) := by
    decide +kernel
  exact ⟨hresolved, InputApi.resolveInputs_idempotent_iff (by decide +kernel) hresolved⟩

/-- The default of the second stage turns the first one on, which then misses its input. -/
theorem switch_not_idempotent :
    InputApi.plain.inputRule (switchContract true) = .ok () ∧
      InputApi.plain.resolveInputs (switchContract true) ∅ =
        .ok (BTreeMap.extend ∅ [("advanced", .bool true)]) ∧
      InputApi.plain.resolveInputs (switchContract true)
        (BTreeMap.extend ∅ [("advanced", .bool true)]) =
          .error (.invalid "required input `token` is missing") := by
  decide +kernel

end Qcg
