import Qcg.Engine.Redaction
import Qcg.Policy.CredentialUrl

/-!
# The journaled arguments of a tool call

`redactedToolCallArgs` is the only copy of the arguments of a call that may leave the run. Two
argument values that differ only in strings below credential-like keys and in the secret parts of
an absolute top-level URL have the same copy.
-/

namespace Qcg

namespace Gateway

open List
open Json (Value Members)
open Policy (credentialLikeName redactAllQueryValues)

def redactUrl (url : String) : String :=
  String.ofList (redactAllQueryValues url.toList)

/-- The top-level URL is redacted whatever is declared. -/
def redactTopUrl : Value → Value
  | .obj members => .obj (Members.modify members "url" (onStr redactUrl))
  | v => v

def redactedToolCallArgs (sha256 : Sha256) (urls : UrlApi) (args : Value) : Value :=
  redactTopUrl (redactCredentialValues (redactFsPatchArgsForJournal sha256
    (redactFsWriteArgsForJournal sha256 (redactHttpArgsForJournal sha256 urls args))))

mutual

/-- The same value up to strings below a credential-like key. -/
def AgreesBelow (below : Bool) : Value → Value → Prop
  | .str s, .str t => below = true ∨ s = t
  | .arr items, .arr items' => AgreesItems below items items'
  | .obj members, .obj members' => AgreesMembers below members members'
  | v, w => v = w

def AgreesItems (below : Bool) : List Value → List Value → Prop
  | item :: items, item' :: items' => AgreesBelow below item item' ∧ AgreesItems below items items'
  | items, items' => items = items'

def AgreesMembers (below : Bool) : Members → Members → Prop
  | (key, value) :: members, (key', value') :: members' =>
    key = key' ∧ AgreesBelow (below || credentialLikeName key.toList) value value' ∧
      AgreesMembers below members members'
  | members, members' => members = members'

end

def editLines (edit : Value) : Members :=
  (edit.asObject.getD []).filter fun member => member.1 = "lines"

/-- The edits of a patch have the same replacement lines. -/
def SameLines (edits edits' : Value) : Prop :=
  (edits.asArray.getD []).map editLines = (edits'.asArray.getD []).map editLines

structure AgreesMember (l r : String × Value) : Prop where
  key : l.1 = r.1
  value : AgreesBelow (credentialLikeName l.1.toList) l.2 r.2
  lines : l.1 = "edits" → SameLines l.2 r.2

/-- Arguments without a declaration of sensitive parameters that differ in strings below
credential-like keys only. -/
def SameArgs : Value → Value → Prop
  | .obj members, .obj members' =>
    List.Forall₂ AgreesMember members members' ∧ Members.get members "sensitive_query" = none
  | v, w => AgreesBelow false v w

/-- The same with two texts as their URLs. -/
structure SameArgsWith (url url' : List Char) (l r : Members) : Prop where
  members : List.Forall₂ (fun l r => AgreesMember l r ∨
    l = ("url", .str (String.ofList url)) ∧ r = ("url", .str (String.ofList url'))) l r
  url : Members.get l "url" = some (.str (String.ofList url)) ∧
    Members.get r "url" = some (.str (String.ofList url'))
  declared : Members.get l "sensitive_query" = none

theorem redactMembers_eq_map (below : Bool) (members : Members) :
    redactMembers below members = members.map fun member =>
      (member.1, redactBelow (below || credentialLikeName member.1.toList) member.2) := by
  induction members with
  | nil => rfl
  | cons member members ih =>
    obtain ⟨key, value⟩ := member
    rw [redactMembers, ih, map_cons]
    cases hkey : credentialLikeName key.toList <;> cases value <;>
      simp [redactBelow, Value.isString, Value.asStr]

theorem redactItems_eq_map (below : Bool) (items : List Value) :
    redactItems below items = items.map (redactBelow below) := by
  induction items with
  | nil => rfl
  | cons item items ih => rw [redactItems, ih, map_cons]

mutual

/-- What differs below credential-like keys does not show. -/
theorem redactBelow_congr (below : Bool) : (v w : Value) → AgreesBelow below v w →
    redactBelow below v = redactBelow below w
  | .str s, .str t, h => by
    rcases h with rfl | rfl
    · rfl
    · rfl
  | .arr items, .arr items', h => by
    rw [redactBelow, redactBelow, redactItems_congr below items items' h]
  | .obj members, .obj members', h => by
    rw [redactBelow, redactBelow, redactMembers_congr below members members' h]
  | .null, w, h => by cases w <;> simp_all [AgreesBelow]
  | .bool b, w, h => by cases w <;> simp_all [AgreesBelow]
  | .num n, w, h => by cases w <;> simp_all [AgreesBelow]
  | .str s, .null, h | .str s, .bool _, h | .str s, .num _, h | .str s, .arr _, h
  | .str s, .obj _, h => by simp [AgreesBelow] at h
  | .arr items, .null, h | .arr items, .bool _, h | .arr items, .num _, h
  | .arr items, .str _, h | .arr items, .obj _, h => by simp [AgreesBelow] at h
  | .obj members, .null, h | .obj members, .bool _, h | .obj members, .num _, h
  | .obj members, .str _, h | .obj members, .arr _, h => by simp [AgreesBelow] at h

theorem redactItems_congr (below : Bool) : (items items' : List Value) →
    AgreesItems below items items' → redactItems below items = redactItems below items'
  | [], items', h => by cases items' <;> simp_all [AgreesItems]
  | item :: items, [], h => by simp [AgreesItems] at h
  | item :: items, item' :: items', h => by
    rw [redactItems, redactItems, redactBelow_congr below item item' h.1,
      redactItems_congr below items items' h.2]

theorem redactMembers_congr (below : Bool) : (members members' : Members) →
    AgreesMembers below members members' →
    redactMembers below members = redactMembers below members'
  | [], members', h => by cases members' <;> simp_all [AgreesMembers]
  | member :: members, [], h => by simp [AgreesMembers] at h
  | (key, value) :: members, (key', value') :: members', h => by
    obtain ⟨rfl, hvalue, hmembers⟩ := h
    have hhead := redactBelow_congr _ value value' hvalue
    have htail := redactMembers_congr below members members' hmembers
    rw [redactMembers_eq_map] at htail ⊢
    rw [redactMembers_eq_map] at htail ⊢
    rw [map_cons, map_cons, htail, hhead]

end

/-- A member before the credential-like keys are looked at. -/
def preparedValue (sha256 : Sha256) (key : String) (value : Value) : Value :=
  if key = "headers" then redactHeaders value
  else if key = "body" ∨ key = "content" then onStr (hashText sha256) value
  else if key = "edits" then redactEdits sha256 value
  else value

def shownValue (sha256 : Sha256) (key : String) (value : Value) : Value :=
  let redacted := redactBelow (credentialLikeName key.toList) (preparedValue sha256 key value)
  if key = "url" then onStr redactUrl redacted else redacted

theorem redactDeclaredUrl_none (urls : UrlApi) (url : String) :
    redactDeclaredUrl urls url none = url := rfl

theorem onStr_id (value : Value) : onStr (fun s => s) value = value := by
  cases value <;> rfl

section

variable {sha256 : Sha256} {urls : UrlApi}

theorem redactedToolCallArgs_obj {members : Members}
    (h : Members.get members "sensitive_query" = none) :
    redactedToolCallArgs sha256 urls (.obj members) =
      .obj (members.map fun member => (member.1, shownValue sha256 member.1 member.2)) := by
  simp only [redactedToolCallArgs, redactTopUrl, redactHttpArgsForJournal,
    redactFsWriteArgsForJournal,
    redactFsPatchArgsForJournal, redactCredentialValues, redactBelow, redactMembers_eq_map,
    Members.modify_eq_map, map_map, h, redactDeclaredUrl_none, onStr_id, ite_self]
  refine congrArg Value.obj (map_congr_left fun member _ => ?_)
  obtain ⟨key, value⟩ := member
  simp only [Function.comp_apply, shownValue, preparedValue, Bool.false_or, Prod.mk.injEq, true_and]
  by_cases hheaders : key = "headers"
  · simp [hheaders]
  by_cases hbody : key = "body"
  · simp [hbody]
  by_cases hcontent : key = "content"
  · simp [hcontent]
  · simp [hheaders, hbody, hcontent]

theorem redactBelow_redactHeaders (below : Bool) (value : Value) :
    redactBelow below (redactHeaders value) = redactBelow below value := by
  cases value with
  | obj headers =>
    rw [redactHeaders, redactBelow, redactBelow, redactMembers_eq_map, redactMembers_eq_map,
      map_map]
    refine congrArg Value.obj (map_congr_left fun header _ => ?_)
    obtain ⟨key, value⟩ := header
    cases hkey : credentialLikeName key.toList <;> cases value <;>
      simp [hkey, redactBelow, Value.isString, Value.asStr]
  | _ => rfl

variable {below : Bool} {v w : Value}

theorem redactBelow_onStr_congr {f : String → String} (h : AgreesBelow false v w) :
    redactBelow false (onStr f v) = redactBelow false (onStr f w) := by
  cases v <;> cases w <;> first
    | exact redactBelow_congr false _ _ h
    | simp_all [AgreesBelow, onStr]

variable {l r : Members}

theorem agreesMembers_iff :
    AgreesMembers below l r ↔ List.Forall₂ (fun l r => l.1 = r.1 ∧
      AgreesBelow (below || credentialLikeName l.1.toList) l.2 r.2) l r := by
  induction l generalizing r with
  | nil => cases r <;> simp [AgreesMembers]
  | cons member l ih =>
    cases r with
    | nil => simp [AgreesMembers]
    | cons member' r => rw [AgreesMembers, List.forall₂_cons, ih, and_assoc]

theorem agreesItems_iff {l r : List Value} :
    AgreesItems below l r ↔ List.Forall₂ (AgreesBelow below) l r := by
  induction l generalizing r with
  | nil => cases r <;> simp [AgreesItems]
  | cons item l ih =>
    cases r with
    | nil => simp [AgreesItems]
    | cons item' r => rw [AgreesItems, List.forall₂_cons, ih]

theorem redactMembers_lines_congr (h : AgreesMembers false l r)
    (hlines : l.filter (fun member => member.1 = "lines") =
      r.filter fun member => member.1 = "lines") :
    redactMembers false (Members.modify l "lines" (redactLines sha256)) =
      redactMembers false (Members.modify r "lines" (redactLines sha256)) := by
  rw [redactMembers_eq_map, redactMembers_eq_map, Members.modify, Members.modify, map_map,
    map_map]
  induction agreesMembers_iff.mp h with
  | nil => rfl
  | @cons member member' l r hmember hmembers ih =>
    obtain ⟨key, value⟩ := member
    obtain ⟨key', value'⟩ := member'
    obtain ⟨rfl, hvalue⟩ := hmember
    by_cases hkey : key = "lines"
    · simp only [filter_cons, hkey, decide_true, if_true, List.cons.injEq, Prod.mk.injEq,
        true_and] at hlines
      rw [map_cons, map_cons, ih (agreesMembers_iff.mpr hmembers) hlines.2, hlines.1]
    · simp only [filter_cons, hkey, decide_false, Bool.false_eq_true, if_false] at hlines
      have hredacted := redactBelow_congr _ value value' hvalue
      rw [Bool.false_or] at hredacted
      rw [map_cons, map_cons, ih (agreesMembers_iff.mpr hmembers) hlines]
      simp [hkey, hredacted]

theorem redactBelow_redactEdit_congr (h : AgreesBelow false v w)
    (hlines : editLines v = editLines w) :
    redactBelow false (redactEdit sha256 v) = redactBelow false (redactEdit sha256 w) := by
  cases v with
  | obj members =>
    cases w with
    | obj members' => exact congrArg Value.obj (redactMembers_lines_congr h hlines)
    | _ => simp [AgreesBelow] at h
  | _ =>
    cases w with
    | obj members' => simp [AgreesBelow] at h
    | _ => exact redactBelow_congr false _ _ h

theorem redactBelow_redactEdits_congr (h : AgreesBelow false v w) (hlines : SameLines v w) :
    redactBelow false (redactEdits sha256 v) = redactBelow false (redactEdits sha256 w) := by
  cases v with
  | arr edits =>
    cases w with
    | arr edits' =>
      rw [redactEdits, redactEdits, redactBelow, redactBelow, redactItems_eq_map,
        redactItems_eq_map, map_map, map_map]
      simp only [SameLines, Value.asArray, Option.getD_some] at hlines
      refine congrArg Value.arr ?_
      induction agreesItems_iff.mp h with
      | nil => rfl
      | cons hitem hitems ih =>
        rw [map_cons, map_cons, List.cons.injEq] at hlines
        rw [map_cons, map_cons, ih (agreesItems_iff.mpr hitems) hlines.2,
          Function.comp_apply, Function.comp_apply, redactBelow_redactEdit_congr hitem hlines.1]
    | _ => simp [AgreesBelow] at h
  | _ =>
    cases w with
    | arr edits' => simp [AgreesBelow] at h
    | _ => exact redactBelow_congr false _ _ h

theorem AgreesMember.shownValue {l r : String × Value} (h : AgreesMember l r) :
    shownValue sha256 l.1 l.2 = shownValue sha256 r.1 r.2 := by
  obtain ⟨key, value⟩ := l
  obtain ⟨key', value'⟩ := r
  obtain ⟨hkey, hvalue, hlines⟩ := h
  obtain rfl : key = key' := hkey
  have hredacted : redactBelow (credentialLikeName key.toList) (preparedValue sha256 key value) =
      redactBelow (credentialLikeName key.toList) (preparedValue sha256 key value') := by
    rw [preparedValue, preparedValue]
    split_ifs with hheaders hbody hedits
    · rw [redactBelow_redactHeaders, redactBelow_redactHeaders]
      exact redactBelow_congr _ value value' hvalue
    · have hplain : credentialLikeName key.toList = false := by
        rcases hbody with rfl | rfl <;> decide
      rw [hplain] at hvalue ⊢
      exact redactBelow_onStr_congr hvalue
    · have hplain : credentialLikeName key.toList = false := by
        subst hedits
        decide
      rw [hplain] at hvalue ⊢
      exact redactBelow_redactEdits_congr hvalue (hlines hedits)
    · exact redactBelow_congr _ value value' hvalue
  rw [Gateway.shownValue, Gateway.shownValue, hredacted]

theorem get_eq_none_of_keys (h : List.Forall₂ (fun l r => l.1 = r.1) l r)
    {key : String} (hnone : Members.get l key = none) : Members.get r key = none := by
  induction h with
  | nil => rfl
  | @cons member member' l r hkey _ ih =>
    obtain ⟨k, value⟩ := member
    obtain ⟨k', value'⟩ := member'
    obtain rfl : k = k' := hkey
    rw [Members.get_cons] at hnone ⊢
    split_ifs at hnone ⊢
    exact ih hnone

theorem redactedToolCallArgs_congr
    (h : List.Forall₂ (fun l r => l.1 = r.1 ∧
      shownValue sha256 l.1 l.2 = shownValue sha256 r.1 r.2) l r)
    (hdeclared : Members.get l "sensitive_query" = none) :
    redactedToolCallArgs sha256 urls (.obj l) = redactedToolCallArgs sha256 urls (.obj r) := by
  have hdeclared' := get_eq_none_of_keys (h.imp fun _ _ hmember => hmember.1) hdeclared
  rw [redactedToolCallArgs_obj hdeclared, redactedToolCallArgs_obj hdeclared']
  refine congrArg Value.obj ?_
  clear hdeclared hdeclared'
  induction h with
  | nil => rfl
  | cons hmember _ ih =>
    rw [map_cons, map_cons, ih]
    exact congrArg (· :: _) (Prod.ext hmember.1 hmember.2)

theorem SameArgs.redacted {a b : Value} (h : SameArgs a b) :
    redactedToolCallArgs sha256 urls a = redactedToolCallArgs sha256 urls b := by
  have hother : ∀ {v : Value}, v.isObject = false →
      redactedToolCallArgs sha256 urls v = redactBelow false v := by
    intro v hv
    cases v with
    | obj => cases hv
    | _ => rfl
  cases a with
  | obj members =>
    cases b with
    | obj members' =>
      exact redactedToolCallArgs_congr
        (h.1.imp fun _ _ hmember => ⟨hmember.key, hmember.shownValue⟩)
        h.2
    | _ => simp [SameArgs, AgreesBelow] at h
  | _ =>
    cases b with
    | obj members' => simp [SameArgs, AgreesBelow] at h
    | _ => exact (hother rfl).trans ((redactBelow_congr false _ _ h).trans (hother rfl).symm)

theorem shownValue_url (url : List Char) :
    shownValue sha256 "url" (.str (String.ofList url)) =
      .str (String.ofList (redactAllQueryValues url)) := by
  have hplain : credentialLikeName "url".toList = false := by decide
  rw [shownValue, hplain]
  simp [preparedValue, redactBelow, onStr, redactUrl]

theorem SameArgsWith.redacted_iff {url url' : List Char} (h : SameArgsWith url url' l r) :
    redactedToolCallArgs sha256 urls (.obj l) = redactedToolCallArgs sha256 urls (.obj r) ↔
      redactAllQueryValues url = redactAllQueryValues url' := by
  constructor
  · intro heq
    have hkeys : List.Forall₂ (fun l r : String × Value => l.1 = r.1) l r :=
      h.members.imp fun _ _ hmember => hmember.elim AgreesMember.key fun hurl => by
        rw [hurl.1, hurl.2]
    rw [redactedToolCallArgs_obj h.declared,
      redactedToolCallArgs_obj (get_eq_none_of_keys hkeys h.declared), Value.obj.injEq] at heq
    have hget := congrArg (fun members => Members.get members "url") heq
    simp only [Members.get_map l (shownValue sha256), Members.get_map r (shownValue sha256),
      h.url, Option.map_some, shownValue_url, Option.some.injEq, Value.str.injEq,
      String.ofList_inj] at hget
    exact hget
  · intro heq
    refine redactedToolCallArgs_congr (h.members.imp fun member member' hmember => ?_) h.declared
    rcases hmember with hagrees | ⟨rfl, rfl⟩
    · exact ⟨hagrees.key, hagrees.shownValue⟩
    · exact ⟨rfl, by rw [shownValue_url, shownValue_url, heq]⟩

end

open Policy

def urlArgs (url : Locator) : Members :=
  [("url", .str (String.ofList url.text))]

theorem sameArgsWith_urlArgs (url url' : Locator) :
    SameArgsWith url.text url'.text (urlArgs url) (urlArgs url') :=
  ⟨.cons (.inr ⟨rfl, rfl⟩) .nil, ⟨rfl, rfl⟩, rfl⟩

/-- A URL without a scheme before its `//`. -/
def networkUrl (info : String) : Locator where
  lead := .network
  userinfo := some info.toList
  host := "h".toList
  path := [⟨"p".toList, []⟩]
  query := none
  fragment := none

/-- A URL that is a path of one segment with a parameter. -/
def relativeUrl (value : String) : Locator where
  lead := .relative
  userinfo := none
  host := []
  path := [⟨"x".toList, [⟨"k".toList, some value.toList⟩]⟩]
  query := none
  fragment := none

theorem networkUrl_wellFormed (info : String) (h : FreeOf ['/', '?', '#', '@'] info.toList) :
    (networkUrl info).WellFormed where
  scheme := by simp [networkUrl]
  relative := by simp [networkUrl]
  userinfo := by simpa [networkUrl] using h
  host := show FreeOf _ "h".toList by decide
  path := by
    intro segment hsegment
    obtain rfl := mem_singleton.mp hsegment
    exact ⟨by decide, by simp⟩
  query := by simp [networkUrl]
  fragment := by simp [networkUrl]

theorem relativeUrl_wellFormed (value : String)
    (h : FreeOf Segment.delimiters value.toList) : (relativeUrl value).WellFormed where
  scheme := by simp [relativeUrl]
  relative := fun _ => ⟨rfl, rfl⟩
  userinfo := by simp [relativeUrl]
  host := show FreeOf _ [] by decide
  path := by
    intro segment hsegment
    obtain rfl := mem_singleton.mp hsegment
    refine ⟨show FreeOf _ "x".toList by decide, fun param hparam => ?_⟩
    obtain rfl := mem_singleton.mp hparam
    exact ⟨show FreeOf _ "k".toList by decide, by simpa using h⟩
  query := by simp [relativeUrl]
  fragment := by simp [relativeUrl]

theorem networkUrl_same (info info' : String) : (networkUrl info).Same (networkUrl info') :=
  ⟨rfl, rfl, .cons ⟨rfl, .nil⟩ .nil, .none, .none⟩

theorem relativeUrl_same (value value' : String) : (relativeUrl value).Same (relativeUrl value') :=
  ⟨rfl, rfl, .cons ⟨rfl, .cons ⟨rfl, rfl⟩ .nil⟩ .nil, .none, .none⟩

/-- Strings below credential-like keys never show. Of a URL the secret parts do not show exactly
if the two agree behind the last `@` of what is taken for the authority, and in the places of bare
fragment tokens: always behind a scheme, and without one if that part has no `@` and no userinfo
differs. -/
theorem redactedToolCallArgs_noninterference (sha256 : Sha256) (urls : UrlApi) :
    (∀ a b, SameArgs a b →
      redactedToolCallArgs sha256 urls a = redactedToolCallArgs sha256 urls b) ∧
    ∀ (u v : Locator) (l r : Members), u.WellFormed → v.WellFormed → u.Same v →
      SameArgsWith u.text v.text l r →
      (redactedToolCallArgs sha256 urls (.obj l) = redactedToolCallArgs sha256 urls (.obj r) ↔
        u.BasesAgree v ∧ u.FragmentsAgree v) ∧
      (u.lead.isAbsolute = true ∨ exposed u.pieces = u.pieces ∧ exposed v.pieces = v.pieces ∧
        u.userinfo = v.userinfo → u.BasesAgree v) := by
  refine ⟨fun a b h => h.redacted, ?_⟩
  intro u v l r hu hv hsame hargs
  rw [hargs.redacted_iff]
  exact ⟨hsame.redactAllQueryValues_iff hu hv, hsame.basesAgree hu hv⟩

/-- The URL library for closed cases, where no sensitive parameter is declared. -/
def noUrls : UrlApi where
  Url := Unit
  parse _ := none
  queryPairs _ := []
  withQuery url _ := url
  toText _ := ""

/-- Two calls that differ in a password only, in a URL without a scheme. -/
theorem userinfo_shown_without_scheme :
    (networkUrl "user:s3cret").WellFormed ∧ (networkUrl "user:other").WellFormed ∧
      (networkUrl "user:s3cret").Same (networkUrl "user:other") ∧
      SameArgsWith (networkUrl "user:s3cret").text (networkUrl "user:other").text
        (urlArgs (networkUrl "user:s3cret")) (urlArgs (networkUrl "user:other")) ∧
      String.ofList (networkUrl "user:s3cret").text = "//user:s3cret@h/p" ∧
      redactedToolCallArgs spelledSha256 noUrls (.obj (urlArgs (networkUrl "user:s3cret"))) ≠
        redactedToolCallArgs spelledSha256 noUrls (.obj (urlArgs (networkUrl "user:other"))) := by
  refine ⟨networkUrl_wellFormed _ (by decide), networkUrl_wellFormed _ (by decide),
    networkUrl_same _ _, sameArgsWith_urlArgs _ _, by decide +kernel, ?_⟩
  rw [ne_eq, (sameArgsWith_urlArgs _ _).redacted_iff]
  decide +kernel

def absoluteUrl (info : String) : Locator :=
  { networkUrl info with lead := .absolute "https".toList }

/-- The same two calls behind a scheme have one copy, and so have two parameters of a path. -/
theorem redactedToolCallArgs_noninterference_https :
    redactedToolCallArgs spelledSha256 noUrls (.obj (urlArgs (absoluteUrl "user:s3cret"))) =
        redactedToolCallArgs spelledSha256 noUrls (.obj (urlArgs (absoluteUrl "user:other"))) ∧
      redactedToolCallArgs spelledSha256 noUrls (.obj (urlArgs (relativeUrl "s1"))) =
        redactedToolCallArgs spelledSha256 noUrls (.obj (urlArgs (relativeUrl "s2"))) := by
  have hnetwork := networkUrl_wellFormed "user:s3cret" (by decide)
  have hnetwork' := networkUrl_wellFormed "user:other" (by decide)
  have hscheme : ∀ info scheme, (absoluteUrl info).lead = .absolute scheme →
      FreeOf [':', '/', '?', '#'] scheme := by
    rintro info scheme ⟨⟩
    decide
  obtain ⟨-, hurls⟩ := redactedToolCallArgs_noninterference spelledSha256 noUrls
  constructor
  · obtain ⟨hiff, hagree⟩ := hurls (absoluteUrl "user:s3cret") (absoluteUrl "user:other") _ _
      { hnetwork with scheme := hscheme _, relative := fun h => nomatch h }
      { hnetwork' with scheme := hscheme _, relative := fun h => nomatch h }
      { networkUrl_same "user:s3cret" "user:other" with lead := rfl }
      (sameArgsWith_urlArgs _ _)
    exact hiff.mpr ⟨hagree (.inl rfl), .none⟩
  · obtain ⟨hiff, hagree⟩ := hurls (relativeUrl "s1") (relativeUrl "s2") _ _
      (relativeUrl_wellFormed _ (by decide)) (relativeUrl_wellFormed _ (by decide))
      (relativeUrl_same _ _) (sameArgsWith_urlArgs _ _)
    exact hiff.mpr ⟨hagree (.inr ⟨by decide +kernel, by decide +kernel, rfl⟩), .none⟩

end Gateway

end Qcg
