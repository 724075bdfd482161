import Qcg.Agent.ToolArgs
import Qcg.Engine.HttpDetails

/-!
# The identity of a tool call over a suspension

A call is registered under a digest of its canonical arguments. A checkpoint keeps a redacted
copy of the arguments, and the call that is issued again after a resume has the copy for its
arguments. It is taken for the same call when canonicalising the copy gives what canonicalising
the original gave, that is, when every redaction on the way is stable on the strings it meets.
-/

namespace Qcg

namespace Gateway

open List
open Json (Value Members)
open Encoding (utf8)
open Policy (credentialLikeName)

inductive ToolKind where
  | fsWrite
  | fsRead
  | fsPatch
  | command
  | http
  | askUser
  | webSearch
  | mcp
  | agent
  | skill
deriving DecidableEq

/-- A declared tool, by what its calls are redacted by. -/
structure ToolDecl where
  name : String
  kind : ToolKind

def toolKind (tools : List ToolDecl) (name : String) : Option ToolKind :=
  (tools.find? fun tool => tool.name = name).map ToolDecl.kind

/-- What a question is made of. -/
def builtinKeys : List String :=
  ["question", "options", "fields", "notes"]

def keptMembers (members : Members) : Members :=
  Members.ofList (builtinKeys.filterMap fun key =>
    (Members.get members key).map fun value => (key, value))

def minimizedBuiltinFullArgs (args : Value) : Value :=
  .obj (keptMembers (args.asObject.getD []))

def redactText (text : String) : String :=
  String.ofList (Policy.redactCredentialAssignmentsInText (Policy.redactUrlsInText text.toList))

def redactMinimizedStrings (value : Value) : Value :=
  value.mapTexts redactText

def minimizedBuiltinArgs (args : Value) : Value :=
  redactMinimizedStrings (redactCredentialValues (minimizedBuiltinFullArgs args))

section

variable (sha256 : Sha256) (urls : UrlApi)

def redactAgentToolArgsForJournal (tools : List ToolDecl) (name : String) (args : Value) : Value :=
  match toolKind tools name with
  | some .http => redactTopUrl (redactHttpArgsForJournal sha256 urls args)
  | some .fsWrite => redactFsWriteArgsForJournal sha256 args
  | some .fsPatch => redactFsPatchArgsForJournal sha256 args
  | _ => redactCredentialValues args

def canonicalMcpKeyArgs (args : Value) : Value :=
  redactMcpArgsForJournal sha256 urls args

def canonicalAgentRegistryArgs (tools : List ToolDecl) (name : String) (args : Value) : Value :=
  match toolKind tools name with
  | some .askUser => minimizedBuiltinArgs args
  | some .mcp => canonicalMcpKeyArgs sha256 urls args
  | some .http | some .fsWrite | some .fsPatch =>
    redactAgentToolArgsForJournal sha256 urls tools name args
  | _ => redactCredentialValues args

def agentCallIdentityHash (salt : String) (args : Value) : String :=
  saltedBindingDigest sha256 "agent-call-v1" salt args.toVec

def agentCallIdentityHashForTool (salt : String) (tools : List ToolDecl) (name : String)
    (args : Value) : String :=
  agentCallIdentityHash sha256 salt (canonicalAgentRegistryArgs sha256 urls tools name args)

def checkUsedCallId (node : String) (usedCalls : BTreeMap String) (callId identityHash : String) :
    Except StepError (BTreeMap String) :=
  match usedCalls[callId]? with
  | none => .ok (usedCalls.insert callId identityHash)
  | some known =>
    if known = identityHash then .ok usedCalls
    else .error (.failed node ("tool call `" ++ callId ++
      "` was reused with different arguments; refusing resume"))

def pendingKeyForAgentMcp (node server aliasName callId : String) (args : Value) : String :=
  let bytes := (Value.obj (Members.ofList [("server", .str server), ("call_id", .str callId),
    ("args", canonicalMcpKeyArgs sha256 urls args)])).toVec
  node ++ ":agentmcp:" ++ aliasName ++ ":" ++ sha256.hex bytes ++ "#__mcp_pending"

/-- What a checkpoint keeps a call for. -/
inductive Suspension where
  | sideEffect
  | mcp
  | askUser
deriving DecidableEq

def Suspension.Applies : Suspension → Option ToolKind → Prop
  | .sideEffect, _ => True
  | .mcp, kind => kind = some .mcp
  | .askUser, kind => kind = some .askUser

/-- A question is minimized when it suspends and again when the checkpoint is recorded. -/
def checkpointArgs (tools : List ToolDecl) (name : String) (suspension : Suspension)
    (args : Value) : Value :=
  match suspension with
  | .sideEffect => redactAgentToolArgsForJournal sha256 urls tools name args
  | .mcp => canonicalMcpKeyArgs sha256 urls args
  | .askUser => minimizedBuiltinArgs (minimizedBuiltinArgs args)

/-- An object holds a string under a key. -/
def HasText (args : Value) (key text : String) : Prop :=
  ∃ members, args = .obj members ∧ (key, .str text) ∈ members

/-- Redacting the strings under a key a second time changes nothing. -/
def StableUnder (f : String → String) (args : Value) (key : String) : Prop :=
  ∀ text, HasText args key text → f (f text) = f text

def redactHttpUrl (args : Value) (url : String) : String :=
  redactUrl (redactDeclaredUrl urls url (args.get "sensitive_query"))

/-- Every string that is redacted on the way to the copy and from there to the canonical form is
left as the first redaction made it. -/
def Suspension.Stable (suspension : Suspension) (kind : Option ToolKind) (args : Value) : Prop :=
  match suspension, kind with
  | .sideEffect, some .http =>
    StableUnder (redactHttpUrl urls args) args "url" ∧ StableUnder (hashText sha256) args "body"
  | .sideEffect, some .fsWrite => StableUnder (hashText sha256) args "content"
  | .sideEffect, _ => True
  | .mcp, _ =>
    (args.getStr "url").isSome →
      StableUnder (fun url => redactDeclaredUrl urls url
        ((redactCredentialValues args).get "sensitive_query")) args "url" ∧
      StableUnder (hashText sha256) args "body"
  | .askUser, _ =>
    ∀ text ∈ (redactCredentialValues (minimizedBuiltinFullArgs args)).texts,
      redactText (redactText (redactText text)) = redactText text

end

mutual

theorem redactBelow_idem (below : Bool) : (v : Value) →
    redactBelow below (redactBelow below v) = redactBelow below v
  | .null | .bool _ | .num _ => rfl
  | .str s => by cases below <;> rfl
  | .arr items => by rw [redactBelow, redactBelow, redactItems_idem below items]
  | .obj members => by rw [redactBelow, redactBelow, redactMembers_idem below members]

theorem redactItems_idem (below : Bool) : (items : List Value) →
    redactItems below (redactItems below items) = redactItems below items
  | [] => rfl
  | item :: items => by
    rw [redactItems, redactItems, redactBelow_idem below item, redactItems_idem below items]

theorem redactMembers_idem (below : Bool) : (members : Members) →
    redactMembers below (redactMembers below members) = redactMembers below members
  | [] => rfl
  | (key, value) :: members => by
    have hhead := redactBelow_idem (below || credentialLikeName key.toList) value
    have htail := redactMembers_idem below members
    simp only [redactMembers_eq_map, map_cons, hhead] at htail ⊢
    rw [htail]

end

theorem redactCredentialValues_idem (args : Value) :
    redactCredentialValues (redactCredentialValues args) = redactCredentialValues args :=
  redactBelow_idem false args

theorem redactHeaders_redactBelow (below : Bool) (value : Value) :
    redactHeaders (redactBelow below value) = redactBelow below value := by
  cases value with
  | obj headers =>
    rw [redactBelow, redactHeaders, redactMembers_eq_map, map_map]
    refine congrArg Value.obj (map_congr_left fun header _ => ?_)
    obtain ⟨key, value⟩ := header
    cases hkey : credentialLikeName key.toList <;> cases value <;>
      simp [hkey, redactBelow, Value.isString, Value.asStr]
  | str s => cases below <;> rfl
  | _ => rfl

theorem redactHeaders_idem (value : Value) :
    redactHeaders (redactHeaders value) = redactHeaders value := by
  cases value with
  | obj headers =>
    rw [redactHeaders, redactHeaders, map_map]
    refine congrArg Value.obj (map_congr_left fun header _ => ?_)
    obtain ⟨key, value⟩ := header
    cases hkey : credentialLikeName key.toList <;> cases value <;>
      simp [hkey, Value.isString, Value.asStr]
  | _ => rfl

theorem get_redactCredentialValues (args : Value) (key : String)
    (hplain : credentialLikeName key.toList = false) :
    (redactCredentialValues args).get key = (args.get key).map (redactBelow false) := by
  cases args with
  | obj members =>
    have hget := Members.get_map members
      (fun key value => redactBelow (credentialLikeName key.toList) value) key
    simp only [redactCredentialValues, redactBelow, redactMembers_eq_map, Bool.false_or,
      Value.get_obj]
    rw [hget, hplain]
  | _ => rfl

theorem asStr_redactBelow_false (value : Value) :
    (redactBelow false value).asStr = value.asStr := by
  cases value <;> rfl

theorem getStr_redactCredentialValues (args : Value) (key : String)
    (hplain : credentialLikeName key.toList = false) :
    (redactCredentialValues args).getStr key = args.getStr key := by
  rw [Value.getStr, Value.getStr, get_redactCredentialValues args key hplain]
  cases args.get key with
  | none => rfl
  | some value => exact asStr_redactBelow_false value

theorem redactBelow_false_eq_str {value : Value} {text : String} :
    redactBelow false value = .str text ↔ value = .str text := by
  cases value <;> simp [redactBelow]

theorem hasText_redactCredentialValues {args : Value} {key text : String}
    (hplain : credentialLikeName key.toList = false) :
    HasText (redactCredentialValues args) key text ↔ HasText args key text := by
  cases args with
  | obj members =>
    have hmem : (key, .str text) ∈ redactMembers false members ↔
        (key, .str text) ∈ members := by
      rw [redactMembers_eq_map, mem_map]
      constructor
      · rintro ⟨⟨key', value⟩, hmember, heq⟩
        obtain ⟨rfl, hvalue⟩ := Prod.mk.inj heq
        rw [Bool.false_or, hplain, redactBelow_false_eq_str] at hvalue
        exact hvalue ▸ hmember
      · intro hmember
        refine ⟨_, hmember, ?_⟩
        rw [Bool.false_or, hplain]
        rfl
    simpa [HasText, redactCredentialValues, redactBelow] using hmem
  | _ => simp [HasText, redactCredentialValues, redactBelow]

variable {key : String} {members : Members}

section

variable {sha256 : Sha256} {urls : UrlApi}

variable {f : String → String}

theorem onStr_onStr_eq_iff {value : Value} :
    onStr f (onStr f value) = onStr f value ↔
      ∀ text, value = .str text → f (f text) = f text := by
  cases value <;> simp [onStr]

theorem stableUnder_obj_iff :
    StableUnder f (.obj members) key ↔
      ∀ value, (key, value) ∈ members → onStr f (onStr f value) = onStr f value := by
  constructor
  · intro h value hmem
    rw [onStr_onStr_eq_iff]
    rintro text rfl
    exact h text ⟨members, rfl, hmem⟩
  · rintro h text ⟨_, ⟨⟩, hmem⟩
    exact onStr_onStr_eq_iff.mp (h _ hmem) text rfl

theorem redactLines_idem (value : Value) :
    redactLines sha256 (redactLines sha256 value) = redactLines sha256 value := by
  cases value <;> rfl

theorem redactEdit_idem (value : Value) :
    redactEdit sha256 (redactEdit sha256 value) = redactEdit sha256 value := by
  cases value with
  | obj item =>
    rw [redactEdit, redactEdit, Members.modify_modify]
    simp only [redactLines_idem]
  | _ => rfl

theorem redactEdits_idem (value : Value) :
    redactEdits sha256 (redactEdits sha256 value) = redactEdits sha256 value := by
  cases value with
  | arr edits =>
    rw [redactEdits, redactEdits, map_map]
    exact congrArg Value.arr (map_congr_left fun edit _ => redactEdit_idem edit)
  | _ => rfl

theorem redactFsPatchArgsForJournal_idem (args : Value) :
    redactFsPatchArgsForJournal sha256 (redactFsPatchArgsForJournal sha256 args) =
      redactFsPatchArgsForJournal sha256 args := by
  cases args with
  | obj members =>
    rw [redactFsPatchArgsForJournal, redactFsPatchArgsForJournal, Members.modify_modify]
    simp only [redactEdits_idem]
  | _ => rfl

theorem redactFsWriteArgsForJournal_idem_iff (args : Value) :
    redactFsWriteArgsForJournal sha256 (redactFsWriteArgsForJournal sha256 args) =
        redactFsWriteArgsForJournal sha256 args ↔
      StableUnder (hashText sha256) args "content" := by
  cases args with
  | obj members =>
    rw [redactFsWriteArgsForJournal, redactFsWriteArgsForJournal, Members.modify_modify,
      Value.obj.injEq, Members.modify_eq_modify_iff, stableUnder_obj_iff]
  | _ => simp [redactFsWriteArgsForJournal, StableUnder, HasText]

def httpValue (sha256 : Sha256) (f : String → String) (key : String) (value : Value) : Value :=
  if key = "url" then onStr f value
  else if key = "headers" then redactHeaders value
  else if key = "body" then onStr (hashText sha256) value
  else value

def redactHttpBy (sha256 : Sha256) (f : String → String) : Value → Value
  | .obj members =>
    .obj (members.map fun member => (member.1, httpValue sha256 f member.1 member.2))
  | v => v

theorem redactHttpArgsForJournal_eq (args : Value) :
    redactHttpArgsForJournal sha256 urls args =
      redactHttpBy sha256 (fun url => redactDeclaredUrl urls url (args.get "sensitive_query"))
        args := by
  cases args with
  | obj members =>
    simp only [redactHttpArgsForJournal, redactHttpBy, Members.modify_eq_map, map_map,
      Value.get_obj]
    refine congrArg Value.obj (map_congr_left fun member _ => ?_)
    simp only [Function.comp_apply, httpValue, Prod.mk.injEq, true_and]
    split_ifs with hbody hheaders hurl <;> simp_all
  | _ => rfl

theorem onStr_comp (f g : String → String) (value : Value) :
    onStr f (onStr g value) = onStr (fun text => f (g text)) value := by
  cases value <;> rfl

theorem redactTopUrl_redactHttpBy (f : String → String) (args : Value) :
    redactTopUrl (redactHttpBy sha256 f args) =
      redactHttpBy sha256 (fun url => redactUrl (f url)) args := by
  cases args with
  | obj members =>
    simp only [redactTopUrl, redactHttpBy, Members.modify_eq_map, map_map]
    refine congrArg Value.obj (map_congr_left fun member _ => ?_)
    simp only [Function.comp_apply, httpValue, Prod.mk.injEq, true_and]
    split_ifs with hurl
    · exact onStr_comp redactUrl f member.2
    · rfl
    · rfl
    · rfl
  | _ => simp only [redactTopUrl, redactHttpBy]

theorem get_redactHttpBy (f : String → String) (args : Value)
    (hurl : key ≠ "url") (hheaders : key ≠ "headers") (hbody : key ≠ "body") :
    (redactHttpBy sha256 f args).get key = args.get key := by
  cases args with
  | obj members =>
    have hid : httpValue sha256 f key = id := by
      funext value
      simp [httpValue, hurl, hheaders, hbody]
    rw [redactHttpBy, Value.get_obj, Value.get_obj, Members.get_map members (httpValue sha256 f),
      hid, Option.map_id, id]
  | _ => rfl

theorem httpValue_idem_iff {value : Value} :
    httpValue sha256 f key (httpValue sha256 f key value) = httpValue sha256 f key value ↔
      (key = "url" → onStr f (onStr f value) = onStr f value) ∧
      (key = "body" → onStr (hashText sha256) (onStr (hashText sha256) value) =
        onStr (hashText sha256) value) := by
  by_cases hurl : key = "url"
  · simp [httpValue, hurl]
  by_cases hheaders : key = "headers"
  · simp [httpValue, hheaders, redactHeaders_idem]
  by_cases hbody : key = "body"
  · simp [httpValue, hbody]
  · simp [httpValue, hurl, hheaders, hbody]

theorem redactHttpBy_idem_iff (args : Value) :
    redactHttpBy sha256 f (redactHttpBy sha256 f args) = redactHttpBy sha256 f args ↔
      StableUnder f args "url" ∧ StableUnder (hashText sha256) args "body" := by
  cases args with
  | obj members =>
    rw [redactHttpBy, redactHttpBy, map_map, Value.obj.injEq, stableUnder_obj_iff,
      stableUnder_obj_iff]
    have hmap := @Members.map_eq_map_iff members
      (fun key value => httpValue sha256 f key (httpValue sha256 f key value))
      (httpValue sha256 f)
    refine hmap.trans ⟨fun h => ⟨fun value hmem => ?_, fun value hmem => ?_⟩, ?_⟩
    · exact (httpValue_idem_iff.mp (h _ _ hmem)).1 rfl
    · exact (httpValue_idem_iff.mp (h _ _ hmem)).2 rfl
    · rintro ⟨hurl, hbody⟩ key value hmem
      rw [httpValue_idem_iff]
      constructor
      · rintro rfl
        exact hurl value hmem
      · rintro rfl
        exact hbody value hmem
  | _ => simp [redactHttpBy, StableUnder, HasText]

theorem redactBelow_onStr_redactBelow (f : String → String) (value : Value) :
    redactBelow false (onStr f (redactBelow false value)) = onStr f (redactBelow false value) := by
  cases value with
  | str s => rfl
  | arr items => exact redactBelow_idem false (.arr items)
  | obj members => exact redactBelow_idem false (.obj members)
  | _ => rfl

theorem redactCredentialValues_redactHttpBy (f : String → String) (args : Value) :
    redactCredentialValues (redactHttpBy sha256 f (redactCredentialValues args)) =
      redactHttpBy sha256 f (redactCredentialValues args) := by
  cases args with
  | obj members =>
    simp only [redactCredentialValues, redactHttpBy, redactBelow, redactMembers_eq_map,
      map_map, Bool.false_or]
    refine congrArg Value.obj (map_congr_left fun member _ => ?_)
    obtain ⟨key, value⟩ := member
    simp only [Function.comp_apply, httpValue, Prod.mk.injEq, true_and]
    have hurl : credentialLikeName "url".toList = false := by decide
    have hbody : credentialLikeName "body".toList = false := by decide
    split_ifs with hkey hkey hkey
    · rw [hkey, hurl]
      exact redactBelow_onStr_redactBelow f value
    · rw [redactHeaders_redactBelow, redactBelow_idem]
    · rw [hkey, hbody]
      exact redactBelow_onStr_redactBelow _ value
    · exact redactBelow_idem _ value
  | arr items => exact redactBelow_idem false (.arr items)
  | _ => rfl

theorem getStr_redactHttpBy_url (f : String → String) (args : Value) :
    (redactHttpBy sha256 f args).getStr "url" = (args.getStr "url").map f := by
  cases args with
  | obj members =>
    rw [redactHttpBy, Value.getStr, Value.getStr, Value.get_obj, Value.get_obj,
      Members.get_map members (httpValue sha256 f)]
    cases Members.get members "url" with
    | none => rfl
    | some value => cases value <;> rfl
  | _ => rfl

theorem url_plain : credentialLikeName "url".toList = false := by
  decide

theorem body_plain : credentialLikeName "body".toList = false := by
  decide

theorem canonicalMcpKeyArgs_eq (args : Value) :
    canonicalMcpKeyArgs sha256 urls args =
      if (args.getStr "url").isSome then
        redactHttpBy sha256 (fun url => redactDeclaredUrl urls url
          ((redactCredentialValues args).get "sensitive_query")) (redactCredentialValues args)
      else redactCredentialValues args := by
  rw [canonicalMcpKeyArgs, redactMcpArgsForJournal,
    getStr_redactCredentialValues args "url" url_plain,
    redactHttpArgsForJournal_eq]

theorem canonicalMcpKeyArgs_redactCredentialValues (args : Value) :
    canonicalMcpKeyArgs sha256 urls (redactCredentialValues args) =
      canonicalMcpKeyArgs sha256 urls args := by
  rw [canonicalMcpKeyArgs_eq, canonicalMcpKeyArgs_eq, redactCredentialValues_idem,
    getStr_redactCredentialValues args "url" url_plain]

theorem canonicalMcpKeyArgs_idem_iff (args : Value) :
    canonicalMcpKeyArgs sha256 urls (canonicalMcpKeyArgs sha256 urls args) =
        canonicalMcpKeyArgs sha256 urls args ↔
      ((args.getStr "url").isSome →
        StableUnder (fun url => redactDeclaredUrl urls url
          ((redactCredentialValues args).get "sensitive_query")) args "url" ∧
        StableUnder (hashText sha256) args "body") := by
  cases hurl : (args.getStr "url").isSome with
  | false =>
    have hform : canonicalMcpKeyArgs sha256 urls args = redactCredentialValues args := by
      rw [canonicalMcpKeyArgs_eq, hurl, if_neg Bool.false_ne_true]
    rw [hform, canonicalMcpKeyArgs_redactCredentialValues, hform]
    simp
  | true =>
    have hform := @canonicalMcpKeyArgs_eq sha256 urls args
    rw [hurl, if_pos rfl] at hform
    have hagain : canonicalMcpKeyArgs sha256 urls (canonicalMcpKeyArgs sha256 urls args) =
        redactHttpBy sha256 (fun url => redactDeclaredUrl urls url
          ((redactCredentialValues args).get "sensitive_query"))
          (canonicalMcpKeyArgs sha256 urls args) := by
      rw [canonicalMcpKeyArgs_eq, hform, redactCredentialValues_redactHttpBy,
        get_redactHttpBy _ _ (by decide) (by decide) (by decide), getStr_redactHttpBy_url,
        getStr_redactCredentialValues args "url" url_plain, Option.isSome_map, hurl, if_pos rfl]
    rw [hagain, hform, redactHttpBy_idem_iff]
    simp only [StableUnder, hasText_redactCredentialValues url_plain,
      hasText_redactCredentialValues body_plain, true_implies]

end

theorem get_filterMap (g : String → Option Value) (keys : List String) (key : String) :
    Members.get (keys.filterMap fun k => (g k).map fun value => (k, value)) key =
      if key ∈ keys then g key else none := by
  induction keys with
  | nil => rfl
  | cons k keys ih =>
    rw [filterMap_cons]
    cases hg : g k with
    | none =>
      simp only [Option.map_none, ih, mem_cons]
      by_cases hkey : key = k
      · simp [hkey, hg]
      · simp [hkey]
    | some value =>
      simp only [Option.map_some, Members.get_cons, ih, mem_cons]
      by_cases hkey : key = k
      · simp [hkey, hg]
      · simp [hkey]

theorem get_keptMembers (hkey : key ∈ builtinKeys) :
    Members.get (keptMembers members) key = Members.get members key := by
  rw [keptMembers, Members.get_ofList, ← filterMap_reverse, get_filterMap, if_pos]
  exact mem_reverse.mpr hkey

theorem keptMembers_idem (members : Members) :
    keptMembers (keptMembers members) = keptMembers members := by
  have hentries : (builtinKeys.filterMap fun key =>
      (Members.get (keptMembers members) key).map fun value => (key, value)) =
      builtinKeys.filterMap fun key => (Members.get members key).map fun value => (key, value) :=
    filterMap_congr fun key hkey => by rw [get_keptMembers hkey]
  rw [keptMembers, hentries, keptMembers]

theorem keptMembers_map (members : Members) (f : String → Value → Value) :
    keptMembers (members.map fun member => (member.1, f member.1 member.2)) =
      (keptMembers members).map fun member => (member.1, f member.1 member.2) := by
  rw [keptMembers, keptMembers, ← Members.ofList_map, map_filterMap]
  refine congrArg Members.ofList (filterMap_congr fun key _ => ?_)
  rw [Members.get_map members f]
  cases Members.get members key <;> rfl

theorem redactText_placeholder : redactText redactedPlaceholder = redactedPlaceholder := by
  decide +kernel

mutual

theorem redactBelow_mapTexts (below : Bool) : (v : Value) →
    redactBelow below ((redactBelow below v).mapTexts redactText) =
      (redactBelow below v).mapTexts redactText
  | .null | .bool _ | .num _ => rfl
  | .str s => by
    cases below with
    | false => rfl
    | true => exact congrArg Value.str redactText_placeholder.symm
  | .arr items => by
    rw [redactBelow, Value.mapTexts, redactBelow, redactItems_mapTexts below items]
  | .obj members => by
    rw [redactBelow, Value.mapTexts, redactBelow, redactMembers_mapTexts below members]

theorem redactItems_mapTexts (below : Bool) : (items : List Value) →
    redactItems below (Value.mapItemTexts redactText (redactItems below items)) =
      Value.mapItemTexts redactText (redactItems below items)
  | [] => rfl
  | item :: items => by
    rw [redactItems, Value.mapItemTexts, redactItems, redactBelow_mapTexts below item,
      redactItems_mapTexts below items]

theorem redactMembers_mapTexts (below : Bool) : (members : Members) →
    redactMembers below (Value.mapMemberTexts redactText (redactMembers below members)) =
      Value.mapMemberTexts redactText (redactMembers below members)
  | [] => rfl
  | (key, value) :: members => by
    have hhead := redactBelow_mapTexts (below || credentialLikeName key.toList) value
    have htail := redactMembers_mapTexts below members
    simp only [redactMembers_eq_map, Value.mapMemberTexts_eq_map, map_cons, hhead] at htail ⊢
    rw [htail]

end

theorem minimizedBuiltinArgs_eq_obj (args : Value) :
    minimizedBuiltinArgs args = .obj ((keptMembers (args.asObject.getD [])).map fun member =>
      (member.1, (redactBelow (credentialLikeName member.1.toList) member.2).mapTexts
        redactText)) := by
  simp only [minimizedBuiltinArgs, redactMinimizedStrings, redactCredentialValues,
    minimizedBuiltinFullArgs, redactBelow, Value.mapTexts, redactMembers_eq_map,
    Value.mapMemberTexts_eq_map, map_map, Bool.false_or]
  rfl

theorem minimizedBuiltinFullArgs_minimizedBuiltinArgs (args : Value) :
    minimizedBuiltinFullArgs (minimizedBuiltinArgs args) = minimizedBuiltinArgs args := by
  rw [minimizedBuiltinArgs_eq_obj, minimizedBuiltinFullArgs, Value.asObject, Option.getD_some,
    keptMembers_map _ fun key value =>
      (redactBelow (credentialLikeName key.toList) value).mapTexts redactText, keptMembers_idem]

theorem minimizedBuiltinArgs_minimizedBuiltinArgs (args : Value) :
    minimizedBuiltinArgs (minimizedBuiltinArgs args) =
      redactMinimizedStrings (minimizedBuiltinArgs args) := by
  have hredacted : redactCredentialValues (minimizedBuiltinArgs args) = minimizedBuiltinArgs args :=
    redactBelow_mapTexts false (minimizedBuiltinFullArgs args)
  rw [minimizedBuiltinArgs, minimizedBuiltinFullArgs_minimizedBuiltinArgs, hredacted]

theorem minimizedBuiltinArgs_redactCredentialValues (args : Value) :
    minimizedBuiltinArgs (redactCredentialValues args) = minimizedBuiltinArgs args := by
  have hfull : minimizedBuiltinFullArgs (redactCredentialValues args) =
      redactCredentialValues (minimizedBuiltinFullArgs args) := by
    cases args with
    | obj members =>
      simp only [minimizedBuiltinFullArgs, redactCredentialValues, redactBelow,
        redactMembers_eq_map, Value.asObject, Option.getD_some, Bool.false_or]
      rw [keptMembers_map members fun key value =>
        redactBelow (credentialLikeName key.toList) value]
    | _ => rfl
  rw [minimizedBuiltinArgs, hfull, redactCredentialValues_idem, minimizedBuiltinArgs]

theorem minimizedBuiltinArgs_thrice_iff (args : Value) :
    minimizedBuiltinArgs (minimizedBuiltinArgs (minimizedBuiltinArgs args)) =
        minimizedBuiltinArgs args ↔
      ∀ text ∈ (redactCredentialValues (minimizedBuiltinFullArgs args)).texts,
        redactText (redactText (redactText text)) = redactText text := by
  rw [minimizedBuiltinArgs_minimizedBuiltinArgs, minimizedBuiltinArgs_minimizedBuiltinArgs,
    minimizedBuiltinArgs, redactMinimizedStrings, redactMinimizedStrings, redactMinimizedStrings,
    Value.mapTexts_comp, Value.mapTexts_comp, Value.mapTexts_eq_iff]
  rfl

section

variable {sha256 : Sha256} {urls : UrlApi} {tools : List ToolDecl} {name : String}

theorem redactAgentToolArgsForJournal_http (hkind : toolKind tools name = some .http)
    (args : Value) :
    redactAgentToolArgsForJournal sha256 urls tools name args =
      redactHttpBy sha256 (redactHttpUrl urls args) args := by
  rw [redactAgentToolArgsForJournal, hkind]
  simp only [redactHttpArgsForJournal_eq, redactTopUrl_redactHttpBy]
  rfl

theorem redactAgentToolArgsForJournal_http_idem_iff (hkind : toolKind tools name = some .http)
    (args : Value) :
    redactAgentToolArgsForJournal sha256 urls tools name
        (redactAgentToolArgsForJournal sha256 urls tools name args) =
        redactAgentToolArgsForJournal sha256 urls tools name args ↔
      StableUnder (redactHttpUrl urls args) args "url" ∧
        StableUnder (hashText sha256) args "body" := by
  have hurl : redactHttpUrl urls (redactHttpBy sha256 (redactHttpUrl urls args) args) =
      redactHttpUrl urls args := by
    funext url
    rw [redactHttpUrl, redactHttpUrl, get_redactHttpBy _ _ (by decide) (by decide) (by decide)]
  rw [redactAgentToolArgsForJournal_http hkind, redactAgentToolArgsForJournal_http hkind, hurl,
    redactHttpBy_idem_iff]

theorem canonical_checkpointArgs_iff {suspension : Suspension}
    (hkind : suspension.Applies (toolKind tools name)) (args : Value) :
    canonicalAgentRegistryArgs sha256 urls tools name
        (checkpointArgs sha256 urls tools name suspension args) =
        canonicalAgentRegistryArgs sha256 urls tools name args ↔
      suspension.Stable sha256 urls (toolKind tools name) args := by
  unfold canonicalAgentRegistryArgs checkpointArgs Suspension.Stable
  cases suspension with
  | mcp =>
    have hmcp : toolKind tools name = some .mcp := hkind
    simp only [hmcp]
    exact canonicalMcpKeyArgs_idem_iff args
  | askUser =>
    have hask : toolKind tools name = some .askUser := hkind
    simp only [hask]
    exact minimizedBuiltinArgs_thrice_iff args
  | sideEffect =>
    cases hfound : toolKind tools name with
    | none => simp only [redactAgentToolArgsForJournal, hfound, redactCredentialValues_idem]
    | some kind =>
      cases kind with
      | http => exact redactAgentToolArgsForJournal_http_idem_iff hfound args
      | fsWrite =>
        simp only [redactAgentToolArgsForJournal, hfound]
        exact redactFsWriteArgsForJournal_idem_iff args
      | fsPatch =>
        simp only [redactAgentToolArgsForJournal, hfound, redactFsPatchArgsForJournal_idem]
      | askUser =>
        simp only [redactAgentToolArgsForJournal, hfound,
          minimizedBuiltinArgs_redactCredentialValues]
      | mcp =>
        simp only [redactAgentToolArgsForJournal, hfound,
          canonicalMcpKeyArgs_redactCredentialValues]
      | _ => simp only [redactAgentToolArgsForJournal, hfound, redactCredentialValues_idem]

theorem checkUsedCallId_known_iff {node callId known identityHash : String}
    {usedCalls : BTreeMap String} (h : usedCalls[callId]? = some known) :
    (∃ used, checkUsedCallId node usedCalls callId identityHash = .ok used) ↔
      identityHash = known := by
  rw [checkUsedCallId, h]
  simp only
  split_ifs with heq
  · simp [heq]
  · simp [Ne.symm heq]

/-- The call that is issued again with the copy of a checkpoint is registered under the digest of
the suspended call, and its MCP continuation is found, exactly when the redactions are stable on
the strings of the call. Only to conclude from digests needs one without collisions. -/
theorem reissued_call_recognized_iff (suspension : Suspension)
    (hkind : suspension.Applies (toolKind tools name)) (args : Value) :
    ((canonicalAgentRegistryArgs sha256 urls tools name
          (checkpointArgs sha256 urls tools name suspension args) =
          canonicalAgentRegistryArgs sha256 urls tools name args ∧
        (toolKind tools name = some .mcp → ∀ node server aliasName callId : String,
          pendingKeyForAgentMcp sha256 urls node server aliasName callId
              (checkpointArgs sha256 urls tools name suspension args) =
            pendingKeyForAgentMcp sha256 urls node server aliasName callId args)) ↔
      suspension.Stable sha256 urls (toolKind tools name) args) ∧
    ∀ (node salt callId : String) (usedCalls : BTreeMap String),
      usedCalls[callId]? = some (agentCallIdentityHashForTool sha256 urls salt tools name args) →
      (suspension.Stable sha256 urls (toolKind tools name) args →
        ∃ used, checkUsedCallId node usedCalls callId (agentCallIdentityHashForTool sha256 urls salt
          tools name (checkpointArgs sha256 urls tools name suspension args)) = .ok used) ∧
      (Function.Injective sha256.hex →
        (∃ used, checkUsedCallId node usedCalls callId
          (agentCallIdentityHashForTool sha256 urls salt
          tools name (checkpointArgs sha256 urls tools name suspension args)) = .ok used) →
        suspension.Stable sha256 urls (toolKind tools name) args) := by
  have hiff := @canonical_checkpointArgs_iff sha256 urls tools name suspension hkind args
  constructor
  · constructor
    · rintro ⟨hcanonical, -⟩
      exact hiff.mp hcanonical
    · intro hstable
      have hcanonical := hiff.mpr hstable
      refine ⟨hcanonical, fun hmcp node server aliasName callId => ?_⟩
      simp only [canonicalAgentRegistryArgs, hmcp] at hcanonical
      rw [pendingKeyForAgentMcp, pendingKeyForAgentMcp, hcanonical]
  · intro node salt callId usedCalls hknown
    rw [checkUsedCallId_known_iff hknown, agentCallIdentityHashForTool,
      agentCallIdentityHashForTool, agentCallIdentityHash, agentCallIdentityHash]
    refine ⟨fun hstable => by rw [hiff.mpr hstable], fun hcollision hsame => ?_⟩
    rw [saltedBindingDigest_inj hcollision, Json.Value.toVec_injective.eq_iff, hiff] at hsame
    exact hsame

end

def browseTools : List ToolDecl :=
  [⟨"browse", .mcp⟩, ⟨"write", .fsWrite⟩]

def postArgs (body : String) : Value :=
  .obj [("body", .str body), ("url", .str "https://h/p")]

/-- A suspended MCP call with a body, and a pending write: the digest in the copy is taken for
content and hashed again. -/
theorem reissued_call_unrecognized :
    toolKind browseTools "browse" = some .mcp ∧ toolKind browseTools "write" = some .fsWrite ∧
      canonicalAgentRegistryArgs spelledSha256 noUrls browseTools "browse"
          (checkpointArgs spelledSha256 noUrls browseTools "browse" .mcp (postArgs "x")) ≠
        canonicalAgentRegistryArgs spelledSha256 noUrls browseTools "browse" (postArgs "x") ∧
      canonicalAgentRegistryArgs spelledSha256 noUrls browseTools "write"
          (checkpointArgs spelledSha256 noUrls browseTools "write" .sideEffect
            (.obj [("content", .str "x"), ("path", .str "p")])) ≠
        canonicalAgentRegistryArgs spelledSha256 noUrls browseTools "write"
          (.obj [("content", .str "x"), ("path", .str "p")]) := by
  decide +kernel

/-- A suspended MCP call without a body is recognized. -/
theorem reissued_call_recognized_iff_browse :
    canonicalAgentRegistryArgs spelledSha256 noUrls browseTools "browse"
        (checkpointArgs spelledSha256 noUrls browseTools "browse" .mcp
          (.obj [("api_key", .str "s3cret"), ("url", .str "https://h/p")])) =
      canonicalAgentRegistryArgs spelledSha256 noUrls browseTools "browse"
        (.obj [("api_key", .str "s3cret"), ("url", .str "https://h/p")]) := by
  have hiff := @reissued_call_recognized_iff spelledSha256 noUrls browseTools "browse" .mcp rfl
    (.obj [("api_key", .str "s3cret"), ("url", .str "https://h/p")])
  refine (hiff.1.mpr fun _ => ⟨?_, ?_⟩).1
  · intro text htext
    rfl
  · rintro text ⟨members, ⟨⟩, hmem⟩
    simp at hmem

end Gateway

end Qcg
