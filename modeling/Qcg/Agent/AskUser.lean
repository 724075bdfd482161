import Qcg.Agent.CallIdentity

/-!
# Questions of an agent

A question suspends the agent. Its id is a digest of the call id and of the full minimized
arguments; the checkpoint keeps the arguments in redacted form. When the call is issued again,
the id is computed from what the checkpoint kept, so that the recorded answer is found exactly
when the redaction left the arguments as they were.
-/

namespace Qcg

open Except (bind_eq_ok unit_bind_eq_ok)

namespace Gateway

open Json (Value Members)
open Encoding (utf8)

/-- What a question needs of the run: the digest, the libraries of input validation, the parser
of declared fields and the checks that every call passes before it is executed. -/
structure QuestionEnv where
  sha256 : Sha256
  urls : UrlApi
  inputs : InputApi
  runtime : RuntimeLimits
  parseFields : Value → Except String (List InputField)
  admitted : Value → Except StepError Unit
  node : String
  runId : String
  tools : List ToolDecl

/-- A question as the user sees it. -/
structure QuestionForm where
  id : String
  title : String
  fields : List InputField
deriving DecidableEq

inductive AskOutcome where
  | result (value : Value)
  | needsUser (form : QuestionForm)
deriving DecidableEq

def contractErrorText : ContractError → String
  | .invalid message => "invalid manifest: " ++ message
  | .payloadTooLarge field actualBytes limitBytes =>
    "input `" ++ field ++ "` is too large: " ++ toString actualBytes ++ " bytes exceeds " ++
      toString limitBytes ++ " bytes"

section

variable (env : QuestionEnv)

def checkFormField (ids : List String) (field : InputField) : Except StepError (List String) :=
  if InputApi.isBlank field.id ∨ field.id ∈ ids then
    .error (.failed env.node "agent form field ids must be non-empty and unique")
  else
    match field.kind with
    | .custom _ => .error (.failed env.node
        ("agent form field `" ++ field.id ++ "` uses an unsupported custom type"))
    | _ => .ok (field.id :: ids)

def dynamicFormFields (args : Value) : Except StepError (Option (List InputField)) :=
  match args.get "fields" with
  | none => .ok none
  | some value =>
    match env.parseFields value with
    | .error error => .error (.failed env.node ("agent form fields are invalid: " ++ error))
    | .ok [] => .error (.failed env.node "agent form fields must not be empty")
    | .ok fields => do
      let _ ← fields.foldlM (checkFormField env) []
      pure (some fields)

def validatedOptions (args : Value) : Except StepError (List String) :=
  match args.get "options" with
  | none => .ok []
  | some (.arr options) => options.mapM fun option =>
    match option.asStr with
    | some text => .ok text
    | none => .error (.failed env.node "ask_user options must be strings")
  | some _ => .error (.failed env.node "ask_user options must be an array of strings")

def checkFormValue (members : Members) (field : InputField) : Except ContractError Unit :=
  match Members.get members field.id with
  | some value => InputApi.validateFieldValue env.inputs env.runtime field value
  | none =>
    if field.required then
      .error (.invalid ("required form field `" ++ field.id ++ "` is missing"))
    else .ok ()

def validateFormValues (fields : List InputField) (values : Value) : Except ContractError Unit :=
  match values.asObject with
  | none => .error (.invalid "form values must be a JSON object")
  | some members => do
    InputApi.validateInputSizes env.inputs env.runtime (Std.ExtTreeMap.ofList members compare)
    fields.forM (checkFormValue env members)
    members.forM fun member =>
      if fields.any fun field => field.id = member.1 then .ok ()
      else .error (.invalid ("unknown form field `" ++ member.1 ++ "`"))

def builtinContentHash (args : Value) : String :=
  saltedBindingDigest env.sha256 "builtin-content-v1" env.runId
    (minimizedBuiltinFullArgs args).toVec

def askUserQuestionIdFromContentHash (toolName callId contentHash : String) : String :=
  env.node ++ ":" ++ toolName ++ ":" ++ env.sha256.hex (utf8 callId ++ [0] ++ utf8 contentHash)

def askUserQuestionId (toolName callId : String) (args : Value) : String :=
  askUserQuestionIdFromContentHash env toolName callId (builtinContentHash env args)

/-- The longest head of a text that fits a number of bytes. -/
def utf8Head : Nat → List Char → List Char
  | _, [] => []
  | budget, c :: text =>
    if c.utf8Size ≤ budget then c :: utf8Head (budget - c.utf8Size) text else []

def truncateWithDigest (value : String) (limit : Nat) : String :=
  if Policy.byteLength value.toList ≤ limit then value
  else String.ofList (utf8Head limit value.toList) ++ "...[sha256:" ++
    env.sha256.hex (utf8 value) ++ "]"

def questionTitle (args : Value) : String :=
  truncateWithDigest env (redactText ((args.getStr "question").getD "Agent requested input")) 256

/-- Without declared fields the answer is one text, chosen from the options if there are any. -/
def effectiveFields (declared : Option (List InputField)) (options : List String) :
    List InputField :=
  declared.getD
    [{ id := "answer", kind := if options = [] then .string else .select, required := true,
       options := options }]

def executeAskUser (answers : BTreeMap Value) (toolName callId : String) (args : Value) :
    Except StepError AskOutcome := do
  let declared ← dynamicFormFields env args
  let options ← validatedOptions env args
  let questionId := askUserQuestionId env toolName callId args
  let fields := effectiveFields declared options
  match answers[questionId]? with
  | some answer =>
    (validateFormValues env fields answer).mapError fun error =>
      .failed env.node ("invalid agent form answer: " ++ contractErrorText error)
    pure (.result (.obj [("answer", answer)]))
  | none => pure (.needsUser ⟨questionId, questionTitle env args, fields⟩)

structure McpSuspendedCall where
  name : String
  id : String
  args : Value
  questionId : String
  builtin : Bool
  contentHash : String

def suspendQuestion (toolName callId : String) (args : Value) (questionId : String) :
    McpSuspendedCall where
  name := toolName
  id := callId
  args := minimizedBuiltinArgs args
  questionId := questionId
  builtin := true
  contentHash := builtinContentHash env args

/-- What a checkpoint keeps of a suspended call. -/
def recordSuspended (suspended : McpSuspendedCall) : McpSuspendedCall :=
  if suspended.builtin then { suspended with args := minimizedBuiltinArgs suspended.args }
  else { suspended with args := canonicalMcpKeyArgs env.sha256 env.urls suspended.args }

def verifySuspended (suspended : McpSuspendedCall) : Except StepError Unit :=
  if suspended.contentHash = "" then
    .error (.failed env.node "suspended builtin call has no content hash; refusing resume")
  else if askUserQuestionIdFromContentHash env suspended.name suspended.id suspended.contentHash =
      suspended.questionId then .ok ()
  else .error (.failed env.node
    "suspended builtin call question does not match stored content hash; refusing resume")

/-- The first turn after a resume issues the suspended question again. -/
def resumeQuestion (usedCalls : BTreeMap String) (answers : BTreeMap Value)
    (suspended : McpSuspendedCall) : Except StepError AskOutcome := do
  verifySuspended env suspended
  let _ ← checkUsedCallId env.node usedCalls suspended.id
    (agentCallIdentityHashForTool env.sha256 env.urls env.runId env.tools suspended.name
      suspended.args)
  env.admitted suspended.args
  executeAskUser env answers suspended.name suspended.id suspended.args

end

theorem minimizedBuiltinFullArgs_idem (args : Value) :
    minimizedBuiltinFullArgs (minimizedBuiltinFullArgs args) = minimizedBuiltinFullArgs args := by
  rw [minimizedBuiltinFullArgs, minimizedBuiltinFullArgs, Value.asObject, Option.getD_some,
    keptMembers_idem]

theorem get_minimizedBuiltinFullArgs (args : Value) (key : String) (hkey : key ∈ builtinKeys) :
    (minimizedBuiltinFullArgs args).get key = args.get key := by
  rw [minimizedBuiltinFullArgs, Value.get_obj, get_keptMembers hkey]
  cases args <;> rfl

variable {answers : BTreeMap Value}

section

variable {env : QuestionEnv} {toolName callId : String} {args args' : Value}

theorem askUserQuestionId_congr
    (h : minimizedBuiltinFullArgs args = minimizedBuiltinFullArgs args') :
    askUserQuestionId env toolName callId args = askUserQuestionId env toolName callId args' := by
  rw [askUserQuestionId, askUserQuestionId, builtinContentHash, builtinContentHash, h]

theorem askUserQuestionId_inj (hcollision : Function.Injective env.sha256.hex) :
    askUserQuestionId env toolName callId args = askUserQuestionId env toolName callId args' ↔
      minimizedBuiltinFullArgs args = minimizedBuiltinFullArgs args' := by
  refine ⟨fun h => ?_, askUserQuestionId_congr⟩
  have hdigest := hcollision (String.append_right_inj _ |>.mp h)
  have hhash := Encoding.utf8_injective (List.append_cancel_left hdigest)
  exact Json.Value.toVec_injective ((saltedBindingDigest_inj hcollision).mp hhash)

theorem executeAskUser_minimizedBuiltinFullArgs (answers : BTreeMap Value) :
    executeAskUser env answers toolName callId (minimizedBuiltinFullArgs args) =
      executeAskUser env answers toolName callId args := by
  have hfields := get_minimizedBuiltinFullArgs args "fields" (by decide)
  have hoptions := get_minimizedBuiltinFullArgs args "options" (by decide)
  have hquestion := get_minimizedBuiltinFullArgs args "question" (by decide)
  simp only [executeAskUser, dynamicFormFields, validatedOptions, questionTitle, Value.getStr,
    askUserQuestionId, builtinContentHash, minimizedBuiltinFullArgs_idem, hfields, hoptions,
    hquestion]

theorem executeAskUser_eq_ok {outcome : AskOutcome}
    (h : executeAskUser env answers toolName callId args = .ok outcome) :
    ∃ declared options, dynamicFormFields env args = .ok declared ∧
      validatedOptions env args = .ok options ∧
      match answers[askUserQuestionId env toolName callId args]? with
      | some answer =>
        validateFormValues env (effectiveFields declared options) answer = .ok () ∧
          outcome = .result (.obj [("answer", answer)])
      | none => outcome = .needsUser ⟨askUserQuestionId env toolName callId args,
          questionTitle env args, effectiveFields declared options⟩ := by
  obtain ⟨declared, hdeclared, h⟩ := bind_eq_ok.mp h
  obtain ⟨options, hoptions, h⟩ := bind_eq_ok.mp h
  refine ⟨declared, options, hdeclared, hoptions, ?_⟩
  cases hanswer : answers[askUserQuestionId env toolName callId args]? with
  | none =>
    simp only [hanswer] at h
    exact (Except.ok.inj h).symm
  | some answer =>
    simp only [hanswer] at h
    obtain ⟨hvalid, h⟩ := unit_bind_eq_ok.mp h
    exact ⟨Except.mapError_eq_ok.mp hvalid, (Except.ok.inj h).symm⟩

/-- The converse of the inversion for a recorded answer. -/
theorem executeAskUser_of_answer {declared : Option (List InputField)}
    {options : List String} {answer : Value} (hdeclared : dynamicFormFields env args = .ok declared)
    (hoptions : validatedOptions env args = .ok options)
    (hanswer : answers[askUserQuestionId env toolName callId args]? = some answer)
    (hvalid : validateFormValues env (effectiveFields declared options) answer = .ok ()) :
    executeAskUser env answers toolName callId args =
      .ok (.result (.obj [("answer", answer)])) := by
  rw [executeAskUser, hdeclared]
  simp only [hoptions, bind, Except.bind, hanswer, hvalid]
  rfl

theorem executeAskUser_of_none {answers : BTreeMap Value} {declared : Option (List InputField)}
    {options : List String} (hdeclared : dynamicFormFields env args = .ok declared)
    (hoptions : validatedOptions env args = .ok options)
    (hnone : answers[askUserQuestionId env toolName callId args]? = none) :
    executeAskUser env answers toolName callId args =
      .ok (.needsUser ⟨askUserQuestionId env toolName callId args, questionTitle env args,
        effectiveFields declared options⟩) := by
  rw [executeAskUser, hdeclared]
  simp only [hoptions, bind, Except.bind, hnone]
  rfl

def questionCheckpoint (env : QuestionEnv) (toolName callId : String) (args : Value)
    (form : QuestionForm) : McpSuspendedCall :=
  recordSuspended env (suspendQuestion env toolName callId args form.id)

theorem builtinContentHash_ne_empty
    (hhex : ∀ bytes, bytes ≠ [] → env.sha256.hex bytes ≠ "") :
    builtinContentHash env args ≠ "" :=
  hhex _ (by simp)

theorem verifySuspended_questionCheckpoint {form : QuestionForm}
    (hhex : ∀ bytes, bytes ≠ [] → env.sha256.hex bytes ≠ "")
    (hid : form.id = askUserQuestionId env toolName callId args) :
    verifySuspended env (questionCheckpoint env toolName callId args form) = .ok () := by
  have hhash : (questionCheckpoint env toolName callId args form).contentHash ≠ "" :=
    builtinContentHash_ne_empty hhex
  rw [verifySuspended, if_neg hhash, if_pos]
  exact hid.symm

/-- The registry takes the re-issued question for the suspended one when the redaction left its
arguments as they were. -/
theorem agentCallIdentityHashForTool_eq (hkind : toolKind env.tools toolName = some .askUser)
    (hplain : minimizedBuiltinArgs (minimizedBuiltinArgs args) = minimizedBuiltinFullArgs args) :
    agentCallIdentityHashForTool env.sha256 env.urls env.runId env.tools toolName
        (minimizedBuiltinArgs (minimizedBuiltinArgs args)) =
      agentCallIdentityHashForTool env.sha256 env.urls env.runId env.tools toolName args := by
  have hmin : minimizedBuiltinArgs (minimizedBuiltinFullArgs args) = minimizedBuiltinArgs args := by
    rw [minimizedBuiltinArgs, minimizedBuiltinFullArgs_idem, minimizedBuiltinArgs]
  simp only [agentCallIdentityHashForTool, canonicalAgentRegistryArgs, hkind, hplain, hmin]

/-- The re-issued question has the id of the suspended one, finds the answer and continues,
exactly when two redactions leave the retained arguments as they were. Otherwise, without an
answer to the other id, no outcome is an answer and a question is asked under another id. Only
to tell the ids apart needs a digest without collisions. -/
theorem answered_question_consumed_iff
    (hhex : ∀ bytes, bytes ≠ [] → env.sha256.hex bytes ≠ "")
    (hkind : toolKind env.tools toolName = some .askUser) {before answers : BTreeMap Value}
    {usedCalls : BTreeMap String} {form : QuestionForm} {answer : Value}
    (hlive : executeAskUser env before toolName callId args = .ok (.needsUser form))
    (hused : usedCalls[callId]? = some (agentCallIdentityHashForTool env.sha256 env.urls env.runId
      env.tools toolName args))
    (hanswer : answers[form.id]? = some answer)
    (hvalid : validateFormValues env form.fields answer = .ok ())
    (hadmitted : env.admitted (questionCheckpoint env toolName callId args form).args = .ok ()) :
    (minimizedBuiltinArgs (minimizedBuiltinArgs args) = minimizedBuiltinFullArgs args →
      askUserQuestionId env toolName callId
          (questionCheckpoint env toolName callId args form).args = form.id ∧
        resumeQuestion env usedCalls answers (questionCheckpoint env toolName callId args form) =
          .ok (.result (.obj [("answer", answer)]))) ∧
    (Function.Injective env.sha256.hex →
      askUserQuestionId env toolName callId
          (questionCheckpoint env toolName callId args form).args = form.id →
        minimizedBuiltinArgs (minimizedBuiltinArgs args) = minimizedBuiltinFullArgs args) ∧
    (Function.Injective env.sha256.hex →
      minimizedBuiltinArgs (minimizedBuiltinArgs args) ≠ minimizedBuiltinFullArgs args →
      answers[askUserQuestionId env toolName callId
        (questionCheckpoint env toolName callId args form).args]? = none →
      ∀ outcome, resumeQuestion env usedCalls answers
          (questionCheckpoint env toolName callId args form) = .ok outcome →
        ∃ again : QuestionForm, outcome = .needsUser again ∧ again.id ≠ form.id) := by
  obtain ⟨declared, options, hdeclared, hoptions, hasked⟩ := executeAskUser_eq_ok hlive
  have hcopy : (questionCheckpoint env toolName callId args form).args =
      minimizedBuiltinArgs (minimizedBuiltinArgs args) := rfl
  have hform : form.id = askUserQuestionId env toolName callId args ∧
      form.fields = effectiveFields declared options := by
    cases hbefore : before[askUserQuestionId env toolName callId args]? with
    | some answer => simp [hbefore] at hasked
    | none =>
      simp only [hbefore, AskOutcome.needsUser.injEq] at hasked
      subst hasked
      exact ⟨rfl, rfl⟩
  have hid (hcollision : Function.Injective env.sha256.hex) (hsame : askUserQuestionId env toolName
      callId (minimizedBuiltinArgs (minimizedBuiltinArgs args)) = form.id) :
      minimizedBuiltinArgs (minimizedBuiltinArgs args) = minimizedBuiltinFullArgs args := by
    rwa [hform.1, askUserQuestionId_inj hcollision, minimizedBuiltinFullArgs_minimizedBuiltinArgs]
      at hsame
  refine ⟨fun hplain => ⟨?_, ?_⟩, hid, ?_⟩
  · rw [hcopy, hform.1]
    exact askUserQuestionId_congr (by rw [hplain, minimizedBuiltinFullArgs_idem])
  · have hverified := verifySuspended_questionCheckpoint hhex hform.1
    have hregistered : checkUsedCallId env.node usedCalls callId
        (agentCallIdentityHashForTool env.sha256 env.urls env.runId env.tools toolName
          (minimizedBuiltinArgs (minimizedBuiltinArgs args))) = .ok usedCalls := by
      rw [agentCallIdentityHashForTool_eq hkind hplain, checkUsedCallId, hused]
      exact if_pos rfl
    have hexecuted : executeAskUser env answers toolName callId
        (minimizedBuiltinArgs (minimizedBuiltinArgs args)) =
        .ok (.result (.obj [("answer", answer)])) := by
      rw [hplain, executeAskUser_minimizedBuiltinFullArgs]
      exact executeAskUser_of_answer hdeclared hoptions (hform.1 ▸ hanswer) (hform.2 ▸ hvalid)
    rw [resumeQuestion, hverified]
    exact bind_eq_ok.mpr ⟨(), rfl, bind_eq_ok.mpr ⟨usedCalls, hregistered,
      unit_bind_eq_ok.mpr ⟨hadmitted, hexecuted⟩⟩⟩
  · intro hcollision hredacted hnone outcome hresume
    rw [resumeQuestion] at hresume
    obtain ⟨-, hresume⟩ := unit_bind_eq_ok.mp hresume
    obtain ⟨-, -, hresume⟩ := bind_eq_ok.mp hresume
    obtain ⟨-, hresume⟩ := unit_bind_eq_ok.mp hresume
    obtain ⟨declared', options', -, -, houtcome⟩ := executeAskUser_eq_ok hresume
    have hnone' : answers[askUserQuestionId env
        (questionCheckpoint env toolName callId args form).name
        (questionCheckpoint env toolName callId args form).id
        (questionCheckpoint env toolName callId args form).args]? = none := hnone
    rw [hnone'] at houtcome
    exact ⟨_, houtcome, fun hsame => hredacted (hid hcollision hsame)⟩

end

def askEnv : QuestionEnv where
  sha256 := spelledSha256
  urls := noUrls
  inputs := InputApi.plain
  runtime := {}
  parseFields _ := .ok []
  admitted _ := .ok ()
  node := "n"
  runId := "r"
  tools := [⟨"q", .askUser⟩]

def askArgs (question : String) : Value :=
  .obj [("question", .str question)]

def askForm (question : String) : QuestionForm :=
  ⟨askUserQuestionId askEnv "q" "c" (askArgs question), questionTitle askEnv (askArgs question),
    effectiveFields none []⟩

def askAnswers (question : String) : BTreeMap Value :=
  (∅ : BTreeMap Value).insert (askForm question).id (.obj [("answer", .str "yes")])

def askUsed (question : String) : BTreeMap String :=
  (∅ : BTreeMap String).insert "c"
    (agentCallIdentityHashForTool spelledSha256 noUrls "r" askEnv.tools "q" (askArgs question))

def askCheckpoint (question : String) : McpSuspendedCall :=
  questionCheckpoint askEnv "q" "c" (askArgs question) (askForm question)

theorem executeAskUser_askArgs {question : String} (h : answers[(askForm question).id]? = none) :
    executeAskUser askEnv answers "q" "c" (askArgs question) = .ok
      (.needsUser (askForm question)) :=
  @executeAskUser_of_none askEnv _ _ (askArgs question) _ none [] rfl rfl h

theorem askForm_id_inj {question question' : String} :
    (askForm question).id = (askForm question').id ↔
      minimizedBuiltinFullArgs (askArgs question) = minimizedBuiltinFullArgs (askArgs question') :=
  askUserQuestionId_inj Encoding.spelled_injective

theorem spelledSha256_hex_ne_empty (bytes : List UInt8) (h : bytes ≠ []) :
    spelledSha256.hex bytes ≠ "" := by
  intro hempty
  exact h (Encoding.spelled_injective (hempty.trans rfl))

/-- A question with a user in a URL is answered and asked a second time under another id. -/
theorem answered_question_not_consumed :
    executeAskUser askEnv ∅ "q" "c" (askArgs "http://u@h") =
        .ok (.needsUser (askForm "http://u@h")) ∧
      (askAnswers "http://u@h")[(askForm "http://u@h").id]? =
        some (.obj [("answer", .str "yes")]) ∧
      resumeQuestion askEnv (askUsed "http://u@h") (askAnswers "http://u@h")
          (askCheckpoint "http://u@h") = .ok (.needsUser (askForm "http://h")) ∧
      (askForm "http://h").id ≠ (askForm "http://u@h").id := by
  have hcopy : (askCheckpoint "http://u@h").args = askArgs "http://h" := by
    decide +kernel
  have hcanonical : minimizedBuiltinArgs (askArgs "http://h") =
      minimizedBuiltinArgs (askArgs "http://u@h") := by
    decide +kernel
  have hid : (askForm "http://h").id ≠ (askForm "http://u@h").id := by
    rw [ne_eq, askForm_id_inj]
    decide
  refine ⟨executeAskUser_askArgs (by simp), by simp [askAnswers], ?_, hid⟩
  have hverified : verifySuspended askEnv (askCheckpoint "http://u@h") = .ok () :=
    verifySuspended_questionCheckpoint spelledSha256_hex_ne_empty rfl
  have hregistered : checkUsedCallId "n" (askUsed "http://u@h") "c"
      (agentCallIdentityHashForTool spelledSha256 noUrls "r" askEnv.tools "q"
        (askArgs "http://h")) = .ok (askUsed "http://u@h") := by
    have hkind : toolKind askEnv.tools "q" = some .askUser := rfl
    simp [checkUsedCallId, askUsed, agentCallIdentityHashForTool, canonicalAgentRegistryArgs, hkind,
      hcanonical]
  have hnone : (askAnswers "http://u@h")[(askForm "http://h").id]? = none := by
    rw [askAnswers, BTreeMap.get_insert_of_ne _ _ hid]
    simp
  rw [resumeQuestion, hverified, hcopy]
  exact bind_eq_ok.mpr ⟨(), rfl, bind_eq_ok.mpr ⟨_, hregistered,
    unit_bind_eq_ok.mpr ⟨rfl, executeAskUser_askArgs hnone⟩⟩⟩

theorem answered_question_consumed_iff_plain :
    resumeQuestion askEnv (askUsed "a") (askAnswers "a") (askCheckpoint "a") =
      .ok (.result (.obj [("answer", .obj [("answer", .str "yes")])])) := by
  have hplain : minimizedBuiltinArgs (minimizedBuiltinArgs (askArgs "a")) =
      minimizedBuiltinFullArgs (askArgs "a") := by
    decide +kernel
  have hvalid : validateFormValues askEnv (askForm "a").fields
      (.obj [("answer", .str "yes")]) = .ok () := by
    decide +kernel
  have hused : (askUsed "a")["c"]? = some (agentCallIdentityHashForTool spelledSha256 noUrls
      "r" askEnv.tools "q" (askArgs "a")) := by
    simp [askUsed]
  have hanswer : (askAnswers "a")[(askForm "a").id]? = some (.obj [("answer", .str "yes")]) := by
    simp [askAnswers]
  exact ((@answered_question_consumed_iff askEnv "q" "c" (askArgs "a")
    spelledSha256_hex_ne_empty rfl ∅ _ _ _ _ (executeAskUser_askArgs (by simp)) hused hanswer hvalid
    rfl).1 hplain).2

end Gateway

end Qcg
