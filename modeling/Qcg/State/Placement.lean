import Qcg.State.Carried
import Qcg.State.Identity

/-!
# The place of a record

Sequence number, run and trace identity say where a record stands. Two records with the same
payload at different places do the same to the carried part of the state.
-/

namespace Qcg

open Json (Value Members)
open Except (map_bind_congr)

namespace RunEvent

variable {members : Members} {parsed : RunEvent}

theorem requiredString_of_getStr {field label text : String}
    (h : Value.getStr (.obj members) field = some text) :
    requiredString members field label = .ok text := by
  have h : (Members.get members field).bind Value.asStr = some text := h
  simp only [requiredString, h]

/-- The members that make a value an envelope. -/
structure Enveloped (event : Value) : Prop where
  seq : (event.getU64 "seq").isSome = true
  ts : (event.getStr "ts").isSome = true
  kind : (event.getStr "t").isSome = true
  runId : (event.getStr "run_id").isSome = true
  traceId : (event.getStr "trace_id").isSome = true
  spanId : (event.getStr "span_id").isSome = true

/-- What an envelope holds besides the identity of the record. -/
theorem envelope_of_enveloped (h : Enveloped (.obj members)) :
    ∃ parsed, envelope (.obj members) = .ok parsed ∧
      parsed.path = Value.getStr (.obj members) "node" ∧
      parsed.data = .obj (members.filter fun member => !commonFields.contains member.1) := by
  obtain ⟨seq, hseq⟩ := Option.isSome_iff_exists.mp h.seq
  obtain ⟨ts, hts⟩ := Option.isSome_iff_exists.mp h.ts
  obtain ⟨kind, hkind⟩ := Option.isSome_iff_exists.mp h.kind
  obtain ⟨runId, hrunId⟩ := Option.isSome_iff_exists.mp h.runId
  obtain ⟨traceId, htraceId⟩ := Option.isSome_iff_exists.mp h.traceId
  obtain ⟨spanId, hspanId⟩ := Option.isSome_iff_exists.mp h.spanId
  have hseq : (Members.get members "seq").bind Value.asU64 = some seq := hseq
  simp only [envelope, Value.asObject, hseq, requiredString_of_getStr hts,
    requiredString_of_getStr hkind, requiredString_of_getStr hrunId,
    requiredString_of_getStr htraceId, requiredString_of_getStr hspanId, bind, Except.bind]
  exact ⟨_, rfl, rfl, rfl⟩

theorem enveloped_of_envelope {event : Value} (h : envelope event = .ok parsed) :
    Enveloped event := by
  obtain ⟨hseq, hts, hkind, hrunId, htraceId, hspanId⟩ := envelope_members h
  constructor
  · simp [hseq]
  · simp [hts]
  · simp [hkind]
  · simp [hrunId]
  · simp [htraceId]
  · simp [hspanId]

end RunEvent

/-- The members that place a record in its run. -/
def placeKeys : List String :=
  ["seq", "run_id", "trace_id", "span_id", "parent_span_id"]

/-- Records that differ in their places only. -/
structure SamePayload (e e' : Value) : Prop where
  get : ∀ key, key ∉ placeKeys → e'.get key = e.get key
  envelope : ∃ parsed parsed', RunEvent.envelope e = .ok parsed ∧
    RunEvent.envelope e' = .ok parsed' ∧ parsed'.path = parsed.path ∧ parsed'.data = parsed.data

namespace SamePayload

variable {e e' : Value}

theorem getStr (h : SamePayload e e') (key : String) (hkey : key ∉ placeKeys) :
    e'.getStr key = e.getStr key := by
  rw [Value.getStr, h.get key hkey, Value.getStr]

theorem getU64 (h : SamePayload e e') (key : String) (hkey : key ∉ placeKeys) :
    e'.getU64 key = e.getU64 key := by
  rw [Value.getU64, h.get key hkey, Value.getU64]

theorem index (h : SamePayload e e') (key : String) (hkey : key ∉ placeKeys) :
    e'.index key = e.index key := by
  rw [Value.index, h.get key hkey, Value.index]

end SamePayload

namespace FoldState

variable {api : Api} {e e' : Value} {kind : EventKind} {s : FoldState}

section

variable (h : SamePayload e e')

include h

theorem noteSearchCost_same :
    s.noteSearchCost kind e' = s.noteSearchCost kind e := by
  simp (disch := decide) only [noteSearchCost, h.get]

theorem applyBudgetCharged_same :
    s.applyBudgetCharged e' = s.applyBudgetCharged e := by
  simp (disch := decide) only [applyBudgetCharged, h.get]

theorem applyLlmCall_same : s.applyLlmCall e' = s.applyLlmCall e := by
  simp (disch := decide) only [applyLlmCall, h.get]

theorem applyAgentFileChanges_same :
    s.applyAgentFileChanges e' = s.applyAgentFileChanges e := by
  obtain ⟨parsed, parsed', hparsed, hparsed', hpath, hdata⟩ := h.envelope
  simp only [applyAgentFileChanges, hparsed, hparsed', Except.bind, bind, hpath, hdata]

theorem applyAgentCheckpoint_same :
    s.applyAgentCheckpoint e' = s.applyAgentCheckpoint e := by
  simp (disch := decide) only [applyAgentCheckpoint, h.get, h.getStr]

theorem applyStatePatched_same :
    s.applyStatePatched e' = s.applyStatePatched e := by
  simp (disch := decide) only [applyStatePatched, objectField, h.get]

/-- The journaled report of a task keeps its place, which the carried part does not hold. -/
theorem applyTaskJoined_same :
    (s.applyTaskJoined kind e').map carried = (s.applyTaskJoined kind e).map carried := by
  have hresumable : resumableReport e' = resumableReport e := by
    simp (disch := decide) only [resumableReport, h.index]
  unfold applyTaskJoined
  simp (disch := decide) only [h.index, h.get, hresumable]
  split_ifs
  · rfl
  all_goals
    apply map_bind_congr
    intro owner
    rfl

/-- Only the prompt remembers at which place it was asked. -/
theorem installInteraction_same (confirmation : Bool) :
    (s.installInteraction api e' confirmation).map carried =
      (s.installInteraction api e confirmation).map carried := by
  have hpayload : e'.get (if confirmation then "confirm" else "question") =
      e.get (if confirmation then "confirm" else "question") := by
    cases confirmation
    · exact h.get "question" (by decide)
    · exact h.get "confirm" (by decide)
  unfold installInteraction
  rw [hpayload]
  cases e.get (if confirmation then "confirm" else "question") with
  | none => rfl
  | some payload =>
    apply map_bind_congr
    intro interaction
    dsimp only
    cases s.interactionOwner e' interaction <;> cases s.interactionOwner e interaction <;> rfl

theorem applyStepFinished_same :
    (s.applyStepFinished api e').map carried = (s.applyStepFinished api e).map carried := by
  have hsuccess (s : FoldState) (path : String) (files : List FilePin) :
      s.recordSuccess e' path files = s.recordSuccess e path files := by
    simp (disch := decide) only [recordSuccess, stepOutput, h.get, h.getStr]
  have hfailure (s : FoldState) (path status : String) :
      s.recordFailure e' path status = s.recordFailure e path status := by
    simp (disch := decide) only [recordFailure, failureDetail, h.get]
  have hpins (key : String) (hkey : key ∉ placeKeys) : pinsOf e' key = pinsOf e key := by
    rw [pinsOf, h.get key hkey, pinsOf]
  simp (disch := decide) only [applyStepFinished_conclude, h.getStr, hpins]
  apply map_bind_congr
  intro path
  apply map_bind_congr
  intro status
  apply map_bind_congr
  intro files
  apply map_bind_congr
  intro failedFiles
  simp only [concludeStep, hsuccess, hfailure]
  split_ifs
  · exact installInteraction_same h _
  · rfl
  · rfl

theorem applyStepSkipped_same :
    s.applyStepSkipped e' = s.applyStepSkipped e := by
  simp (disch := decide) only [applyStepSkipped, failureDetail, h.get, h.getStr]

theorem applyResource_same : s.applyResource e' = s.applyResource e := by
  simp (disch := decide) only [applyResource, h.getStr]

theorem settles_same (interaction : Interaction) :
    settles kind e' interaction = settles kind e interaction := by
  cases interaction with
  | question spec =>
    show (_ && decide (e'.getStr "question_id" = some spec.id)) = _
    rw [h.getStr "question_id" (by decide)]
    rfl
  | confirmation spec =>
    show (_ && decide (e'.getStr "confirmation_id" = some spec.id)) = _
    rw [h.getStr "confirmation_id" (by decide)]
    rfl

theorem applyResponse_same :
    s.applyResponse kind e' = s.applyResponse kind e := by
  have hid : e'.getStr (if kind = .userAnswered then "question_id" else "confirmation_id") =
      e.getStr (if kind = .userAnswered then "question_id" else "confirmation_id") := by
    split_ifs
    · exact h.getStr "question_id" (by decide)
    · exact h.getStr "confirmation_id" (by decide)
  have hsettles : settles kind e' = settles kind e := funext (settles_same h)
  simp (disch := decide) only [applyResponse, queuedAtOf, hid, hsettles, h.get, h.getStr]

theorem applyCancelRequested_same :
    s.applyCancelRequested e' = s.applyCancelRequested e := by
  simp (disch := decide) only [applyCancelRequested, h.getStr]

theorem applyHookFailed_same :
    s.applyHookFailed e' = s.applyHookFailed e := by
  simp (disch := decide) only [applyHookFailed, h.getStr]

theorem applyHookSkipped_same :
    s.applyHookSkipped e' = s.applyHookSkipped e := by
  simp (disch := decide) only [applyHookSkipped, h.getStr]

theorem applyMcpInputPending_same :
    s.applyMcpInputPending e' = s.applyMcpInputPending e := by
  simp (disch := decide) only [applyMcpInputPending, mcpDescriptor, mcpPendingFields,
    List.foldl_cons, List.foldl_nil, h.get, h.getStr]

theorem applyMcpContinuationConsumed_same :
    s.applyMcpContinuationConsumed e' = s.applyMcpContinuationConsumed e := by
  simp (disch := decide) only [applyMcpContinuationConsumed, h.getStr]

theorem applyMcpContinuationResumed_same :
    s.applyMcpContinuationResumed e' = s.applyMcpContinuationResumed e := by
  simp (disch := decide) only [applyMcpContinuationResumed, h.getStr]

theorem applyOperationStarted_same :
    s.applyOperationStarted e' = s.applyOperationStarted e := by
  simp (disch := decide) only [applyOperationStarted, onIndeterminateOf, h.getStr]

theorem applyOperationFinished_same :
    s.applyOperationFinished e' = s.applyOperationFinished e := by
  simp (disch := decide) only [applyOperationFinished, operationReport, h.get, h.getStr]

theorem applyRecord_same (hconfirm : kind ≠ .confirmRequest)
    (hwaiting : kind ≠ .runWaiting) :
    (s.applyRecord api kind e').map carried = (s.applyRecord api kind e).map carried := by
  cases kind
  case confirmRequest => exact absurd rfl hconfirm
  case runWaiting => exact absurd rfl hwaiting
  case parallelTaskJoined => exact applyTaskJoined_same h
  case foreachSiblingDrained => exact applyTaskJoined_same h
  case foreachIterationSettled => exact applyTaskJoined_same h
  case stepFinished => exact applyStepFinished_same h
  all_goals
    simp only [applyRecord, applyBudgetCharged_same h, applyLlmCall_same h,
      applyAgentFileChanges_same h, applyAgentCheckpoint_same h, applyStatePatched_same h,
      applyStepSkipped_same h, applyResource_same h, applyResponse_same h,
      applyCancelRequested_same h, applyHookFailed_same h, applyHookSkipped_same h,
      applyMcpInputPending_same h, applyMcpContinuationConsumed_same h,
      applyMcpContinuationResumed_same h, applyOperationStarted_same h,
      applyOperationFinished_same h]
  all_goals rfl

end

end FoldState

end Qcg
