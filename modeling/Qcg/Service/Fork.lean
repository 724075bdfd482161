import Qcg.State.Pins
import Qcg.Journal.Stamp
import Mathlib.Data.List.Sort

/-!
# Checkpoint forks

`populate_checkpoint_fork` builds a new run from the history of another one up to a sequence
number. It selects the events that carry over, rebuilds the workspace from their file pins,
and writes both streams of the source anew under the identity of the fork.
-/

namespace Qcg

open Json (Value Members)

inductive ServiceError where
  | invalid (message : String)
  | journal (error : JournalError)
deriving DecidableEq

namespace Fork

/-- The two streams of the source run as they were read. A vector never holds as many values as
a `u64` has, so numbering them cannot saturate. -/
structure Source where
  durable : List Value
  audit : List Value
  fits : durable.length + audit.length + 2 < 2 ^ 64

/-- A blob is intact when it is a regular file whose bytes have the digest that names it. -/
inductive BlobState where
  | missing
  | corrupt
  | intact
deriving DecidableEq

/-- The blob store of the source run and the checks on a set of workspace paths. -/
structure Store where
  /-- `validate_path_tree_set` on the paths, each of them a file. -/
  pathTree : List String → Except ServiceError Unit
  blob : String → BlobState

/-- The patch that a fork may apply on top of its history. -/
structure StatePatch where
  inputs : Members := []
  stepOutputs : Members := []
  stepStatuses : Members := []

/-- Kinds that stay with the source: they ended or suspended that run. -/
def leftBehind : List String :=
  ["run_finished", "run_error", "run_canceled", "run_interrupted", "run_waiting"]

/-- A confirmation request keeps its pins as a suspended step, without the pending prompt. -/
def suspended (members : Members) : Members :=
  Members.insert (Members.insert (Members.remove members "confirm") "t" (.str "step_finished"))
    "status" (.str "needs_confirm")

def carryOver (event : Value) : Option Value :=
  let kind := (event.getStr "t").getD ""
  if leftBehind.contains kind then none
  else if kind = "confirm_request" then
    match event.getStr "node", event with
    | some _, .obj members => some (.obj (suspended members))
    | _, _ => none
  else some event

def through (events : List Value) (atSeq : Nat) : List Value :=
  events.filter fun event => (event.getU64 "seq").any (· ≤ atSeq)

def selected (events : List Value) (atSeq : Nat) : List Value :=
  (through events atSeq).filterMap carryOver

def isAdmission (event : Value) : Bool :=
  event.getStr "t" = some "run_started" || event.getStr "t" = some "run_queued"

def select (sourceId : String) (events : List Value) (atSeq : Nat) :
    Except ServiceError (List Value) :=
  if !events.any fun event => event.getU64 "seq" = some atSeq then
    .error (.invalid ("run `" ++ sourceId ++ "` has no checkpoint sequence " ++ toString atSeq))
  else if !(selected events atSeq).any isAdmission then
    .error (.invalid ("checkpoint " ++ sourceId ++ "@" ++ toString atSeq ++
      " predates run initialization"))
  else .ok (selected events atSeq)

/-- The files to write and, for every blob that any pin needs, a path that needs it. Safe paths
are equal as paths exactly when they are equal as texts. -/
structure Plan where
  latestFiles : BTreeMap String := ∅
  requiredBlobs : BTreeMap String := ∅

def isHexDigit (c : Char) : Bool :=
  c.isDigit || ('a' ≤ c && c ≤ 'f') || ('A' ≤ c && c ≤ 'F')

def validateBlobDigest (path digest : String) : Except ServiceError Unit :=
  if digest.utf8ByteSize ≠ 64 ∨ ¬digest.toList.all isHexDigit then
    .error (.invalid ("checkpoint file `" ++ path ++ "` has a malformed sha256 digest"))
  else .ok ()

def stringsAt (event : Value) (key : String) : List String :=
  (((event.get key).bind Value.asArray).getD []).filterMap Value.asStr

/-- The pins of a report: of its own files first, then of the failed attempt's. -/
def pinEntries (event : Value) : List Value :=
  ["files", "failed_files"].flatMap fun key => ((event.get key).bind Value.asArray).getD []

def Plan.addPin (projects : Bool) (plan : Plan) (file : Value) : Except ServiceError Plan := do
  let path ←
    match file.getStr "path" with
    | some path => .ok path
    | none => .error (.invalid "checkpoint file pin has no path")
  if !Policy.isSafeRelativePath path then
    .error (.invalid ("checkpoint file path `" ++ path ++ "` is unsafe"))
  let digest ←
    match file.getStr "sha256" with
    | some digest => .ok digest
    | none => .error (.invalid ("checkpoint file `" ++ path ++ "` has no sha256"))
  validateBlobDigest path digest
  let requiredBlobs :=
    if plan.requiredBlobs.contains digest then plan.requiredBlobs
    else plan.requiredBlobs.insert digest path
  let latestFiles := if projects then plan.latestFiles.insert path digest else plan.latestFiles
  return { latestFiles, requiredBlobs }

/-- The status of a report moves the workspace as in the fold. -/
def projects (event : Value) : Bool :=
  (event.getStr "status").any fun status =>
    ["success", "repaired", "routed", "answered_on_fail", "regenerated"].contains status ||
      ["needs_user", "needs_confirm"].contains status

def Plan.removeFiles (plan : Plan) (paths : List String) : Plan :=
  { plan with latestFiles := paths.foldl (fun files path => files.erase path) plan.latestFiles }

def Plan.addEvent (plan : Plan) (event : Value) : Except ServiceError Plan :=
  let plan :=
    if event.getStr "t" = some "agent_file_changes" then
      plan.removeFiles (stringsAt event "removed_files")
    else plan
  if event.getStr "t" ≠ some "step_finished" then .ok plan
  else (pinEntries event).foldlM (Plan.addPin (projects event)) plan

def plan (events : List Value) : Except ServiceError Plan :=
  events.foldlM Plan.addEvent {}

def requireBlob (store : Store) (path digest : String) : Except ServiceError Unit :=
  match store.blob digest with
  | .missing =>
      .error (.invalid ("checkpoint blob `" ++ digest ++ "` for `" ++ path ++
        "` is missing; refusing the fork"))
  | .corrupt =>
      .error (.invalid ("checkpoint blob `" ++ digest ++ "` for `" ++ path ++
        "` failed integrity verification"))
  | .intact => .ok ()

/-- Every file is copied from an intact blob, and every other blob that a pin needs is kept. -/
def materialize (store : Store) (plan : Plan) : Except ServiceError (BTreeMap String) := do
  store.pathTree plan.latestFiles.keys
  plan.latestFiles.toList.forM fun file => requireBlob store file.1 file.2
  plan.requiredBlobs.toList.forM fun blob => requireBlob store blob.2 blob.1
  return plan.latestFiles

/-- A record on its way into one of the fork's streams. -/
structure Entry where
  seq : Nat
  isAudit : Bool
  event : Value

/-- Order by sequence number, durable records before observations of the same number. -/
def Entry.le (a b : Entry) : Prop :=
  a.seq < b.seq ∨ a.seq = b.seq ∧ (a.isAudit = true → b.isAudit = true)

instance : DecidableRel Entry.le := fun a b => by
  unfold Entry.le
  infer_instance

def durableEntries (events : List Value) : List Entry :=
  events.map fun event => { seq := (event.getU64 "seq").getD 0, isAudit := false, event }

def auditEntries (events : List Value) (atSeq : Nat) : List Entry :=
  events.filterMap fun event =>
    match event.getU64 "seq" with
    | some seq => if seq ≤ atSeq then some { seq, isAudit := true, event } else none
    | none => none

/-- Both streams in the order in which the source wrote them. -/
def history (events audit : List Value) (atSeq : Nat) : List Entry :=
  (durableEntries events ++ auditEntries audit atSeq).insertionSort Entry.le

/-- The members that place a record in its run. -/
def restamp (stamps : Stamps) (targetId : String) (seq : Nat) (members : Members) : Members :=
  let members := Members.insert members "seq" (.num seq)
  let members := Members.insert members "run_id" (.str targetId)
  let members := Members.insert members "trace_id" (.str (stamps.traceIdForRun targetId))
  let members := Members.insert members "span_id" (.str (stamps.spanIdForSeq seq))
  if (Members.get members "parent_span_id").isSome then
    let scope :=
      match (Members.get members "node").bind Value.asStr with
      | some node => "step:" ++ node
      | none => "run"
    Members.insert members "parent_span_id" (.str (stamps.spanIdForScope targetId scope))
  else members

/-- The records of the history from the next sequence number on, in the order of writing. -/
def renumber (stamps : Stamps) (targetId : String) : Nat → List Entry →
    Except ServiceError (List Entry)
  | _, [] => .ok []
  | nextSeq, entry :: rest =>
      match entry.event with
      | .obj members => do
          let seq := nextSeq + 1
          let written := { entry with
            seq, event := .obj (restamp stamps targetId seq members) }
          return written :: (← renumber stamps targetId seq rest)
      | _ => .error (.invalid "checkpoint journal event is not an object")

def ownMembers (stamps : Stamps) (kind targetId : String) (seq : Nat) : Members :=
  [("t", .str kind), ("ts", .str (stamps.now seq)), ("seq", .num seq), ("run_id", .str targetId),
    ("trace_id", .str (stamps.traceIdForRun targetId)),
    ("span_id", .str (stamps.spanIdForSeq seq))]

def forkEvent (stamps : Stamps) (sourceId targetId : String) (atSeq seq : Nat) : Value :=
  .obj (Members.ofList (ownMembers stamps "run_forked" targetId seq ++
    [("source_run_id", .str sourceId), ("source_seq", .num atSeq)]))

def patchEvents (stamps : Stamps) (targetId : String) (patch : StatePatch) (seq : Nat) :
    List Value :=
  if patch.inputs.isEmpty && patch.stepOutputs.isEmpty && patch.stepStatuses.isEmpty then []
  else [.obj (Members.ofList (ownMembers stamps "state_patched" targetId seq ++
    [("inputs", .obj patch.inputs), ("step_outputs", .obj patch.stepOutputs),
      ("step_statuses", .obj patch.stepStatuses)]))]

/-- What the fork writes: the renumbered history and its own records after it. -/
structure Streams where
  written : List Entry
  own : List Value

def Streams.journal (streams : Streams) : List Value :=
  (streams.written.filter (!·.isAudit)).map Entry.event ++ streams.own

def Streams.audit (streams : Streams) : List Value :=
  (streams.written.filter (·.isAudit)).map Entry.event

def writeStreams (stamps : Stamps) (sourceId targetId : String) (atSeq : Nat) (patch : StatePatch)
    (events audit : List Value) : Except ServiceError Streams := do
  let written ← renumber stamps targetId 0 (history events audit atSeq)
  let seq := written.length + 1
  return {
    written
    own := forkEvent stamps sourceId targetId atSeq seq ::
      patchEvents stamps targetId patch (seq + 1) }

structure Forked where
  workspace : BTreeMap String
  streams : Streams
  state : RunState

def populateCheckpointFork (api : Api) (stamps : Stamps) (store : Store)
    (sourceId targetId : String) (atSeq : Nat) (patch : StatePatch) (source : Source) :
    Except ServiceError Forked := do
  let events ← select sourceId source.durable atSeq
  let plan ← plan events
  let workspace ← materialize store plan
  let streams ← writeStreams stamps sourceId targetId atSeq patch events source.audit
  let state ←
    match RunState.foldValues api streams.journal with
    | .ok state => .ok state
    | .error error => .error (.journal error)
  return { workspace, streams, state }

end Fork

end Qcg
