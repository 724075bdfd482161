import Qcg.State.Pins
import Qcg.Journal.Read

/-!
# The workspace of a resumed run

Before a run goes on, every file that its journal pins is verified against the workspace
and the blobs, and then the file inputs are put in place. Verification hands on the digests
that it has seen; an input that the journal does not know is compared with the bytes it was
admitted with, and is written when it is absent.
-/

namespace Qcg

open Json (Value)

namespace Resume

/-- What stands at a path of a workspace or of the blob store. -/
inductive FileNode where
  | file (bytes : Bytes)
  | directory
  | symlink
deriving DecidableEq

abbrev Workspace := BTreeMap FileNode

def hasDigestShape (digest : String) : Bool :=
  digest.utf8ByteSize = 64 && digest.toList.all fun c =>
    c.isDigit || ('a' ≤ c && c ≤ 'f') || ('A' ≤ c && c ≤ 'F')

/-- A digest function whose values have the shape of hexadecimal digests. -/
structure Sha256 where
  digest : Bytes → String
  shape : ∀ bytes, hasDigestShape (digest bytes) = true

/-- A file value and the bytes it decodes to, as read under the limit for file inputs. -/
structure FileValue where
  name : String
  bytes : Bytes
deriving DecidableEq

structure FileReader where
  limit : Option Nat
  read : Value → Except String FileValue
  safe : ∀ value file, read value = .ok file → Policy.isSafePathComponent file.name = true
  bounded : ∀ value file, read value = .ok file → limit.all fun n => file.bytes.length ≤ n

structure RuntimeLimits where
  outputFileLimitBytes : Option Nat := none
  outputTotalLimitBytes : Option Nat := none
  outputArtifactLimit : Option Nat := none

/-- What a resume reads beside the folded state and the workspace. -/
structure Env where
  sha : Sha256
  collisionKey : String → String
  limits : RuntimeLimits
  reader : FileReader
  blobs : BTreeMap FileNode
  /-- The ids of the file fields, in the order of the manifest. -/
  fields : List String
  inputs : BTreeMap Value

inductive ResumeError where
  | failed (message : String)
  | rewound (message : String)
  | pathSet (message : String)
  | pathDenied (path : String)
deriving DecidableEq

/-- A refused resume, and the file that was moved aside on the way. -/
structure Refusal where
  error : ResumeError
  quarantined : Option String := none
deriving DecidableEq

def refuse {α : Type} (message : String) : Except Refusal α :=
  .error { error := .failed ("cannot safely resume: " ++ message) }

def parents (path : String) : List String :=
  (Policy.parts path).inits.tail.dropLast.map (String.intercalate "/")

/-- No part of the path is a symbolic link, and no file stands where a directory should. -/
def Workspace.isDirect (ws : Workspace) (path : String) : Bool :=
  (parents path).all (fun parent =>
    match (ws[parent]? : Option FileNode) with
    | some (.file _) | some .symlink => false
    | some .directory | none => true) &&
  (ws[path]? : Option FileNode) ≠ some .symlink

def Workspace.makeDirs (ws : Workspace) (dirs : List String) : Workspace :=
  dirs.foldl (fun ws dir => if ws.contains dir then ws else ws.insert dir .directory) ws

def Workspace.write (ws : Workspace) (path : String) (bytes : Bytes) : Workspace :=
  (ws.makeDirs (parents path)).insert path (.file bytes)

inductive HashError where
  | notFound
  | unreadable

structure FileDigest where
  sha256 : String
  bytes : Nat

def hashFile (env : Env) : Option FileNode → Except HashError FileDigest
  | none => .error .notFound
  | some (.file bytes) =>
    if env.limits.outputFileLimitBytes.any (· < bytes.length) then .error .unreadable
    else .ok { sha256 := env.sha.digest bytes, bytes := bytes.length }
  | some .directory => .error .unreadable
  | some .symlink => .error .unreadable

structure CheckpointAccounting where
  bytesByPath : BTreeMap Nat := ∅
  totalBytes : Nat := 0

def RuntimeLimits.hasZero (limits : RuntimeLimits) : Bool :=
  limits.outputFileLimitBytes = some 0 || limits.outputTotalLimitBytes = some 0 ||
    limits.outputArtifactLimit = some 0

def CheckpointAccounting.record (limits : RuntimeLimits) (path : String) (bytes : Nat)
    (a : CheckpointAccounting) : Except Refusal CheckpointAccounting :=
  let previous := (a.bytesByPath[path]? : Option Nat)
  let count := a.bytesByPath.size + if previous.isSome then 0 else 1
  let total := a.totalBytes - previous.getD 0 + bytes
  if limits.hasZero then
    .error { error := .failed "runtime output limits must be greater than zero" }
  else if limits.outputFileLimitBytes.any (· < bytes) then
    .error { error := .failed ("output file `" ++ path ++ "` exceeds " ++
      toString (limits.outputFileLimitBytes.getD 0) ++ " bytes") }
  else if limits.outputArtifactLimit.any (· < count) then
    .error { error := .failed ("output artifact count exceeds " ++
      toString (limits.outputArtifactLimit.getD 0)) }
  else if a.totalBytes < previous.getD 0 then
    .error { error := .failed "output byte accounting underflowed" }
  else if 2 ^ 64 ≤ total then
    .error { error := .failed "output byte accounting overflowed" }
  else if limits.outputTotalLimitBytes.any (· < total) then
    .error { error := .failed ("output bytes exceed " ++
      toString (limits.outputTotalLimitBytes.getD 0)) }
  else .ok { bytesByPath := a.bytesByPath.insert path bytes, totalBytes := total }

/-- The parts by which two spellings are the same path: empty parts and inner dots are dropped. -/
def pathComponents (path : String) : List String :=
  match Policy.parts path with
  | [] | [""] => []
  | first :: rest =>
    (if first = "" then "/" else first) :: rest.filter fun part => part ≠ "" && part ≠ "."

def samePath (p q : String) : Bool :=
  pathComponents p = pathComponents q

def successfulPins (s : RunState) : List FilePin :=
  s.nodes.values.flatMap fun
    | .success _ files => files
    | .skipped _ | .failed _ => []

/-- A set of paths keeps the first spelling of each. -/
def addPath (paths : List String) (path : String) : List String :=
  if paths.any (samePath path) then paths else paths ++ [path]

/-- Every text under which the state speaks of a path. -/
def mentioned (s : RunState) : List String :=
  (successfulPins s).map FilePin.path ++ s.historicalFilePins.keys ++ s.removedFiles.toList ++
    s.latestFilePins.keys

def trackedPaths (s : RunState) : List String :=
  (mentioned s).foldl addPath []

/-- Every revision that must have its blob. -/
def pinnedBlobs (s : RunState) : List (String × String) :=
  (successfulPins s).map (fun pin => (pin.path, pin.sha256)) ++
    s.historicalFilePins.toList.flatMap (fun entry =>
      entry.2.toList.map fun digest => (entry.1, digest)) ++
    s.latestFilePins.toList

def verifyPinnedBlob (env : Env) (path sha256 : String) : Except Refusal Unit :=
  if !hasDigestShape sha256 then
    refuse ("historical blob for `" ++ path ++ "` has a malformed sha256 digest")
  else if (env.blobs[sha256]? : Option FileNode) = some .symlink then
    refuse ("historical blob for `" ++ path ++ "` is not a directly rooted regular file")
  else
    match hashFile env env.blobs[sha256]? with
    | .error .notFound => refuse ("historical blob for `" ++ path ++ "` is missing")
    | .error .unreadable => refuse ("historical blob for `" ++ path ++ "` is unreadable")
    | .ok digest =>
      if digest.sha256 ≠ sha256 then
        refuse ("historical blob for `" ++ path ++ "` was tampered (expected " ++ sha256 ++
          ", got " ++ digest.sha256 ++ ")")
      else .ok ()

/-- Every digest is verified once, for the first path that names it. -/
def verifyBlobs (env : Env) : List String → List (String × String) → Except Refusal Unit
  | _, [] => .ok ()
  | verified, (path, digest) :: rest =>
    if digest ∈ verified then verifyBlobs env verified rest
    else do
      verifyPinnedBlob env path digest
      verifyBlobs env (digest :: verified) rest

/-- What verification has seen: the digests it hands on and the bytes it has counted. -/
structure Seen where
  preverified : BTreeMap String := ∅
  accounting : CheckpointAccounting := {}

def quarantine {α : Type} (path : String) (error : ResumeError) : Except Refusal α :=
  .error { error, quarantined := some path }

/-- A path that no successful step and no latest pin names: absent, or one of its revisions. -/
def verifyHistorical (s : RunState) (env : Env) (ws : Workspace) (path : String) (seen : Seen) :
    Except Refusal Seen :=
  match hashFile env ws[path]? with
  | .error .notFound => .ok seen
  | .error .unreadable => refuse ("output `" ++ path ++ "` is unreadable")
  | .ok digest =>
    match (s.historicalFilePins[path]? : Option BTreeSet) with
    | none =>
      quarantine path (.failed ("cannot safely resume: output `" ++ path ++
        "` has workspace bytes without a journaled revision; quarantined"))
    | some digests =>
      if !digests.contains digest.sha256 then
        quarantine path (.failed ("cannot safely resume: output `" ++ path ++
          "` does not match any journaled revision (got " ++ digest.sha256 ++ "); quarantined"))
      else .ok { seen with preverified := seen.preverified.insert path digest.sha256 }

def verifyLatest (s : RunState) (env : Env) (ws : Workspace) (path : String) (seen : Seen) :
    Except Refusal Seen :=
  match hashFile env ws[path]? with
  | .error .notFound => refuse ("output `" ++ path ++ "` is missing")
  | .error .unreadable => refuse ("output `" ++ path ++ "` is unreadable")
  | .ok digest =>
    match (s.latestFilePins[path]? : Option String) with
    | none => refuse ("output `" ++ path ++ "` has no recorded latest pin")
    | some expected =>
      if digest.sha256 ≠ expected then
        quarantine path (.rewound ("cannot safely resume: output `" ++ path ++
          "` does not match its latest pinned revision " ++ expected ++ " (got " ++
          digest.sha256 ++ "); quarantined"))
      else do
        let accounting ← seen.accounting.record env.limits path digest.bytes
        return { preverified := seen.preverified.insert path digest.sha256, accounting }

def isSuccessful (s : RunState) (path : String) : Bool :=
  (successfulPins s).any fun pin => samePath path pin.path

def verifyPath (s : RunState) (env : Env) (ws : Workspace) (seen : Seen) (path : String) :
    Except Refusal Seen :=
  if !ws.isDirect path then
    refuse ("output `" ++ path ++ "` is not a directly rooted regular file")
  else if !isSuccessful s path && !s.latestFilePins.contains path &&
      !s.removedFiles.contains path then
    verifyHistorical s env ws path seen
  else if s.removedFiles.contains path then
    if (ws[path]? : Option FileNode).isNone then .ok seen
    else refuse ("removed output `" ++ path ++ "` is not absent")
  else verifyLatest s env ws path seen

def checkPath (path : String) : Except Refusal Unit :=
  if !Policy.isSafeRelativePath path then
    refuse ("journal contains unsafe output path `" ++ path ++ "`")
  else .ok ()

def checkTree (env : Env) (s : RunState) : Except Refusal Unit :=
  match Policy.validatePathTreeSet env.collisionKey
      (s.latestFilePins.keys.map fun path => (path, false)) with
  | .error message => .error { error := .pathSet message }
  | .ok () => .ok ()

def verifyFiles (s : RunState) (env : Env) (ws : Workspace) : Except Refusal Seen := do
  (trackedPaths s).forM checkPath
  checkTree env s
  verifyBlobs env [] (pinnedBlobs s)
  (trackedPaths s).foldlM (verifyPath s env ws) {}

/-- The workspace with the inputs placed so far, and the inputs as the steps see them. -/
structure Placement where
  workspace : Workspace
  inputs : BTreeMap Value

def Placement.settle (p : Placement) (id relative : String) : Placement :=
  { p with inputs := p.inputs.insert id (.str relative) }

def Placement.place (p : Placement) (id relative : String) (bytes : Bytes) : Placement :=
  { workspace := p.workspace.write relative bytes, inputs := p.inputs.insert id (.str relative) }

def relativePath (id : String) (file : FileValue) : String :=
  "files/" ++ id ++ "/" ++ file.name

def modified {α : Type} (id : String) : Except Refusal α :=
  refuse ("file input `" ++ id ++ "` does not match any journaled revision")

def rewoundInput {α : Type} (id expected actual : String) : Except Refusal α :=
  .error { error := .rewound ("cannot safely resume: file input `" ++ id ++
    "` does not match its latest pinned revision " ++ expected ++ " (got " ++ actual ++ ")") }

/-- An input that verification has not seen: it is read once. -/
def readInput (s : RunState) (env : Env) (id : String) (file : FileValue) (p : Placement) :
    Except Refusal Placement :=
  let relative := relativePath id file
  match (p.workspace[relative]? : Option FileNode) with
  | none =>
    if s.latestFilePins.contains relative || s.historicalFilePins.contains relative then
      refuse ("pinned file input `" ++ id ++ "` is missing from the workspace")
    else .ok (p.place id relative file.bytes)
  | some (.file actual) =>
    if env.reader.limit.any (· < actual.length) then
      refuse ("file input `" ++ id ++ "` is unreadable")
    else
      match (s.latestFilePins[relative]? : Option String),
          (s.historicalFilePins[relative]? : Option BTreeSet) with
      | some expected, _ =>
        if env.sha.digest actual ≠ expected then rewoundInput id expected (env.sha.digest actual)
        else .ok (p.settle id relative)
      | none, some digests =>
        if !digests.contains (env.sha.digest actual) then modified id
        else .ok (p.settle id relative)
      | none, none =>
        if actual ≠ file.bytes then
          refuse ("file input `" ++ id ++ "` was modified without a journaled pin")
        else .ok (p.settle id relative)
  | some .directory | some .symlink =>
    refuse ("file input `" ++ id ++ "` is not a regular file: (path `" ++ relative ++ "`)")

def resumeInput (s : RunState) (env : Env) (preverified : BTreeMap String) (id : String)
    (file : FileValue) (p : Placement) : Except Refusal Placement :=
  let relative := relativePath id file
  match (preverified[relative]? : Option String), (s.latestFilePins[relative]? : Option String),
      (s.historicalFilePins[relative]? : Option BTreeSet) with
  | some verified, some expected, _ =>
    if verified ≠ expected then rewoundInput id expected verified
    else .ok (p.settle id relative)
  | some verified, none, some digests =>
    if !digests.contains verified then modified id
    else .ok (p.settle id relative)
  | _, _, _ => readInput s env id file p

/-- Puts one file input in place; a fresh run writes it, a resumed one looks first. -/
def materializeInput (s : RunState) (env : Env) (resume : Bool) (preverified : BTreeMap String)
    (p : Placement) (id : String) : Except Refusal Placement :=
  match (env.inputs[id]? : Option Value) with
  | none => .ok p
  | some value =>
    if !Policy.isSafePathComponent id then
      .error { error := .failed ("invalid file input `" ++ id ++
        "`: field id is not a safe relative path") }
    else
      match env.reader.read value with
      | .error message =>
        .error { error := .failed ("invalid file input `" ++ id ++ "`: " ++ message) }
      | .ok file =>
        if !p.workspace.isDirect (relativePath id file) then
          .error { error := .pathDenied (relativePath id file) }
        else if resume then resumeInput s env preverified id file p
        else .ok (p.place id (relativePath id file) file.bytes)

def materializeFileInputs (s : RunState) (env : Env) (resume : Bool)
    (preverified : BTreeMap String) (ws : Workspace) : Except Refusal Placement :=
  env.fields.foldlM (materializeInput s env resume preverified)
    { workspace := ws, inputs := env.inputs }

def resumeFiles (s : RunState) (env : Env) (ws : Workspace) : Except Refusal Placement := do
  let seen ← verifyFiles s env ws
  materializeFileInputs s env true seen.preverified ws

end Resume

end Qcg
