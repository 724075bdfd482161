import Qcg.Service.PackageInventory

/-!
# Unpacking a package

An archive is a list of entries whose names, modes, sizes and contents come from elsewhere.
Its names are normalized and checked as a set before the target changes. Then every entry is
streamed into place under a budget of bytes, the result is compared with the SBOM it carries,
and at the end the directories get their modes.
-/

namespace Qcg

open EStateM (Spec Tracks spec_bind spec_ite spec_pure spec_throw tracks_get tracks_pure
  tracks_throw)

namespace Package

inductive CompressionMethod where
  | store
  | deflate
  | other
deriving DecidableEq

/-- A central record and the data that its local entry delivers, read by read. -/
structure ZipEntry where
  name : Bytes
  isDir : Bool
  externalAttributes : BitVec 32
  encrypted : Bool
  method : CompressionMethod
  declaredSize : Nat
  crc : Nat
  /-- The local entry can be found. -/
  located : Bool
  reads : List Bytes
  /-- The data end in an error of the reader or the decompressor. -/
  broken : Bool

structure Archive where
  entries : List ZipEntry
  entriesHint : Nat
  /-- The records end in an invalid one. -/
  malformed : Bool

structure UnpackEnv extends Env where
  fromUtf8 : Bytes → Option String
  crc32 : Bytes → Nat

def unixModeTypeMask : Mode := 0o170000

def unixModeSymlink : Mode := 0o120000

def pushPart (name : String) (rel : List String) (part : String) : Except String (List String) :=
  if part = "" ∨ part = "." then .ok rel
  else if part = ".." then
    if rel = [] then .error ("archive contains an unsafe path: " ++ name) else .ok rel.dropLast
  else .ok (rel ++ [part])

/-- Normalizes both separators, and refuses what leads out of the archive. -/
def packageEntryPath (env : UnpackEnv) (bytes : Bytes) : Except String String :=
  match env.fromUtf8 bytes with
  | none => .error "archive path is not UTF-8"
  | some name =>
    if name.toList.head? = some '/' ∨ name.toList.head? = some '\\' ∨
        name.toList.any (fun c => c = '\x00' || c = ':') then
      .error ("archive contains an unsafe path: " ++ name)
    else
      Policy.portableRelativePath <$>
        ((name.toList.splitOnP fun c => c = '/' || c = '\\').map String.ofList).foldlM
          (pushPart name) []

def checkCount (limit : Option Nat) (count : Nat) : Except String Unit :=
  if limit.any (· < count) then
    .error ("archive contains too many entries: " ++ toString count ++ " > " ++
      toString (limit.getD 0))
  else .ok ()

structure Scan where
  count : Nat := 0
  paths : List (String × Bool) := []

def scanEntry (env : UnpackEnv) (limit : Option Nat) (scan : Scan) (entry : ZipEntry) :
    Except String Scan := do
  checkCount limit (scan.count + 1)
  let rel ← packageEntryPath env entry.name
  .ok { count := scan.count + 1
        paths := if rel = "" then scan.paths else scan.paths ++ [(rel, entry.isDir)] }

/-- Validates the records and their names before anything is written. -/
def validateEntryCount (env : UnpackEnv) (archive : Archive) (limit : Option Nat) :
    Except String Unit := do
  checkCount limit archive.entriesHint
  let scan ← archive.entries.foldlM (scanEntry env limit) {}
  if archive.malformed then .error "invalid package ZIP"
  else do
    Policy.validatePathTreeSet env.collisionKey.key scan.paths
    if scan.count ≠ archive.entriesHint then
      .error ("archive entry count mismatch: " ++ toString scan.count ++ " != " ++
        toString archive.entriesHint)
    else .ok ()

def verifyClaim (env : UnpackEnv) (entry : ZipEntry) (copied : Bytes) : Except String Unit :=
  if env.crc32 copied = entry.crc ∧ copied.length = entry.declaredSize then .ok ()
  else .error "invalid package ZIP: claimed size or checksum does not match"

/-- One read; at most one byte more than the budget is taken from the data. -/
def takePiece (remaining : Option Nat) (copied read : Bytes) : Bytes :=
  match remaining with
  | none => read
  | some budget => read.take (budget + 1 - copied.length)

/-- Copies the data within the budget; a piece that exceeds it is not written. -/
def copyReads (env : UnpackEnv) (entry : ZipEntry) (remaining maxBytes : Option Nat)
    (copied : Bytes) : List Bytes → Content
  | [] => ⟨[], if entry.broken then .error "invalid package ZIP" else verifyClaim env entry copied⟩
  | read :: reads =>
    let piece := takePiece remaining copied read
    if piece = [] then ⟨[], verifyClaim env entry copied⟩
    else if remaining.any (· < copied.length + piece.length) then
      ⟨[], .error ("archive expanded size exceeds " ++
        toString (maxBytes.getD (2 ^ 64 - 1)) ++ " bytes")⟩
    else
      let content := copyReads env entry remaining maxBytes (copied ++ piece) reads
      ⟨piece :: content.pieces, content.outcome⟩

def copyPackageEntry (env : UnpackEnv) (entry : ZipEntry) (remaining maxBytes : Option Nat) :
    Content :=
  copyReads env entry remaining maxBytes [] entry.reads

structure Unpacked where
  unpackedBytes : Nat := 0
  directories : List (String × Mode) := []

/-- The refusals that an entry meets before its data are read. -/
def checkEntry (limits : PackageLimits) (unpackedBytes : Nat) (rel : String) (entry : ZipEntry) :
    Except String Unit :=
  if (entry.externalAttributes >>> 16) &&& unixModeTypeMask = unixModeSymlink then
    .error ("archive contains a symbolic link `" ++ rel ++ "`")
  else if entry.encrypted then .error "encrypted ZIP entries are unsupported"
  else if entry.method = .other then .error "unsupported ZIP compression method"
  else if 2 ^ 64 ≤ unpackedBytes + entry.declaredSize then
    .error "archive expanded size overflowed"
  else if limits.maxBytes.any (· < unpackedBytes + entry.declaredSize) then
    .error ("archive expanded size exceeds " ++ toString (limits.maxBytes.getD 0) ++ " bytes")
  else if entry.externalAttributes >>> 16 = 0 then
    .error ("archive entry `" ++ rel ++ "` is missing an explicit Unix mode")
  else if !entry.located then .error "invalid package ZIP"
  else .ok ()

def liftExcept {α : Type} : Except String α → Action α
  | .ok a => pure a
  | .error error => throw error

def unpackEntry (env : UnpackEnv) (limits : PackageLimits) (target : Location) (s : Unpacked)
    (entry : ZipEntry) : Action Unpacked := do
  let rel ← liftExcept (packageEntryPath env entry.name)
  if rel = "" then pure s
  else do
    liftExcept (checkEntry limits s.unpackedBytes rel entry)
    let mode := sanitizeModeBits (entry.externalAttributes >>> 16)
    let content := copyPackageEntry env entry (limits.maxBytes.map (· - s.unpackedBytes))
      limits.maxBytes
    let unpackedBytes := s.unpackedBytes + entry.declaredSize
    if entry.isDir then do
      -- The data of a directory go nowhere.
      liftExcept content.outcome
      placeDirectory env.host target rel
      pure { unpackedBytes, directories := s.directories ++ [(rel, mode)] }
    else do
      placeFile env.host target rel mode content
      pure { s with unpackedBytes }

def unpackPackage (env : UnpackEnv) (limits : PackageLimits) (listing : Listing)
    (archive : Archive) (target : Location) : Action Unit := do
  liftExcept (validateEntryCount env archive limits.maxEntries)
  openPinnedDir env.host target
  let s ← archive.entries.foldlM (unpackEntry env limits target) {}
  if archive.malformed then throw "invalid package ZIP"
  else do
    liftExcept (verifyPackageInventory env.toEnv limits listing target (← get))
    restoreDirectoryModes env.host target s.directories

variable {α : Type}

section Contained

variable {env : UnpackEnv} {limits : PackageLimits} {listing : Listing} {archive : Archive}
  {target : Location} {R : Disk → Disk → Prop}

theorem tracks_liftExcept [IsPreorder Disk R] (x : Except String α) : (liftExcept x).Tracks R := by
  cases x with
  | ok a => exact tracks_pure a
  | error error => exact tracks_throw error

theorem tracks_openPinnedDir [IsPreorder Disk R] (host : Host) :
    (openPinnedDir host target).Tracks R := by
  refine tracks_get.bind fun disk => ?_
  split
  · exact tracks_throw _
  · exact tracks_throw _
  · exact tracks_throw _
  · exact (tracks_pure ()).ite (tracks_throw _)

theorem tracks_unpackEntry (s : Unpacked) (entry : ZipEntry) :
    (unpackEntry env limits target s entry).Tracks (Contained target) := by
  refine (tracks_liftExcept _).bind fun rel => ?_
  apply Tracks.ite (tracks_pure _)
  refine (tracks_liftExcept _).bind fun _ => ?_
  apply Tracks.ite
  · refine (tracks_liftExcept _).bind fun _ => ?_
    exact (tracks_placeDirectory directs_contained _ _).bind fun _ => tracks_pure _
  · exact (tracks_placeFile _ _ _ _).bind fun _ => tracks_pure _

theorem tracks_unpackPackage :
    (unpackPackage env limits listing archive target).Tracks (Contained target) := by
  refine (tracks_liftExcept _).bind fun _ => ?_
  refine (tracks_openPinnedDir _).bind fun _ => ?_
  refine (EStateM.tracks_foldlM (fun s entry _ => tracks_unpackEntry s entry) _).bind fun s => ?_
  apply Tracks.ite (tracks_throw _)
  refine tracks_get.bind fun disk => ?_
  refine (tracks_liftExcept _).bind fun _ => ?_
  exact tracks_restoreDirectoryModes directs_contained _ _

end Contained

section Budget

variable {env : UnpackEnv} {limits : PackageLimits} {listing : Listing} {archive : Archive}
  {target : Location} {entry : ZipEntry}

theorem copyReads_le {budget : Nat} {maxBytes : Option Nat} {copied : Bytes} {reads : List Bytes}
    (h : copied.length ≤ budget) :
    copied.length + (copyReads env entry (some budget) maxBytes copied reads).bytes.length ≤
      budget := by
  induction reads generalizing copied with
  | nil => simpa [copyReads, Content.bytes] using h
  | cons read reads ih =>
    simp only [copyReads, Option.any_some, decide_eq_true_eq]
    split_ifs with hend hover
    · simpa [Content.bytes] using h
    · simpa [Content.bytes] using h
    · have hnext : (copied ++ takePiece (some budget) copied read).length ≤ budget := by
        rw [List.length_append]
        omega
      have hrest := ih hnext
      simp only [Content.bytes, List.flatten_cons, List.length_append] at hrest ⊢
      omega

/-- What an accepted entry delivers is as long as its record says. -/
theorem copyReads_length {remaining maxBytes : Option Nat} {copied : Bytes} {reads : List Bytes}
    (h : (copyReads env entry remaining maxBytes copied reads).outcome = .ok ()) :
    copied.length + (copyReads env entry remaining maxBytes copied reads).bytes.length =
      entry.declaredSize := by
  have hclaim : ∀ bytes : Bytes, verifyClaim env entry bytes = .ok () →
      bytes.length = entry.declaredSize := by
    intro bytes hok
    rw [verifyClaim] at hok
    split_ifs at hok with hclaim
    exact hclaim.2
  induction reads generalizing copied with
  | nil =>
    rw [copyReads] at h ⊢
    simp only at h
    split_ifs at h
    simpa [Content.bytes] using hclaim copied h
  | cons read reads ih =>
    simp only [copyReads] at h ⊢
    split_ifs at h ⊢ with hend hover
    · simpa [Content.bytes] using hclaim copied h
    · have hrest := ih h
      simp only [Content.bytes, List.flatten_cons, List.length_append] at hrest ⊢
      omega

/-- What has been written so far is covered by the declared sizes, and these by the limit. -/
structure Budgeted (limits : PackageLimits) (start : Nat) (s : Unpacked) (disk : Disk) : Prop where
  declared : written disk.log ≤ start + s.unpackedBytes
  limit : ∀ limit, limits.maxBytes = some limit → s.unpackedBytes ≤ limit

def WithinLimit (limits : PackageLimits) (start : Nat) (disk : Disk) : Prop :=
  ∀ limit, limits.maxBytes = some limit → written disk.log ≤ start + limit

variable {disk : Disk} {s : Unpacked} {start : Nat}

theorem Budgeted.within
    (h : Budgeted limits start s disk) : WithinLimit limits start disk := fun limit hlimit =>
  h.declared.trans (Nat.add_le_add_left (h.limit limit hlimit) start)

theorem spec_liftExcept {x : Except String α} {Q : α → Disk → Prop} {E : String → Disk → Prop} :
    Spec (liftExcept x) disk Q E ↔
      (∀ a, x = .ok a → Q a disk) ∧ ∀ error, x = .error error → E error disk := by
  cases x with
  | ok a =>
    rw [liftExcept, spec_pure]
    simp
  | error error =>
    rw [liftExcept, spec_throw]
    simp

theorem checkEntry_eq_ok {unpackedBytes : Nat} {rel : String}
    (h : checkEntry limits unpackedBytes rel entry = .ok ()) :
    ∀ limit, limits.maxBytes = some limit → unpackedBytes + entry.declaredSize ≤ limit := by
  intro limit hlimit
  rw [checkEntry] at h
  split_ifs at h with _ _ _ _ hbytes
  rw [hlimit, Option.any_some, decide_eq_true_eq, Nat.not_lt] at hbytes
  exact hbytes

theorem budgeted_unpackEntry (h : Budgeted limits start s disk) :
    Spec (unpackEntry env limits target s entry) disk
      (fun s' disk' => Budgeted limits start s' disk')
      fun _ disk' => WithinLimit limits start disk' := by
  rw [unpackEntry, spec_bind, spec_liftExcept]
  refine ⟨fun rel _ => ?_, fun _ _ => h.within⟩
  refine spec_ite.mpr ⟨fun _ => spec_pure.mpr h, fun _ => ?_⟩
  rw [spec_bind, spec_liftExcept]
  refine ⟨fun _ hcheck => ?_, fun _ _ => h.within⟩
  have hlimit := checkEntry_eq_ok hcheck
  refine spec_ite.mpr ⟨fun _ => ?_, fun _ => ?_⟩
  · rw [spec_bind, spec_liftExcept]
    refine ⟨fun _ _ => ?_, fun _ _ => h.within⟩
    rw [spec_bind]
    refine (tracks_placeDirectory (directs_silent target) env.host rel disk).mono
      (fun _ disk' hsilent => spec_pure.mpr ⟨?_, hlimit⟩) fun _ disk' hsilent => ?_
    · rw [hsilent]
      exact h.declared.trans (Nat.add_le_add_left (Nat.le_add_right _ _) _)
    · intro limit hmax
      rw [hsilent]
      exact h.within limit hmax
  · rw [spec_bind]
    refine (written_placeFile env.host target rel _ _ disk).mono
      (fun _ disk' hwritten => spec_pure.mpr ⟨?_, hlimit⟩) fun _ disk' hwritten => ?_
    · -- A published file has the size that its record declares.
      have hlength := copyReads_length hwritten.1
      rw [List.length_nil, Nat.zero_add] at hlength
      have hdeclared := h.declared
      rw [hwritten.2, copyPackageEntry, hlength]
      show _ ≤ start + (s.unpackedBytes + entry.declaredSize)
      omega
    · intro limit hmax
      have hprior := h.limit limit hmax
      have hcopied := @copyReads_le env entry (limit - s.unpackedBytes) limits.maxBytes []
        entry.reads (Nat.zero_le _)
      have hdeclared := h.declared
      rw [hmax, copyPackageEntry] at hwritten
      rw [hmax, List.length_nil, Nat.zero_add] at hcopied
      simp only [Option.map_some] at hwritten
      omega

theorem budgeted_entries {entries : List ZipEntry} (h : Budgeted limits start s disk) :
    Spec (entries.foldlM (unpackEntry env limits target) s) disk
      (fun s' disk' => Budgeted limits start s' disk')
      fun _ disk' => WithinLimit limits start disk' := by
  induction entries generalizing s disk with
  | nil => exact spec_pure.mpr h
  | cons entry entries ih =>
    rw [List.foldlM_cons, spec_bind]
    exact (budgeted_unpackEntry h).mono (fun _ _ h => ih h) fun _ _ h => h

/-- At no moment more bytes are written than the limit allows. -/
theorem within_unpackPackage (disk : Disk) :
    Spec (unpackPackage env limits listing archive target) disk
      (fun _ disk' => WithinLimit limits (written disk.log) disk')
      fun _ disk' => WithinLimit limits (written disk.log) disk' := by
  have hsilent : ∀ opened : Disk, Silent disk opened →
      WithinLimit limits (written disk.log) opened := by
    intro opened h limit _
    rw [h]
    exact Nat.le_add_right _ _
  rw [unpackPackage, spec_bind]
  refine (tracks_liftExcept _ disk).mono (fun _ checked hchecked => ?_) fun _ _ h => hsilent _ h
  have hopen : (openPinnedDir env.host target).Tracks Silent := tracks_openPinnedDir _
  rw [spec_bind]
  refine (hopen checked).mono (fun _ opened hopened => ?_)
    fun _ _ h => hsilent _ (h.trans hchecked)
  have hbudget : Budgeted limits (written disk.log) {} opened :=
    ⟨(hopened.trans hchecked).le, fun _ _ => Nat.zero_le _⟩
  rw [spec_bind]
  refine (budgeted_entries hbudget).mono (fun s unpacked hunpacked => ?_) fun _ _ h => h
  -- The rest of the procedure only reads and changes modes.
  refine spec_ite.mpr ⟨fun _ => spec_throw.mpr hunpacked.within, fun _ => ?_⟩
  rw [spec_bind]
  apply EStateM.spec_get.mpr
  rw [spec_bind, spec_liftExcept]
  refine ⟨fun _ _ => ?_, fun _ _ => hunpacked.within⟩
  have hrest : ∀ restored : Disk, Silent unpacked restored →
      WithinLimit limits (written disk.log) restored := by
    intro restored h limit hlimit
    rw [h]
    exact hunpacked.within limit hlimit
  exact (tracks_restoreDirectoryModes (directs_silent target) env.host s.directories unpacked).mono
    (fun _ _ h => hrest _ h) fun _ _ h => hrest _ h

end Budget

end Package

end Qcg
