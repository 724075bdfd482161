import Qcg.Library.Procedure
import Qcg.Journal.Read
import Qcg.Policy.PathSet
import Mathlib.Data.List.AList

/-!
# Package directories on disk

The operations by which a package is unpacked or copied, relative to a pinned target
directory: missing parents are made owner-only, a directory is made or adopted with a
sanitized mode, a file is written beside its place and renamed into it. Each operation
keeps what it has done when it fails, and writes a log of its effects.
-/

namespace Qcg

namespace Package

open List
open EStateM (spec_bind spec_modify spec_throw tracks_forM tracks_get tracks_modify tracks_throw
  yields_pure yields_throw)

abbrev Mode := BitVec 32

/-- Keeps the permission bits without other-write. -/
def sanitizeModeBits (mode : Mode) : Mode :=
  (mode &&& 0o777) &&& ~~~0o002

def packageBuildDirMode : Mode := 0o700

def stagingMode : Mode := 0o600

/-- Neither setuid, setgid, sticky nor other-write, and nothing above. -/
def Mode.Clean (mode : Mode) : Prop :=
  mode &&& ~~~0o775 = 0

instance (mode : Mode) : Decidable (Mode.Clean mode) :=
  inferInstanceAs (Decidable (mode &&& ~~~0o775 = 0))

theorem clean_sanitizeModeBits (mode : Mode) : Mode.Clean (sanitizeModeBits mode) := by
  have hmask : (0o777 : Mode) &&& (~~~0o002 &&& ~~~0o775) = 0 := by decide
  rw [Mode.Clean, sanitizeModeBits, BitVec.and_assoc, BitVec.and_assoc, hmask]
  exact BitVec.and_zero

theorem sanitizeModeBits_eq_and (mode : Mode) : sanitizeModeBits mode = mode &&& 0o775 := by
  rw [sanitizeModeBits, BitVec.and_assoc]
  rfl

theorem sanitizeModeBits_idem (mode : Mode) :
    sanitizeModeBits (sanitizeModeBits mode) = sanitizeModeBits mode := by
  rw [sanitizeModeBits_eq_and, sanitizeModeBits_eq_and, BitVec.and_assoc]
  rfl

theorem sanitizeModeBits_build : sanitizeModeBits packageBuildDirMode = packageBuildDirMode := by
  decide

/-- The names from the root of the file system to an entry. -/
abbrev Location := List String

inductive Node where
  | file (bytes : Bytes) (mode : Mode)
  | directory (mode : Mode)
  | symlink
deriving DecidableEq

abbrev Files := AList fun _ : Location => Node

inductive Effect where
  | created (location : Location)
  | wrote (location : Location) (count : Nat)
  | changedMode (location : Location)
  | renamed (source target : Location)
  | removed (location : Location)
deriving DecidableEq

structure Disk where
  files : Files
  log : List Effect := []

abbrev Action := EStateM String Disk

/-- The process and its system: which of its own files it reads and which of its directories
it opens, and the suffix of a staging name that meets no existing entry. -/
structure Host where
  reads : Mode → Bool
  enters : Mode → Bool
  suffix : Files → Location → String → String
  reads_owner : ∀ mode, mode &&& 0o400 = 0o400 → reads mode = true
  enters_owner : ∀ mode, mode &&& 0o700 = 0o700 → enters mode = true
  suffix_fresh : ∀ (files : Files) (dir : Location) (name : String),
    files.lookup (dir ++ ["." ++ name ++ ".part-" ++ suffix files dir name]) = none

def nameLength (files : Files) : Nat :=
  ((files.keys.map fun location => (location.map String.length).sum)).sum

variable {name : String}

theorem length_le_nameLength {files : Files} {dir : Location}
    (h : dir ++ [name] ∈ files) : name.length ≤ nameLength files := by
  have hlocation : name.length ≤ ((dir ++ [name]).map String.length).sum := by simp
  have hmem : ((dir ++ [name]).map String.length).sum ∈
      files.keys.map fun location => (location.map String.length).sum :=
    mem_map.mpr ⟨_, AList.mem_keys.mp h, rfl⟩
  obtain ⟨front, back, hsplit⟩ := append_of_mem hmem
  rw [nameLength, hsplit, sum_append, sum_cons]
  omega

/-- A process that the owner bits decide about, with suffixes longer than every name. -/
def ownerHost : Host where
  reads mode := mode &&& 0o400 = 0o400
  enters mode := mode &&& 0o700 = 0o700
  suffix files _ _ := String.ofList (List.replicate (nameLength files) '0')
  reads_owner mode h := decide_eq_true h
  enters_owner mode h := decide_eq_true h
  suffix_fresh files dir name := by
    rw [AList.lookup_eq_none]
    intro h
    have hlength := length_le_nameLength h
    simp only [String.length_append, String.length_ofList, length_replicate] at hlength
    have hpart : ".part-".length = 6 := rfl
    omega

/-- The entry that a name leads to from a directory. -/
def child (dir : Location) (name : String) : Location :=
  if name = ".." then dir.dropLast else if name = "." then dir else dir ++ [name]

def Disk.at (disk : Disk) (location : Location) : Option Node :=
  disk.files.lookup location

def Disk.put (disk : Disk) (location : Location) (node : Node) (effect : Effect) : Disk :=
  { files := disk.files.insert location node, log := disk.log ++ [effect] }

def makeDirectory (location : Location) (mode : Mode) : Action Unit :=
  modify fun disk => disk.put location (.directory mode) (.created location)

def changeMode (location : Location) (mode : Mode) : Action Unit :=
  modify fun disk => disk.put location (.directory mode) (.changedMode location)

/-- Opens one child directory, creating it owner-only when it is missing. -/
def pinnedSubdir (host : Host) (parent : Location) (name : String) : Action Location := do
  let location := child parent name
  match (← get).at location with
  | some .symlink => throw ("unpack path traverses a symbolic link at `" ++ name ++ "`")
  | some (.file _ _) => throw ("unpack path `" ++ name ++ "` collides with an existing file")
  | some (.directory mode) =>
    if host.enters mode then pure location else throw "Permission denied (os error 13)"
  | none =>
    makeDirectory location packageBuildDirMode
    pure location

inductive Component where
  | rootDir
  | curDir
  | parentDir
  | normal (name : String)
deriving DecidableEq

def componentOf (part : String) : Option Component :=
  if part = "" ∨ part = "." then none
  else if part = ".." then some .parentDir
  else some (.normal part)

/-- `Utf8Path::components`: a leading slash or dot is kept, other empty and dot parts are not. -/
def components (path : String) : List Component :=
  let front := match Policy.parts path with
    | "" :: _ :: _ => [Component.rootDir]
    | "." :: _ => [Component.curDir]
    | _ => []
  front ++ (Policy.parts path).filterMap componentOf

def Component.name? : Component → Option String
  | .normal name => some name
  | _ => none

/-- Runs an operation in the parent directory of a relative path, making the directories on
the way. -/
def withParent {α : Type} (host : Host) (root : Location) (relative : String)
    (op : Location → String → Action α) : Action α :=
  match (components relative).mapM Component.name? with
  | none => throw ("unpack path `" ++ relative ++ "` escapes the target directory")
  | some names =>
    match names.getLast? with
    | none => throw ("unpack path `" ++ relative ++ "` is empty")
    | some leaf => do
      let parent ← names.dropLast.foldlM (pinnedSubdir host) root
      op parent leaf

def createDirLeaf (host : Host) (mode : Mode) (parent : Location) (name : String) :
    Action Unit := do
  let location := child parent name
  match (← get).at location with
  | some .symlink =>
    throw ("package directory `" ++ name ++ "` collides with an existing symbolic link")
  | some (.file _ _) =>
    throw ("package directory `" ++ name ++ "` collides with an existing file")
  | some (.directory current) =>
    if host.enters current then changeMode location (sanitizeModeBits mode)
    else throw "Permission denied (os error 13)"
  | none =>
    makeDirectory location packageBuildDirMode
    changeMode location (sanitizeModeBits mode)

/-- What the writer of a staged file does: the pieces that it writes, and how it ends. -/
structure Content where
  pieces : List Bytes
  outcome : Except String Unit

def Content.bytes (content : Content) : Bytes :=
  content.pieces.flatten

def writePiece (location : Location) (piece : Bytes) : Action Unit :=
  modify fun disk =>
    let written := match disk.at location with
      | some (.file bytes _) => bytes
      | _ => []
    disk.put location (.file (written ++ piece) stagingMode) (.wrote location piece.length)

def removeFile (location : Location) : Action Unit :=
  modify fun disk =>
    { files := disk.files.erase location, log := disk.log ++ [.removed location] }

/-- The staged file takes its final mode and then its final name. -/
def publishFile (staging location : Location) (mode : Mode) : Action Unit :=
  modify fun disk =>
    let bytes := match disk.at staging with
      | some (.file bytes _) => bytes
      | _ => []
    { files := (disk.files.erase staging).insert location (.file bytes mode)
      log := disk.log ++ [.changedMode staging, .renamed staging location] }

def createStaging (host : Host) (parent : Location) (name : String) : Action Location :=
  modifyGet fun disk =>
    let staging := child parent ("." ++ name ++ ".part-" ++ host.suffix disk.files parent name)
    (staging, disk.put staging (.file [] stagingMode) (.created staging))

/-- Writes a file beside its place and renames it into place; a failed write, a symbolic link
or a directory at the place removes the staged file again. -/
def stageFile (host : Host) (mode : Mode) (content : Content) (parent : Location)
    (name : String) : Action Unit := do
  let staging ← createStaging host parent name
  content.pieces.forM (writePiece staging)
  match content.outcome with
  | .error error =>
    removeFile staging
    throw error
  | .ok () =>
    match (← get).at (child parent name) with
    | some .symlink =>
      removeFile staging
      throw ("refusing to replace symbolic link `" ++ name ++ "`")
    | some (.directory _) =>
      removeFile staging
      throw "Is a directory (os error 21)"
    | _ => publishFile staging (child parent name) (sanitizeModeBits mode)

def openPinnedDir (host : Host) (target : Location) : Action Unit := do
  match (← get).at target with
  | none => throw "No such file or directory (os error 2)"
  | some .symlink => throw "package target is a symbolic link; refusing to pin"
  | some (.file _ _) => throw "Not a directory (os error 20)"
  | some (.directory mode) =>
    if host.enters mode then pure () else throw "Permission denied (os error 13)"

/-- Makes a directory that stays writable while its entries are created. -/
def placeDirectory (host : Host) (root : Location) (relative : String) : Action Unit :=
  withParent host root relative (createDirLeaf host packageBuildDirMode)

def placeFile (host : Host) (root : Location) (relative : String) (mode : Mode)
    (content : Content) : Action Unit :=
  withParent host root relative (stageFile host mode content)

/-- Gives the directories their final modes, deepest first. -/
def restoreDirectoryModes (host : Host) (root : Location) (directories : List (String × Mode)) :
    Action Unit :=
  (directories.insertionSort fun l r =>
      (components r.1).length ≤ (components l.1).length).forM fun directory =>
    withParent host root directory.1 (createDirLeaf host directory.2)

def Beneath (root location : Location) : Prop :=
  ∃ rest, rest ≠ [] ∧ location = root ++ rest

def Within (root location : Location) : Prop :=
  ∃ rest, location = root ++ rest

def Effect.locations : Effect → List Location
  | created location => [location]
  | wrote location _ => [location]
  | changedMode location => [location]
  | renamed source target => [source, target]
  | removed location => [location]

/-- Nothing outside the root has changed, and every effect lies beneath it. -/
structure Contained (root : Location) (before after : Disk) : Prop where
  outside : ∀ location, ¬Beneath root location → after.at location = before.at location
  effects : ∃ effects, after.log = before.log ++ effects ∧
    ∀ effect ∈ effects, ∀ location ∈ effect.locations, Beneath root location

instance (root : Location) : IsPreorder Disk (Contained root) where
  refl disk := ⟨fun _ _ => rfl, [], by simp, by simp⟩
  trans a b c hab hbc := by
    obtain ⟨houtside, effects, hlog, heffects⟩ := hab
    obtain ⟨houtside', effects', hlog', heffects'⟩ := hbc
    constructor
    · intro location h
      rw [houtside' location h, houtside location h]
    · refine ⟨effects ++ effects', by rw [hlog', hlog, append_assoc], ?_⟩
      intro effect he
      rcases mem_append.mp he with he | he
      · exact heffects effect he
      · exact heffects' effect he

/-- A name that leads neither up nor nowhere. -/
def Ordinary (name : String) : Prop :=
  name ≠ ".." ∧ name ≠ "."

theorem child_of_ordinary (h : Ordinary name) (dir : Location) :
    child dir name = dir ++ [name] := by
  rw [child, if_neg h.1, if_neg h.2]

theorem ordinary_staging (name suffix : String) : Ordinary ("." ++ name ++ ".part-" ++ suffix) := by
  have hlength : 7 ≤ ("." ++ name ++ ".part-" ++ suffix).length := by
    simp only [String.length_append]
    have hdot : ".".length = 1 := rfl
    have hpart : ".part-".length = 6 := rfl
    omega
  constructor
  · intro h
    rw [h] at hlength
    exact absurd hlength (by decide)
  · intro h
    rw [h] at hlength
    exact absurd hlength (by decide)

theorem beneath_child {root parent : Location} (h : Within root parent)
    (hname : Ordinary name) : Beneath root (child parent name) := by
  obtain ⟨rest, rfl⟩ := h
  exact ⟨rest ++ [name], by simp, by rw [child_of_ordinary hname, append_assoc]⟩

theorem Beneath.within {root location : Location} (h : Beneath root location) :
    Within root location := by
  obtain ⟨rest, _, rfl⟩ := h
  exact ⟨rest, rfl⟩

variable {names : List String}

theorem normal_of_mapM {cs : List Component}
    (h : cs.mapM Component.name? = some names) : cs = names.map .normal := by
  induction cs generalizing names with
  | nil =>
    rw [mapM_nil] at h
    cases h
    rfl
  | cons c cs ih =>
    rw [mapM_cons] at h
    obtain ⟨name, hname, h⟩ := Option.bind_eq_some_iff.mp h
    obtain ⟨rest, hrest, h⟩ := Option.bind_eq_some_iff.mp h
    cases h
    cases c with
    | normal part =>
      cases hname
      rw [ih hrest, map_cons]
    | rootDir => cases hname
    | curDir => cases hname
    | parentDir => cases hname

theorem ordinary_of_normal {relative : String} (h : .normal name ∈ components relative) :
    Ordinary name := by
  rw [components, mem_append] at h
  rcases h with h | h
  · split at h <;> simp at h
  · obtain ⟨part, _, hpart⟩ := mem_filterMap.mp h
    rw [componentOf] at hpart
    split_ifs at hpart with hempty hparent
    · cases hpart
    · obtain rfl : part = name := by simpa using hpart
      exact ⟨hparent, fun hdot => hempty (.inr hdot)⟩

theorem ordinary_of_components {relative : String}
    (h : (components relative).mapM Component.name? = some names) :
    ∀ name ∈ names, Ordinary name := by
  intro name hname
  apply ordinary_of_normal
  rw [normal_of_mapM h]
  exact mem_map_of_mem hname

structure Directs (root : Location) (R : Disk → Disk → Prop) : Prop where
  made : ∀ disk location mode, Beneath root location →
    R disk (disk.put location (.directory mode) (.created location))
  changed : ∀ disk location mode, Beneath root location →
    R disk (disk.put location (.directory mode) (.changedMode location))

variable {location : Location}

section Tracks

variable {root : Location} {R : Disk → Disk → Prop}

theorem tracks_makeDirectory (hR : Directs root R)
    (h : Beneath root location) (mode : Mode) : (makeDirectory location mode).Tracks R :=
  tracks_modify fun disk => hR.made disk location mode h

theorem tracks_changeMode (hR : Directs root R)
    (h : Beneath root location) (mode : Mode) : (changeMode location mode).Tracks R :=
  tracks_modify fun disk => hR.changed disk location mode h

variable [IsPreorder Disk R] (hR : Directs root R)
include hR

section

variable (host : Host)

include host

theorem yields_pinnedSubdir {parent : Location} (h : Within root parent) (hname : Ordinary name) :
    (pinnedSubdir host parent name).Yields R (Within root) := by
  have hchild := beneath_child h hname
  refine tracks_get.yields_bind fun disk => ?_
  split
  · exact yields_throw _
  · exact yields_throw _
  · split_ifs
    · exact yields_pure hchild.within
    · exact yields_throw _
  · exact (tracks_makeDirectory hR hchild _).yields_bind fun _ => yields_pure hchild.within

theorem yields_parents (hnames : ∀ name ∈ names, Ordinary name) :
    (names.foldlM (pinnedSubdir host) root).Yields R (Within root) :=
  EStateM.yields_foldlM (fun _ hdir name hname =>
    yields_pinnedSubdir hR host hdir (hnames name hname))
    ⟨[], by simp⟩

theorem tracks_withParent {α : Type} (relative : String)
    {op : Location → String → Action α}
    (hop : ∀ parent name, Within root parent → Ordinary name → (op parent name).Tracks R) :
    (withParent host root relative op).Tracks R := by
  unfold withParent
  split
  · exact tracks_throw _
  · next names hnames =>
    have hordinary := ordinary_of_components hnames
    split
    · exact tracks_throw _
    · next leaf hleaf =>
      have hparents := yields_parents hR host fun name hname =>
        hordinary name (mem_of_mem_dropLast hname)
      exact hparents.tracks_bind fun parent hparent =>
        hop parent leaf hparent (hordinary leaf (List.mem_of_getLast? hleaf))

theorem tracks_createDirLeaf (mode : Mode) (parent : Location) (name : String)
    (h : Within root parent) (hname : Ordinary name) :
    (createDirLeaf host mode parent name).Tracks R := by
  have hchild := beneath_child h hname
  refine tracks_get.bind fun disk => ?_
  split
  · exact tracks_throw _
  · exact tracks_throw _
  · exact (tracks_changeMode hR hchild _).ite (tracks_throw _)
  · exact (tracks_makeDirectory hR hchild _).bind fun _ => tracks_changeMode hR hchild _

theorem tracks_placeDirectory (relative : String) :
    (placeDirectory host root relative).Tracks R :=
  tracks_withParent hR host relative (tracks_createDirLeaf hR host _)

theorem tracks_restoreDirectoryModes (directories : List (String × Mode)) :
    (restoreDirectoryModes host root directories).Tracks R :=
  tracks_forM fun directory _ =>
    tracks_withParent hR host directory.1 (tracks_createDirLeaf hR host directory.2)

end

end Tracks

variable {disk : Disk}

section Contained

variable {root : Location}

theorem contained_put (node : Node) {effect : Effect} (hlocation : Beneath root location)
    (heffect : ∀ location ∈ effect.locations, Beneath root location) :
    Contained root disk (disk.put location node effect) where
  outside other hother := by
    have hne : other ≠ location := fun h => hother (h ▸ hlocation)
    exact AList.lookup_insert_ne hne
  effects := ⟨[effect], rfl, by simpa using heffect⟩

theorem directs_contained : Directs root (Contained root) where
  made _ _ _ h := contained_put _ h (by simpa [Effect.locations] using h)
  changed _ _ _ h := contained_put _ h (by simpa [Effect.locations] using h)

theorem tracks_writePiece (h : Beneath root location) (piece : Bytes) :
    (writePiece location piece).Tracks (Contained root) :=
  tracks_modify fun _ => contained_put _ h (by simpa [Effect.locations] using h)

theorem tracks_removeFile (h : Beneath root location) :
    (removeFile location).Tracks (Contained root) := by
  apply tracks_modify
  intro disk
  constructor
  · intro other hother
    exact AList.lookup_erase_ne fun heq => hother (heq ▸ h)
  · exact ⟨_, rfl, by simpa [Effect.locations] using h⟩

theorem tracks_publishFile {staging : Location} (hstaging : Beneath root staging)
    (h : Beneath root location) (mode : Mode) :
    (publishFile staging location mode).Tracks (Contained root) := by
  apply tracks_modify
  intro disk
  constructor
  · intro other hother
    have hlocation : other ≠ location := fun heq => hother (heq ▸ h)
    have hother' : other ≠ staging := fun heq => hother (heq ▸ hstaging)
    exact (AList.lookup_insert_ne hlocation).trans (AList.lookup_erase_ne hother')
  · exact ⟨_, rfl, by simp [Effect.locations, h, hstaging]⟩

theorem yields_createStaging (host : Host) {parent : Location} (name : String)
    (h : Within root parent) :
    (createStaging host parent name).Yields (Contained root) (Beneath root) := by
  apply EStateM.yields_modifyGet
  intro disk
  have hstaging := beneath_child h (ordinary_staging name (host.suffix disk.files parent name))
  exact ⟨contained_put _ hstaging (by simpa [Effect.locations] using hstaging), hstaging⟩

theorem tracks_stageFile (host : Host) (mode : Mode) (content : Content) (parent : Location)
    (name : String) (h : Within root parent) (hname : Ordinary name) :
    (stageFile host mode content parent name).Tracks (Contained root) := by
  have hchild := beneath_child h hname
  refine (yields_createStaging host name h).tracks_bind fun staging hstaging => ?_
  refine (tracks_forM fun piece _ => tracks_writePiece hstaging piece).bind fun _ => ?_
  split
  · exact (tracks_removeFile hstaging).bind fun _ => tracks_throw _
  · refine tracks_get.bind fun disk => ?_
    split
    · exact (tracks_removeFile hstaging).bind fun _ => tracks_throw _
    · exact (tracks_removeFile hstaging).bind fun _ => tracks_throw _
    · exact tracks_publishFile hstaging hchild _

theorem tracks_placeFile (host : Host) (relative : String) (mode : Mode) (content : Content) :
    (placeFile host root relative mode content).Tracks (Contained root) :=
  tracks_withParent directs_contained host relative (tracks_stageFile host mode content)

end Contained

def Effect.written : Effect → Nat
  | wrote _ count => count
  | _ => 0

def written (log : List Effect) : Nat :=
  (log.map Effect.written).sum

@[simp] theorem written_append (log log' : List Effect) :
    written (log ++ log') = written log + written log' := by
  simp [written]

/-- Nothing has been written. -/
def Silent (before after : Disk) : Prop :=
  written after.log = written before.log

instance : IsPreorder Disk Silent where
  refl _ := rfl
  trans _ _ _ hab hbc := hbc.trans hab

theorem directs_silent (root : Location) : Directs root Silent where
  made _ _ _ _ := by simp [Silent, Disk.put, written, Effect.written]
  changed _ _ _ _ := by simp [Silent, Disk.put, written, Effect.written]

theorem written_writePieces (location : Location) (pieces : List Bytes) (disk : Disk) :
    (pieces.forM (writePiece location)).Spec disk
      (fun _ disk' => written disk'.log = written disk.log + pieces.flatten.length)
      fun _ _ => False := by
  induction pieces generalizing disk with
  | nil => exact EStateM.spec_pure.mpr (by simp)
  | cons piece pieces ih =>
    show (writePiece location piece >>= fun _ => pieces.forM (writePiece location)).Spec _ _ _
    rw [spec_bind]
    refine spec_modify.mpr ((ih _).mono (fun _ disk' h => ?_) fun _ _ h => h)
    rw [h]
    simp [Disk.put, written, Effect.written]
    omega

/-- Taking a staged file away after a refusal writes nothing. -/
theorem spec_discard {error : String} {Q : Unit → Disk → Prop} {count : Nat}
    (h : written disk.log = count) :
    (do removeFile location; throw error : Action Unit).Spec disk Q
      fun _ disk' => written disk'.log = count := by
  apply spec_bind.mpr
  apply spec_modify.mpr
  apply spec_throw.mpr
  simpa [written, Effect.written] using h

theorem written_stageFile (host : Host) (mode : Mode) (content : Content) (parent : Location)
    (name : String) (disk : Disk) :
    (stageFile host mode content parent name).Spec disk
      (fun _ disk' => content.outcome = .ok () ∧
        written disk'.log = written disk.log + content.bytes.length)
      fun _ disk' => written disk'.log = written disk.log + content.bytes.length := by
  refine spec_bind.mpr (EStateM.spec_modifyGet.mpr ?_)
  refine spec_bind.mpr ((written_writePieces _ content.pieces _).mono
    (fun _ filled hfilled => ?_) fun _ _ h => h.elim)
  have hwritten : written filled.log = written disk.log + content.bytes.length := by
    rw [hfilled]
    simp [Disk.put, written, Effect.written, Content.bytes]
  -- What is left of the procedure writes nothing.
  split
  · exact spec_discard hwritten
  · next houtcome =>
    refine spec_bind.mpr (EStateM.spec_get.mpr ?_)
    split
    · exact spec_discard hwritten
    · exact spec_discard hwritten
    · refine spec_modify.mpr ⟨houtcome, ?_⟩
      simpa [written, Effect.written] using hwritten

theorem written_placeFile (host : Host) (root : Location) (relative : String) (mode : Mode)
    (content : Content) (disk : Disk) :
    (placeFile host root relative mode content).Spec disk
      (fun _ disk' => content.outcome = .ok () ∧
        written disk'.log = written disk.log + content.bytes.length)
      fun _ disk' => written disk'.log ≤ written disk.log + content.bytes.length := by
  unfold placeFile withParent
  split
  · exact spec_throw.mpr (by simp)
  · next names hnames =>
    split
    · exact spec_throw.mpr (by simp)
    · have hparents := yields_parents (directs_silent root) host fun name hname =>
        ordinary_of_components hnames name (mem_of_mem_dropLast hname)
      refine spec_bind.mpr ((hparents disk).mono (fun parent opened hopened => ?_) ?_)
      · rw [← hopened.1]
        exact (written_stageFile host mode content parent _ opened).mono (fun _ _ h => h)
          fun _ _ h => h.le
      · intro _ _ h
        rw [h]
        exact Nat.le_add_right _ _

end Package

end Qcg
