import Qcg.Service.PackageIdentity
import Qcg.Service.PackageExtract

/-!
# Copying a package directory

The snapshot of a generator package: the source is walked, every directory is made owner-only
and every file staged with its sanitized mode, and the directories get their sanitized modes at
the end. A source that has an identity is copied exactly when the staging names of its files are
not too long. The identity covers the permission bits as they are and the copy clears other-write,
so the copy has the identity of the source exactly when no entry of the source is writable by
others, and the process can open what it has made with the same bits.
-/

namespace Qcg

open List
open Policy (isSafeRelativePath parts)

namespace Package

open EStateM (Spec Tracks spec_bind spec_get spec_ite spec_pure spec_throw tracks_pure
  tracks_throw)

/-- The counters of a copy and the directories whose modes are still to be given. -/
structure Copied where
  entryCount : Nat := 0
  copiedBytes : Nat := 0
  directories : List (String × Mode) := []

/-- Where a copy is written: which of the files and directories that it has made there the
process can open, and how many bytes a name can have. -/
structure Destination where
  host : Host
  nameMax : Nat

/-- The name `.{name}.part-{32 digits}` of the staged file is not too long. -/
def Destination.stages (dest : Destination) (name : String) : Bool :=
  decide (name.utf8ByteSize + 39 ≤ dest.nameMax)

def copyEntry (env : Env) (dest : Destination) (limits : PackageLimits) (target : Location)
    (s : Copied) (entry : WalkEntry) : Action Copied :=
  let relative := entry.relative
  if entry.node = .symlink then throw "package source contains a symbolic link"
  else if relative = "" then
    if entry.node.isDir then pure s else throw "package source is not a directory"
  else do
    liftExcept (checkedU64 (s.entryCount + 1) "package entry count")
    if limits.maxEntries.any (· < s.entryCount + 1) then
      throw ("package source contains too many entries: " ++ toString (s.entryCount + 1) ++ " > " ++
        toString (limits.maxEntries.getD 0))
    else if !isSafeRelativePath relative then
      throw ("package source contains an unsafe path `" ++ relative ++ "`")
    else
      match entry.node with
      | .symlink => throw "package source contains a symbolic link"
      | .directory mode =>
        if !env.host.enters mode then throw ("failed to open package entry `" ++ relative ++ "`")
        else do
          placeDirectory dest.host target relative
          pure { s with entryCount := s.entryCount + 1
                        directories := s.directories ++ [(relative, explicitSourceMode mode)] }
      | .file bytes mode =>
        if !env.host.reads mode then throw ("failed to open package entry `" ++ relative ++ "`")
        else do
          liftExcept (checkedU64 (s.copiedBytes + bytes.length) "package source size")
          if limits.maxBytes.any (· < s.copiedBytes + bytes.length) then
            throw ("package source exceeds " ++ toString (limits.maxBytes.getD 0) ++ " bytes")
          else if !dest.stages ((parts relative).getLastD "") then
            throw "File name too long (os error 36)"
          else do
            placeFile dest.host target relative (explicitSourceMode mode) ⟨[bytes], .ok ()⟩
            pure { s with entryCount := s.entryCount + 1
                          copiedBytes := s.copiedBytes + bytes.length }

def copyDirAll (env : Env) (dest : Destination) (limits : PackageLimits)
    (first second : Listing) (source target : Location) : Action Unit := do
  let disk ← get
  let walk ← liftExcept ((walkDir env.host first (disk.at source) (disk.entries source)).mapError
    fun _ => "failed to walk package source")
  let _ ← liftExcept (collectIdentityEntries env limits walk)
  openPinnedDir dest.host target
  -- Nothing of the source changes while it is copied.
  let walk ← liftExcept ((walkDir env.host second (disk.at source) (disk.entries source)).mapError
    fun _ => "failed to walk package source")
  let s ← walk.foldlM (copyEntry env dest limits target) {}
  restoreDirectoryModes dest.host target s.directories

def IdentityEntry.item (entry : IdentityEntry) : Item :=
  ⟨parts entry.relative,
    if entry.isDir then none else some (entry.bytes, explicitSourceMode entry.mode)⟩

def IdentityEntry.directory? (entry : IdentityEntry) : Option (String × Mode) :=
  if entry.isDir then some (entry.relative, explicitSourceMode entry.mode) else none

/-- The accumulator when the given entries have been copied. -/
def Copied.of (entries : List IdentityEntry) : Copied :=
  ⟨entries.length, totalSize entries, entries.filterMap IdentityEntry.directory?⟩

def WalkEntry.Opens (host : Host) (entry : WalkEntry) : Prop :=
  match entry.node with
  | .directory mode => host.enters mode = true
  | .file _ mode => host.reads mode = true
  | .symlink => False

def WalkEntry.Staged (dest : Destination) (entry : WalkEntry) : Prop :=
  match entry.node with
  | .file _ _ => dest.stages ((parts entry.relative).getLastD "") = true
  | _ => True

variable {env : Env} {dest : Destination} {limits : PackageLimits} {target : Location} {disk : Disk}
  {done : List IdentityEntry} {entry : WalkEntry} {next : IdentityEntry} {E : String → Disk → Prop}
  {α : Type}

theorem spec_liftExcept_of_ok {x : Except String α} {a : α} {Q : α → Disk → Prop} (hx : x = .ok a)
    (h : Q a disk) : Spec (liftExcept x) disk Q E := by
  rw [spec_liftExcept, hx]
  refine ⟨fun a' ha' => ?_, fun _ herror => by cases herror⟩
  cases ha'
  exact h

theorem spec_counted {n : Nat} {relative : String} {action : Action α} {error : String}
    {Q : α → Disk → Prop} (hcount : n < 2 ^ 64) (hmax : limits.maxEntries.all (n ≤ ·) = true)
    (hsafe : isSafeRelativePath relative = true) (h : Spec action disk Q E) :
    Spec (do
      liftExcept (checkedU64 n "package entry count")
      if limits.maxEntries.any (· < n) then throw error
      else if !isSafeRelativePath relative then
        throw ("package source contains an unsafe path `" ++ relative ++ "`")
      else action) disk Q E := by
  rw [spec_bind]
  apply spec_liftExcept_of_ok (checkedU64_eq_ok.mpr hcount)
  rw [any_lt_eq_false.mpr hmax, hsafe]
  exact h

theorem built_copyEntry (hnext : entry.identityEntry? = some next) (hopens : entry.Opens env.host)
    (hstaged : entry.Staged dest) (hfits : Fits limits (done ++ [next]))
    (hsafe : isSafeRelativePath next.relative = true)
    (hclear : ∀ item ∈ done.map IdentityEntry.item, Clear item next.item ∧ Clear next.item item)
    (hbuilt : Built target (done.map IdentityEntry.item) disk) :
    Spec (copyEntry env dest limits target (.of done) entry) disk
      (fun s disk' => s = .of (done ++ [next]) ∧
        Built target ((done ++ [next]).map IdentityEntry.item) disk')
      fun _ _ => False := by
  have hlength : (done ++ [next]).length = done.length + 1 := by simp
  have hcount : (Copied.of done).entryCount + 1 < 2 ^ 64 := hlength ▸ hfits.count
  have hmax : limits.maxEntries.all ((Copied.of done).entryCount + 1 ≤ ·) = true :=
    hlength ▸ hfits.maxEntries
  rw [map_append, map_singleton]
  rw [WalkEntry.identityEntry?] at hnext
  rw [copyEntry]
  cases hnode : entry.node with
  | symlink =>
    rw [WalkEntry.Opens, hnode] at hopens
    exact hopens.elim
  | directory mode =>
    rw [WalkEntry.Opens, hnode] at hopens
    split_ifs at hnext with hroot
    rw [hnode] at hnext
    cases hnext
    simp only [reduceCtorEq, if_false, hroot]
    apply spec_counted hcount hmax hsafe
    simp only [hopens, Bool.not_true, Bool.false_eq_true, if_false]
    rw [spec_bind]
    refine (built_placeDirectory dest.host hbuilt hsafe fun i hi => (hclear i hi).1).mono
      (fun _ disk' hdisk => ?_) fun _ _ hfalse => hfalse.elim
    apply spec_pure.mpr
    refine ⟨?_, hdisk⟩
    simp [Copied.of, totalSize, IdentityEntry.directory?]
  | file bytes mode =>
    rw [WalkEntry.Opens, hnode] at hopens
    rw [WalkEntry.Staged, hnode] at hstaged
    split_ifs at hnext with hroot
    rw [hnode] at hnext
    cases hnext
    simp only [reduceCtorEq, if_false, hroot]
    apply spec_counted hcount hmax hsafe
    simp only [hopens, Bool.not_true, Bool.false_eq_true, if_false]
    obtain ⟨-, htotal, hbytes⟩ := fits_file.mp hfits
    rw [spec_bind]
    apply spec_liftExcept_of_ok (checkedU64_eq_ok.mpr htotal)
    have hwithin : limits.maxBytes.any (· < (Copied.of done).copiedBytes + bytes.length) = false :=
      any_lt_eq_false.mpr hbytes
    rw [hwithin, if_neg (by simp), hstaged, if_neg (by simp), spec_bind]
    have hcontent : (⟨[bytes], .ok ()⟩ : Content).bytes = bytes := by simp [Content.bytes]
    have hplaced := @built_placeFile target (done.map IdentityEntry.item) disk dest.host
      entry.relative (explicitSourceMode mode) ⟨[bytes], .ok ()⟩ rfl hbuilt hsafe
    rw [hcontent] at hplaced
    refine (hplaced hclear).mono (fun _ disk' hdisk => ?_) fun _ _ hfalse => hfalse.elim
    apply spec_pure.mpr
    refine ⟨?_, hdisk⟩
    simp [Copied.of, totalSize, IdentityEntry.directory?]

theorem clear_of_entries {rest : List IdentityEntry}
    (htree : Policy.validatePathTreeSet env.collisionKey.key
      ((done ++ next :: rest).map IdentityEntry.pathEntry) = .ok ()) :
    isSafeRelativePath next.relative = true ∧
      ∀ item ∈ done.map IdentityEntry.item, Clear item next.item ∧ Clear next.item item := by
  rw [← filterMap_eq_map] at htree
  have hclear := clear_of_pathTree (some ∘ IdentityEntry.item) (fun a i hi => ?_) htree
  · rw [← filterMap_eq_map]
    exact ⟨hclear.1 next.pathEntry rfl, hclear.2 next.item rfl⟩
  · cases hi
    refine ⟨a.pathEntry, rfl, rfl, ?_⟩
    rw [IdentityEntry.item]
    cases h : a.isDir <;> simp [IdentityEntry.pathEntry, h]

theorem built_copyEntries {rest : List WalkEntry}
    (hrest : ∀ entry ∈ rest, ∃ next, entry.identityEntry? = some next)
    (hopens : ∀ entry ∈ rest, entry.Opens env.host)
    (hstaged : ∀ entry ∈ rest, entry.Staged dest)
    (hfits : Fits limits (done ++ rest.filterMap WalkEntry.identityEntry?))
    (htree : Policy.validatePathTreeSet env.collisionKey.key
      ((done ++ rest.filterMap WalkEntry.identityEntry?).map IdentityEntry.pathEntry) = .ok ())
    (hbuilt : Built target (done.map IdentityEntry.item) disk) :
    Spec (rest.foldlM (copyEntry env dest limits target) (.of done)) disk
      (fun s disk' => s = .of (done ++ rest.filterMap WalkEntry.identityEntry?) ∧
        Built target ((done ++ rest.filterMap WalkEntry.identityEntry?).map IdentityEntry.item)
          disk')
      fun _ _ => False := by
  induction rest generalizing done disk with
  | nil =>
    apply spec_pure.mpr
    rw [filterMap_nil, append_nil]
    exact ⟨rfl, hbuilt⟩
  | cons entry rest ih =>
    obtain ⟨⟨next, hnext⟩, hrest⟩ := forall_mem_cons.mp hrest
    obtain ⟨hopen, hopens⟩ := forall_mem_cons.mp hopens
    obtain ⟨hstage, hstaged⟩ := forall_mem_cons.mp hstaged
    rw [filterMap_cons_some hnext] at hfits htree ⊢
    obtain ⟨hsafe, hclear⟩ := clear_of_entries htree
    rw [append_cons] at hfits htree ⊢
    rw [foldlM_cons, spec_bind]
    refine (built_copyEntry hnext hopen hstage hfits.left hsafe hclear hbuilt).mono
      (fun s disk' h => ?_) fun _ _ hfalse => hfalse.elim
    obtain ⟨rfl, hdisk⟩ := h
    exact ih hrest hopens hstaged hfits htree hdisk

/-- A file whose staging name is too long is not copied. -/
theorem staged_copyEntry (s : Copied) (entry : WalkEntry) (disk : Disk) :
    Spec (copyEntry env dest limits target s entry) disk
      (fun _ _ => entry.relative ≠ "" → entry.Staged dest) fun _ _ => True := by
  rw [copyEntry, WalkEntry.Staged]
  cases hnode : entry.node with
  | symlink => exact Spec.intro (fun _ _ _ _ => trivial) fun _ _ _ => trivial
  | directory mode => exact Spec.intro (fun _ _ _ _ => trivial) fun _ _ _ => trivial
  | file bytes mode =>
    simp only [reduceCtorEq, if_false]
    refine spec_ite.mpr ⟨fun hroot => ?_, fun _ => ?_⟩
    · exact Spec.intro (fun _ _ _ hne => absurd hroot hne) fun _ _ _ => trivial
    rw [spec_bind, spec_liftExcept]
    refine ⟨fun _ _ => ?_, fun _ _ => trivial⟩
    refine spec_ite.mpr ⟨fun _ => spec_throw.mpr trivial, fun _ => ?_⟩
    refine spec_ite.mpr ⟨fun _ => spec_throw.mpr trivial, fun _ => ?_⟩
    refine spec_ite.mpr ⟨fun _ => spec_throw.mpr trivial, fun _ => ?_⟩
    rw [spec_bind, spec_liftExcept]
    refine ⟨fun _ _ => ?_, fun _ _ => trivial⟩
    refine spec_ite.mpr ⟨fun _ => spec_throw.mpr trivial, fun _ => ?_⟩
    refine spec_ite.mpr ⟨fun _ => spec_throw.mpr trivial, fun hstages => ?_⟩
    exact Spec.intro (fun _ _ _ _ => by simpa using hstages) fun _ _ _ => trivial

theorem staged_copyEntries (rest : List WalkEntry) (s : Copied) (disk : Disk) :
    Spec (rest.foldlM (copyEntry env dest limits target) s) disk
      (fun _ _ => ∀ entry ∈ rest, entry.relative ≠ "" → entry.Staged dest) fun _ _ => True := by
  induction rest generalizing s disk with
  | nil => exact spec_pure.mpr (by simp)
  | cons entry rest ih =>
    rw [foldlM_cons, spec_bind]
    refine (staged_copyEntry s entry disk).mono (fun s' disk' hentry => ?_) fun _ _ _ => trivial
    exact (ih s' disk').mono (fun _ _ hrest => forall_mem_cons.mpr ⟨hentry, hrest⟩)
      fun _ _ _ => trivial

theorem IdentityEntry.directory?_placed {entry : IdentityEntry} {d : String × Mode}
    (h : entry.directory? = some d) :
    some entry.pathEntry = some (d.1, true) ∧ some entry.item = some ⟨parts d.1, none⟩ := by
  rw [IdentityEntry.directory?] at h
  split_ifs at h with hdir
  cases h
  simp [IdentityEntry.pathEntry, IdentityEntry.item, hdir]

theorem tracks_copyEntry (s : Copied) (entry : WalkEntry) :
    (copyEntry env dest limits target s entry).Tracks (Contained target) := by
  apply Tracks.ite (tracks_throw _)
  apply Tracks.ite ((tracks_pure _).ite (tracks_throw _))
  refine (tracks_liftExcept _).bind fun _ => ?_
  apply Tracks.ite (tracks_throw _)
  apply Tracks.ite (tracks_throw _)
  split
  · exact tracks_throw _
  · apply Tracks.ite (tracks_throw _)
    exact (tracks_placeDirectory directs_contained _ _).bind fun _ => tracks_pure _
  · apply Tracks.ite (tracks_throw _)
    refine (tracks_liftExcept _).bind fun _ => ?_
    apply Tracks.ite (tracks_throw _)
    apply Tracks.ite (tracks_throw _)
    exact (tracks_placeFile _ _ _ _).bind fun _ => tracks_pure _

theorem tracks_copyDirAll {first second : Listing} {source : Location} :
    (copyDirAll env dest limits first second source target).Tracks (Contained target) := by
  refine EStateM.tracks_get.bind fun disk => ?_
  refine (tracks_liftExcept _).bind fun _ => ?_
  refine (tracks_liftExcept _).bind fun _ => ?_
  refine (tracks_openPinnedDir _).bind fun _ => ?_
  refine (tracks_liftExcept _).bind fun _ => ?_
  refine (EStateM.tracks_foldlM (fun s entry _ => tracks_copyEntry s entry) _).bind fun s => ?_
  exact tracks_restoreDirectoryModes directs_contained _ _

structure Tree extends Source where
  parents : ∀ path name node, path ≠ [] → disk.at (root ++ (path ++ [name])) = some node →
    ∃ mode, disk.at (root ++ path) = some (.directory mode)

def Node.sanitized : Node → Node
  | .file bytes mode => .file bytes (sanitizeModeBits mode)
  | .directory mode => .directory (sanitizeModeBits mode)
  | .symlink => .symlink

def Node.OtherWritable : Node → Prop
  | .file _ mode | .directory mode => mode &&& 0o002 ≠ 0
  | .symlink => False

instance (node : Node) : Decidable node.OtherWritable :=
  match node with
  | .file _ mode | .directory mode => inferInstanceAs (Decidable (mode &&& 0o002 ≠ 0))
  | .symlink => isFalse id

theorem sanitizeModeBits_explicit (mode : Mode) :
    sanitizeModeBits (explicitSourceMode mode) = sanitizeModeBits mode := by
  rw [sanitizeModeBits_eq_and, sanitizeModeBits_eq_and, explicitSourceMode, BitVec.and_assoc]
  rfl

variable {mode : Mode}

/-- A mode of nine bits is kept when others cannot write. -/
theorem sanitizeModeBits_eq_self (h : explicitSourceMode mode = mode) :
    sanitizeModeBits mode = mode ↔ mode &&& 0o002 = 0 := by
  have hsplit : mode = (mode &&& 0o775) ||| (mode &&& 0o002) := by
    rw [← BitVec.and_or_distrib_left]
    exact h.symm
  rw [sanitizeModeBits_eq_and]
  constructor
  · intro hkept
    rw [← hkept, BitVec.and_assoc]
    exact BitVec.and_zero
  · intro hother
    have hzero : mode &&& 0o002 = 0#32 := hother
    rw [hzero, BitVec.or_zero] at hsplit
    exact hsplit.symm

theorem sanitized_eq_self {node : Node} (h : node.NineBits) :
    node.sanitized = node ↔ ¬node.OtherWritable := by
  cases node with
  | file bytes mode =>
    simpa [Node.sanitized, Node.OtherWritable] using sanitizeModeBits_eq_self h
  | directory mode =>
    simpa [Node.sanitized, Node.OtherWritable] using sanitizeModeBits_eq_self h
  | symlink => simp [Node.sanitized, Node.OtherWritable]

theorem explicit_sanitizeModeBits (mode : Mode) :
    explicitSourceMode (sanitizeModeBits mode) = sanitizeModeBits mode := by
  rw [sanitizeModeBits_eq_and, explicitSourceMode, BitVec.and_assoc]
  rfl

theorem nineBits_sanitized (node : Node) : node.sanitized.NineBits := by
  cases node with
  | file bytes mode => exact explicit_sanitizeModeBits mode
  | directory mode => exact explicit_sanitizeModeBits mode
  | symlink => trivial

def IdentityEntry.node (entry : IdentityEntry) : Node :=
  if entry.isDir then .directory entry.mode else .file entry.bytes entry.mode

theorem node_of_identityEntry? (h : entry.identityEntry? = some next) : next.node = entry.node := by
  rw [WalkEntry.identityEntry?] at h
  split_ifs at h
  split at h
  · cases h
  · next hnode =>
    cases h
    rw [hnode]
    rfl
  · next hnode =>
    cases h
    rw [hnode]
    rfl

/-- The entries are those of a tree, which is given by what lies at each path. -/
structure Layout (entries : List IdentityEntry) (node : List String → Option Node) : Prop where
  entry : ∀ path n, path ≠ [] → node path = some n →
    ∃ entry ∈ entries, parts entry.relative = path ∧ entry.node = n
  above : ∀ entry ∈ entries, ∀ path, path ≠ [] → path <+: parts entry.relative →
    ∃ n, node path = some n

namespace Layout

variable {entries : List IdentityEntry} {node : List String → Option Node} {path : List String}

theorem absent (h : Layout entries node) (hpath : path ≠ []) (hnone : node path = none) :
    ∀ item ∈ entries.map IdentityEntry.item, ¬path <+: item.path := by
  intro item hitem hinit
  obtain ⟨entry, hentry, rfl⟩ := mem_map.mp hitem
  obtain ⟨n, hn⟩ := h.above entry hentry path hpath hinit
  rw [hnone] at hn
  cases hn

/-- When all entries have been placed and have their modes, what lies at each path is what the
tree has there, with a sanitized mode. -/
theorem settled_at (h : Layout entries node)
    (hsettled : Settled target (entries.map IdentityEntry.item)
      (entries.filterMap IdentityEntry.directory?) disk) (hpath : path ≠ []) :
    disk.at (target ++ path) = (node path).map Node.sanitized := by
  cases hnode : node path with
  | none => exact hsettled.absent path hpath (h.absent hpath hnode)
  | some n =>
    obtain ⟨entry, hentry, hparts, rfl⟩ := h.entry path n hpath hnode
    rw [Option.map_some, ← hparts]
    cases hdir : entry.isDir with
    | true =>
      have hd : (entry.relative, explicitSourceMode entry.mode) ∈
          entries.filterMap IdentityEntry.directory? :=
        mem_filterMap.mpr ⟨entry, hentry, by simp [IdentityEntry.directory?, hdir]⟩
      rw [hsettled.restored _ hd, sanitizeModeBits_explicit]
      simp [IdentityEntry.node, hdir, Node.sanitized]
    | false =>
      have hat := hsettled.file entry.item (mem_map_of_mem hentry) entry.bytes
        (explicitSourceMode entry.mode) (by simp [IdentityEntry.item, hdir])
      rw [sanitizeModeBits_explicit] at hat
      rw [IdentityEntry.item] at hat
      rw [hat]
      simp [IdentityEntry.node, hdir, Node.sanitized]

end Layout

namespace Source

variable {source source' : Source} {listing : Listing}

section

variable (h : Identified env limits source)

include h

/-- What the computation of an identity asks depends on the entries, on the root and on what can
be opened. -/
theorem Identified.of_same {host : Host} (hsame : source.Same source')
    (hroot : ∃ mode, source'.node [] = some (.directory mode) ∧ host.enters mode = true)
    (hopens : ∀ entry ∈ source'.entries, entry.Opens host) :
    Identified { env with host } limits source' := by
  have hperm := entries_perm hsame
  have hcollected : source.collected.Perm source'.collected := hperm.filterMap _
  constructor
  · exact hroot
  · intro entry hentry
    have hopen := hopens entry hentry
    rw [WalkEntry.Opens] at hopen
    rw [WalkEntry.closed]
    cases hnode : entry.node <;> simp_all
  · exact fun entry hentry => h.plain entry (hperm.mem_iff.mpr hentry)
  · exact (Fits.perm hcollected).mp h.fits
  · exact (Policy.validatePathTreeSet_perm (hcollected.map _)).symm.trans h.tree
  · intro collected hmem
    have hstreams := h.streams collected (hcollected.mem_iff.mpr hmem)
    obtain ⟨entry, hentry, hidentity⟩ := mem_collected.mp hmem
    refine ⟨hstreams.path, ?_, hstreams.directory⟩
    have hopen := hopens entry hentry
    rw [WalkEntry.Opens, ← node_of_identityEntry? hidentity, IdentityEntry.node] at hopen
    cases hdir : collected.isDir with
    | true => exact .inl rfl
    | false => exact .inr (by simpa [hdir] using hopen)

theorem Identified.opens (hentry : entry ∈ source.entries) :
    entry.Opens env.host := by
  have hopened := h.opened entry hentry
  have hplain := h.plain entry hentry
  rw [WalkEntry.closed] at hopened
  rw [WalkEntry.Opens]
  cases hnode : entry.node with
  | symlink => exact hplain hnode
  | directory mode => simpa [hnode] using hopened
  | file bytes mode =>
    have hcollected : entry.identityEntry? = some ⟨entry.relative, false, mode, bytes⟩ := by
      rw [WalkEntry.identityEntry?, if_neg (relative_ne_empty hentry), hnode]
    have hreads := (h.streams _ (mem_collected.mpr ⟨entry, hentry, hcollected⟩)).reads
    simpa using hreads

theorem settled_copyDirAll
    (hmode : source.disk.at target = some (.directory mode))
    (henters : dest.host.enters mode = true)
    (hempty : ∀ location, Beneath target location → source.disk.at location = none)
    (hstaged : ∀ entry ∈ source.entries, entry.Staged dest) (first second : Listing) :
    Spec (copyDirAll env dest limits first second source.root target) source.disk
      (fun _ disk' => ∃ entries : List IdentityEntry, entries.Perm source.collected ∧
        Settled target (entries.map IdentityEntry.item)
          (entries.filterMap IdentityEntry.directory?) disk')
      fun _ _ => False := by
  obtain ⟨rootMode, hroot, hrootEnters⟩ := h.root
  have hat : source.disk.at source.root = some (.directory rootMode) := by
    rw [← append_nil source.root]
    exact hroot
  have hwalk : ∀ listing : Listing, (walkDir env.host listing (source.disk.at source.root)
      (source.disk.entries source.root)).mapError (fun _ => "failed to walk package source") =
        .ok (⟨[], .directory rootMode⟩ :: listing.order source.entries) := by
    intro listing
    rw [Except.mapError_eq_ok, hat]
    exact walkDir_eq_ok.mpr ⟨hrootEnters, h.opened, rfl⟩
  have hcollect := (@collectIdentityEntries_eq_ok source env limits first rootMode _).mpr
    ⟨h.plain, h.fits, h.tree, rfl⟩
  have hperm : (second.order source.entries).Perm source.entries := second.perm _
  have hcollected : ((second.order source.entries).filterMap WalkEntry.identityEntry?).Perm
      source.collected := hperm.filterMap _
  have htree := (Policy.validatePathTreeSet_perm
    (hcollected.map IdentityEntry.pathEntry)).trans h.tree
  rw [copyDirAll, spec_bind]
  apply spec_get.mpr
  rw [spec_bind]
  apply spec_liftExcept_of_ok (hwalk first)
  rw [spec_bind]
  apply spec_liftExcept_of_ok hcollect
  rw [spec_bind, openPinnedDir, spec_bind]
  apply spec_get.mpr
  simp only [hmode, henters, if_true]
  apply spec_pure.mpr
  rw [spec_bind]
  apply spec_liftExcept_of_ok (hwalk second)
  -- The root itself is skipped.
  have hskip : copyEntry env dest limits target {} ⟨[], .directory rootMode⟩ = pure {} := rfl
  rw [foldlM_cons, hskip, pure_bind, spec_bind]
  refine (@built_copyEntries env dest limits target source.disk [] (second.order source.entries)
    ?_ ?_ ?_ ?_ ?_ (built_nil hempty)).mono (fun s disk' hs => ?_) fun _ _ hfalse => hfalse.elim
  · exact fun entry hentry => exists_collected (hperm.mem_iff.mp hentry)
      (h.plain entry (hperm.mem_iff.mp hentry))
  · exact fun entry hentry => h.opens (hperm.mem_iff.mp hentry)
  · exact fun entry hentry => hstaged entry (hperm.mem_iff.mp hentry)
  · exact (Fits.perm hcollected).mpr h.fits
  · exact htree
  · obtain ⟨rfl, hbuilt⟩ := hs
    rw [← filterMap_eq_map] at htree
    obtain ⟨hsafe, hitems, hnew⟩ := directories_of_pathTree (some ∘ IdentityEntry.item)
      (fun _ _ => IdentityEntry.directory?_placed) htree
    rw [filterMap_eq_map] at hitems
    refine (settled_restoreDirectoryModes dest.host hbuilt hsafe hitems hnew).mono
      (fun _ disk'' hsettled => ?_) fun _ _ hfalse => hfalse.elim
    exact ⟨_, hcollected, hsettled⟩

end

theorem staged_copyDirAll (hroot : source.node [] = some (.directory mode))
    (first second : Listing) :
    Spec (copyDirAll env dest limits first second source.root target) source.disk
      (fun _ _ => ∀ entry ∈ source.entries, entry.Staged dest) fun _ _ => True := by
  rw [copyDirAll, spec_bind]
  apply spec_get.mpr
  rw [spec_bind, spec_liftExcept]
  refine ⟨fun _ _ => ?_, fun _ _ => trivial⟩
  rw [spec_bind, spec_liftExcept]
  refine ⟨fun _ _ => ?_, fun _ _ => trivial⟩
  rw [spec_bind]
  refine Spec.intro (fun _ disk' _ => ?_) fun _ _ _ => trivial
  rw [spec_bind, spec_liftExcept]
  refine ⟨fun walk hwalk => ?_, fun _ _ => trivial⟩
  rw [spec_bind]
  refine (staged_copyEntries walk {} disk').mono (fun s disk'' hstaged => ?_) fun _ _ _ => trivial
  refine Spec.intro (fun _ _ _ entry hentry => ?_) fun _ _ _ => trivial
  have hmem : entry ∈ walk := by
    rw [Source.node, append_nil] at hroot
    rw [Except.mapError_eq_ok, hroot] at hwalk
    obtain ⟨-, -, rfl⟩ := walkDir_eq_ok.mp hwalk
    exact mem_cons_of_mem _ ((second.perm _).mem_iff.mpr hentry)
  exact hstaged entry hmem (relative_ne_empty hentry)

end Source

namespace Tree

variable {tree : Tree}

theorem above {path rest : List String} {node : Node} (hpath : path ≠ [])
    (h : tree.node (path ++ rest) = some node) : ∃ node', tree.node path = some node' := by
  induction rest using List.reverseRecOn generalizing node with
  | nil =>
    rw [append_nil] at h
    exact ⟨node, h⟩
  | append_singleton rest name ih =>
    rw [← append_assoc] at h
    obtain ⟨mode, hmode⟩ := tree.parents (path ++ rest) name node (by simp [hpath]) h
    exact ih hmode

theorem layout {entries : List IdentityEntry}
    (hplain : ∀ entry ∈ tree.entries, entry.node ≠ .symlink)
    (hperm : entries.Perm tree.collected) : Layout entries tree.node where
  entry path node hpath hnode := by
    have hentry : (⟨path, node⟩ : WalkEntry) ∈ tree.entries := Source.mem_entries.mpr ⟨hpath, hnode⟩
    obtain ⟨collected, hcollected⟩ := Source.exists_collected hentry (hplain _ hentry)
    refine ⟨collected, ?_, ?_, node_of_identityEntry? hcollected⟩
    · exact hperm.mem_iff.mpr (Source.mem_collected.mpr ⟨_, hentry, hcollected⟩)
    · rw [Source.relative_identityEntry? hcollected]
      exact Source.parts_relative hentry
  above collected hcollected path hpath hinit := by
    obtain ⟨entry, hentry, hidentity⟩ := Source.mem_collected.mp (hperm.mem_iff.mp hcollected)
    rw [Source.relative_identityEntry? hidentity, Source.parts_relative hentry] at hinit
    obtain ⟨rest, hrest⟩ := hinit
    have hat := (Source.mem_entries.mp hentry).2
    rw [← hrest] at hat
    exact tree.above hpath hat

def copy (tree : Tree) (disk : Disk) (target : Location)
    (h : ∀ path, path ≠ [] → disk.at (target ++ path) = (tree.node path).map Node.sanitized) :
    Source where
  disk := disk
  root := target
  names path node hnode name hname := by
    rw [h path (List.ne_nil_of_mem hname)] at hnode
    obtain ⟨node', hnode', _⟩ := Option.map_eq_some_iff.mp hnode
    exact tree.names path node' hnode' name hname
  modes path node hpath hnode := by
    rw [h path hpath] at hnode
    obtain ⟨node', _, rfl⟩ := Option.map_eq_some_iff.mp hnode
    exact nineBits_sanitized node'

def OtherWritable (tree : Tree) : Prop :=
  ∃ path node, path ≠ [] ∧ tree.node path = some node ∧ node.OtherWritable

theorem same_copy_iff
    (h : ∀ path, path ≠ [] → disk.at (target ++ path) = (tree.node path).map Node.sanitized) :
    tree.Same (tree.copy disk target h) ↔ ¬tree.OtherWritable := by
  have hcopy : ∀ path, path ≠ [] →
      (tree.copy disk target h).node path = (tree.node path).map Node.sanitized := h
  constructor
  · rintro hsame ⟨path, node, hpath, hnode, hwritable⟩
    have heq := hsame path hpath
    rw [hcopy path hpath, hnode, Option.map_some, Option.some.injEq] at heq
    exact (sanitized_eq_self (tree.modes path node hpath hnode)).mp heq.symm hwritable
  · intro hnone path hpath
    rw [hcopy path hpath]
    cases hnode : tree.node path with
    | none => rfl
    | some node =>
      have hkept := (sanitized_eq_self (tree.modes path node hpath hnode)).mpr
        fun hwritable => hnone ⟨path, node, hpath, hnode, hwritable⟩
      rw [Option.map_some, hkept]

structure Free (tree : Tree) (host : Host) (target : Location) : Prop where
  directory : ∃ mode, tree.disk.at target = some (.directory mode) ∧ host.enters mode = true
  empty : ∀ location, Beneath target location → tree.disk.at location = none
  apart : ¬Within tree.root target

theorem Free.not_beneath {host : Host} (h : tree.Free host target)
    (hroot : tree.node [] = some (.directory mode)) (path : List String) :
    ¬Beneath target (tree.root ++ path) := by
  rintro ⟨rest, hne, heq⟩
  rcases append_eq_append_iff.mp heq with ⟨front, htarget, _⟩ | ⟨front, hfront, hrest⟩
  · exact h.apart ⟨front, htarget⟩
  · cases front with
    | nil =>
      rw [append_nil] at hfront
      exact h.apart ⟨[], by rw [hfront, append_nil]⟩
    | cons name front =>
      have hnone := h.empty tree.root ⟨name :: front, by simp, hfront⟩
      rw [Source.node, append_nil, hnone] at hroot
      cases hroot

end Tree

/-- Every file of the tree has a name that can be staged. -/
def Tree.Staged (tree : Tree) (dest : Destination) : Prop :=
  ∀ entry ∈ tree.entries, entry.Staged dest

/-- The process can open each entry under its own ownership and with the bits that it gives it. -/
def Tree.Reopens (tree : Tree) (host : Host) : Prop :=
  ∀ entry ∈ tree.entries, WalkEntry.Opens host ⟨entry.path, entry.node.sanitized⟩

section Snapshot

variable {tree : Tree} {first second : Listing} {id : String}

theorem copyDirAll_returns (hid : tree.identity env limits first second = .ok id)
    (hfree : tree.Free dest.host target) (hstaged : tree.Staged dest) (first' second' : Listing) :
    ∃ disk', copyDirAll env dest limits first' second' tree.root target tree.disk = .ok () disk' ∧
      Contained target tree.disk disk' ∧
      ∀ path, path ≠ [] → disk'.at (target ++ path) = (tree.node path).map Node.sanitized := by
  obtain ⟨h, _⟩ := Source.identity_eq_ok.mp hid
  obtain ⟨mode, hmode, henters⟩ := hfree.directory
  obtain ⟨_, disk', hok, entries, hperm, hsettled⟩ :=
    (Source.settled_copyDirAll h hmode henters hfree.empty hstaged first' second').returns
  exact ⟨disk', hok, tracks_copyDirAll.of_ok hok, fun path hpath =>
    (Tree.layout h.plain hperm).settled_at hsettled hpath⟩

theorem identity_copy_iff {disk' : Disk} (hid : tree.identity env limits first second = .ok id)
    (hfree : tree.Free dest.host target) (hcontained : Contained target tree.disk disk')
    (hcopy : ∀ path, path ≠ [] → disk'.at (target ++ path) = (tree.node path).map Node.sanitized)
    (first' second' : Listing) :
    (¬tree.OtherWritable ∧ tree.Reopens dest.host → (tree.copy disk' target hcopy).identity
      { env with host := dest.host } limits first' second' = .ok id) ∧
    ((tree.copy disk' target hcopy).identity { env with host := dest.host } limits first' second' =
        .ok id →
      tree.Reopens dest.host ∧ (Function.Injective env.sha256 → ¬tree.OtherWritable)) := by
  constructor
  · rintro ⟨hnone, hreopens⟩
    have hsame := (Tree.same_copy_iff hcopy).mpr hnone
    obtain ⟨h, hbytes⟩ := Source.identity_eq_ok.mp hid
    obtain ⟨mode, hmode, henters⟩ := hfree.directory
    have hroot : (tree.copy disk' target hcopy).node [] = some (.directory mode) := by
      show disk'.at (target ++ []) = _
      rw [append_nil, hcontained.outside target (not_beneath_self target), hmode]
    apply Source.identity_eq_ok.mpr
    rw [← Source.sortEntries_of_same hsame]
    refine ⟨h.of_same hsame ⟨mode, hroot, henters⟩ ?_, hbytes⟩
    rintro ⟨path, node⟩ hentry
    obtain ⟨hpath, hnode⟩ := Source.mem_entries.mp hentry
    rw [show (tree.copy disk' target hcopy).node path = _ from hcopy path hpath] at hnode
    obtain ⟨node', hnode', rfl⟩ := Option.map_eq_some_iff.mp hnode
    exact hreopens ⟨path, node'⟩ (Source.mem_entries.mpr ⟨hpath, hnode'⟩)
  · intro hkept
    constructor
    · rintro ⟨path, node⟩ hentry
      obtain ⟨hpath, hnode⟩ := Source.mem_entries.mp hentry
      have hcopied : (tree.copy disk' target hcopy).node path = some node.sanitized := by
        rw [show (tree.copy disk' target hcopy).node path = _ from hcopy path hpath, hnode]
        rfl
      exact (Source.identity_eq_ok.mp hkept).1.opens (Source.mem_entries.mpr ⟨hpath, hcopied⟩)
    · intro hcollision hwritable
      have hsame := (@Source.identity_eq_iff_same _ _ env { env with host := dest.host } _ _ _ _ _ _
        _ _ rfl hcollision hid hkept).mp rfl
      exact (Tree.same_copy_iff hcopy).mp hsame hwritable

/-- A tree that has an identity is copied into any empty directory apart from it exactly if its
files can be staged. It stays as it is, and the copy has the identity of the tree if others can
write no entry of it and the process can open its own entries with the same bits, and only then
when the digest has no collisions. -/
theorem copy_keeps_identity_iff (hid : tree.identity env limits first second = .ok id)
    (hfree : tree.Free dest.host target) (first' second' first'' second'' : Listing) :
    ((∃ disk', copyDirAll env dest limits first' second' tree.root target tree.disk =
        .ok () disk') ↔ tree.Staged dest) ∧
    ∀ disk', copyDirAll env dest limits first' second' tree.root target tree.disk = .ok () disk' →
      (∀ path, disk'.at (tree.root ++ path) = tree.node path) ∧
      (¬tree.OtherWritable ∧ tree.Reopens dest.host →
        packageIdentitySha256 { env with host := dest.host } limits first'' second''
          (disk'.at target) (disk'.entries target) = .ok id) ∧
      (packageIdentitySha256 { env with host := dest.host } limits first'' second''
          (disk'.at target) (disk'.entries target) = .ok id →
        tree.Reopens dest.host ∧ (Function.Injective env.sha256 → ¬tree.OtherWritable)) := by
  obtain ⟨mode, hroot, _⟩ := (Source.identity_eq_ok.mp hid).1.root
  have hstages : ∀ disk', copyDirAll env dest limits first' second' tree.root target tree.disk =
      .ok () disk' → tree.Staged dest :=
    fun disk' hok => (Source.staged_copyDirAll hroot first' second').of_ok hok
  constructor
  · constructor
    · rintro ⟨disk', hok⟩
      exact hstages disk' hok
    · intro hstaged
      obtain ⟨disk', hok, -, -⟩ := copyDirAll_returns hid hfree hstaged first' second'
      exact ⟨disk', hok⟩
  · intro disk' hok
    obtain ⟨disk'', hok', hcontained, hcopy⟩ :=
      copyDirAll_returns hid hfree (hstages disk' hok) first' second'
    rw [hok] at hok'
    cases hok'
    have hidentity : packageIdentitySha256 { env with host := dest.host } limits first'' second''
        (disk'.at target) (disk'.entries target) = (tree.copy disk' target hcopy).identity
          { env with host := dest.host } limits first'' second'' := by
      rw [Source.identity, Source.node, show (tree.copy disk' target hcopy).root = target from rfl,
        append_nil]
      rfl
    refine ⟨fun path => ?_, ?_⟩
    · exact hcontained.outside _ (hfree.not_beneath hroot path)
    · rw [hidentity]
      exact identity_copy_iff hid hfree hcontained hcopy first'' second''

end Snapshot

theorem empty_of_entries (h : disk.entries target = []) {location : Location}
    (hbeneath : Beneath target location) : disk.at location = none := by
  obtain ⟨path, hpath, rfl⟩ := hbeneath
  cases hnode : disk.at (target ++ path) with
  | none => rfl
  | some node =>
    have hentry : (⟨path, node⟩ : WalkEntry) ∈ disk.entries target := mem_entries.mpr ⟨hpath, hnode⟩
    rw [h] at hentry
    cases hentry

def Tree.ofSource (source : Source) (h : ∀ entry ∈ source.entries, entry.path.dropLast = [] ∨
    ∃ parent ∈ source.entries, parent.path = entry.path.dropLast ∧ parent.node.isDir = true) :
    Tree where
  toSource := source
  parents path name node hpath hnode := by
    have hentry : (⟨path ++ [name], node⟩ : WalkEntry) ∈ source.entries :=
      Source.mem_entries.mpr ⟨by simp, hnode⟩
    rcases h _ hentry with hnil | ⟨⟨above, parent⟩, hparent, habove, hdir⟩
    · simp only [List.dropLast_concat] at hnil
      exact absurd hnil hpath
    · simp only [List.dropLast_concat] at habove
      subst habove
      have hat := (Source.mem_entries.mp hparent).2
      cases parent with
      | directory mode => exact ⟨mode, hat⟩
      | file bytes mode => cases hdir
      | symlink => cases hdir

def snapshotDisk (mode : Mode) : Disk :=
  ⟨filesOf [(["p"], .directory 0o755), (["p", "b"], .directory 0o750),
    (["p", "b", "x"], .file [1, 2] mode), (["t"], .directory 0o700)], []⟩

def plainTree : Tree :=
  .ofSource (.ofEntries (snapshotDisk 0o644) ["p"] (by decide +kernel)) (by decide +kernel)

def sharedTree : Tree :=
  .ofSource (.ofEntries (snapshotDisk 0o666) ["p"] (by decide +kernel)) (by decide +kernel)

theorem free_snapshot {tree : Tree} (hdisk : tree.disk = snapshotDisk mode)
    (hroot : tree.root = ["p"]) (hmode : mode = 0o644 ∨ mode = 0o666) :
    tree.Free ownerHost ["t"] where
  directory := by
    rw [hdisk]
    rcases hmode with rfl | rfl
    · exact ⟨0o700, by decide +kernel, by decide⟩
    · exact ⟨0o700, by decide +kernel, by decide⟩
  empty location hbeneath := by
    rw [hdisk]
    rcases hmode with rfl | rfl
    · exact empty_of_entries (by decide +kernel) hbeneath
    · exact empty_of_entries (by decide +kernel) hbeneath
  apart := by
    rw [hroot]
    rintro ⟨rest, h⟩
    simp at h

def ownerDestination : Destination where
  host := ownerHost
  nameMax := 255

instance (host : Host) (entry : WalkEntry) : Decidable (entry.Opens host) := by
  unfold WalkEntry.Opens
  split <;> infer_instance

instance (dest : Destination) (entry : WalkEntry) : Decidable (entry.Staged dest) := by
  unfold WalkEntry.Staged
  split <;> infer_instance

theorem copy_keeps_identity_iff_plain :
    ∃ id disk', plainTree.identity spelledEnv .default asFound backwards = .ok id ∧
      copyDirAll spelledEnv ownerDestination .default backwards asFound ["p"] ["t"]
        (snapshotDisk 0o644) = .ok () disk' ∧
      packageIdentitySha256 spelledEnv .default asFound asFound (disk'.at ["t"])
        (disk'.entries ["t"]) = .ok id := by
  have hid := Except.eq_ok_get (plainTree.identity spelledEnv .default asFound backwards)
    (by decide +kernel)
  have hfree : plainTree.Free ownerDestination.host ["t"] := free_snapshot rfl rfl (.inl rfl)
  have hclean : ∀ entry ∈ plainTree.entries, ¬entry.node.OtherWritable := by decide +kernel
  have hstaged : ∀ entry ∈ plainTree.entries, entry.Staged ownerDestination := by decide +kernel
  have hreopens : ∀ entry ∈ plainTree.entries,
      WalkEntry.Opens ownerHost ⟨entry.path, entry.node.sanitized⟩ := by decide +kernel
  obtain ⟨hcopies, hkept⟩ :=
    copy_keeps_identity_iff hid hfree backwards asFound asFound asFound
  obtain ⟨disk', hok⟩ := hcopies.mpr hstaged
  refine ⟨_, disk', hid, hok, (hkept disk' hok).2.1 ⟨?_, hreopens⟩⟩
  rintro ⟨path, node, hpath, hnode, hwritable⟩
  exact hclean ⟨path, node⟩ (Source.mem_entries.mpr ⟨hpath, hnode⟩) hwritable

/-- A file that others can write is copied without that bit, and the identity is another one. -/
theorem copy_changes_identity :
    ∃ id disk', sharedTree.identity spelledEnv .default asFound asFound = .ok id ∧
      copyDirAll spelledEnv ownerDestination .default asFound asFound ["p"] ["t"]
        (snapshotDisk 0o666) = .ok () disk' ∧
      disk'.at ["t", "b", "x"] = some (.file [1, 2] 0o664) ∧
      packageIdentitySha256 spelledEnv .default asFound asFound (disk'.at ["t"])
        (disk'.entries ["t"]) ≠ .ok id := by
  have hid := Except.eq_ok_get (sharedTree.identity spelledEnv .default asFound asFound)
    (by decide +kernel)
  have hfree : sharedTree.Free ownerDestination.host ["t"] := free_snapshot rfl rfl (.inr rfl)
  have hstaged : ∀ entry ∈ sharedTree.entries, entry.Staged ownerDestination := by decide +kernel
  have hat : sharedTree.node ["b", "x"] = some (.file [1, 2] 0o666) := by decide +kernel
  obtain ⟨disk', hok, hcontained, hcopy⟩ := copyDirAll_returns hid hfree hstaged asFound asFound
  refine ⟨_, disk', hid, hok, ?_, ?_⟩
  · have hcopied := hcopy ["b", "x"] (by simp)
    rw [hat] at hcopied
    exact hcopied
  · intro hkept
    exact ((identity_copy_iff hid hfree hcontained hcopy asFound asFound).2 hkept).2
      Encoding.spelled_injective ⟨["b", "x"], _, by simp, hat, by decide⟩

end Package

end Qcg
