import Qcg.Service.PackageTree

/-!
# The inventory of a package

A package lists its files in an SBOM. Verification walks the directory, in whatever order the
system lists it, and compares every file with its listed digest and mode; what the SBOM lists
must be there, and the whole name space must be portable.
-/

namespace Qcg

open List
open Json (Value)

namespace Package

structure PackageLimits where
  maxEntries : Option Nat
  maxBytes : Option Nat
  maxMetadataBytes : Option Nat

/-- The bounded defaults: 1000 entries and 10 MiB. -/
def PackageLimits.default : PackageLimits :=
  { maxEntries := some 1000, maxBytes := some (10 * 1024 * 1024), maxMetadataBytes := none }

/-- A host with the functions that the package code gets from its libraries. -/
structure Env where
  host : Host
  collisionKey : Policy.CollisionKey
  sha256 : Bytes → String
  fromSlice : Bytes → Except String Value

def sbomPath : String := "SBOM.spdx.json"

def provenancePath : String := "PROVENANCE.intoto.json"

/-- An entry of a walk, by its names below the root of the walk. -/
structure WalkEntry where
  path : List String
  node : Node
deriving DecidableEq

/-- The order in which the system lists directories. -/
structure Listing where
  order : List WalkEntry → List WalkEntry
  perm : ∀ entries, (order entries).Perm entries

def Disk.entries (disk : Disk) (root : Location) : List WalkEntry :=
  disk.files.entries.filterMap fun entry =>
    match root.isPrefixOf? entry.1 with
    | some (name :: rest) => some ⟨name :: rest, entry.2⟩
    | _ => none

def WalkEntry.closed (host : Host) (entry : WalkEntry) : Bool :=
  match entry.node with
  | .directory mode => !host.enters mode
  | _ => false

/-- `WalkDir`: the root first, then everything below it; it fails at a directory that the
process cannot read. -/
def walkDir (host : Host) (listing : Listing) (root : Option Node) (entries : List WalkEntry) :
    Except String (List WalkEntry) :=
  match root with
  | none => .error "No such file or directory (os error 2)"
  | some (.directory mode) =>
    if (⟨[], .directory mode⟩ :: entries).any (WalkEntry.closed host) then
      .error "Permission denied (os error 13)"
    else .ok (⟨[], .directory mode⟩ :: listing.order entries)
  | some node => .ok [⟨[], node⟩]

def WalkEntry.relative (entry : WalkEntry) : String :=
  Policy.portableRelativePath entry.path

def Node.isDir : Node → Bool
  | .directory _ => true
  | _ => false

def readBounded (env : Env) (disk : Disk) (location : Location) (maxBytes : Option Nat) :
    Except String Bytes :=
  match disk.at location with
  | some (.file bytes mode) =>
    if env.host.reads mode then
      if maxBytes.any (· < bytes.length) then
        .error ("file exceeds " ++ toString (maxBytes.getD 0) ++ " bytes")
      else .ok bytes
    else .error "Permission denied (os error 13)"
  | some (.directory _) => .error "Is a directory (os error 21)"
  | some .symlink | none => .error "No such file or directory (os error 2)"

/-- The step of a JSON pointer through the token `0`. -/
def pointerZero : Value → Option Value
  | .obj members => Json.Members.get members "0"
  | .arr items => items.head?
  | _ => none

structure Listed where
  sha256 : String
  mode : Mode
deriving DecidableEq

def listedMode (path : String) (file : Value) : Except String Mode :=
  match file.get "mode" with
  | none => .error ("package SBOM file `" ++ path ++ "` is missing the required mode")
  | some value =>
    match value.asU64 with
    | some mode =>
      if mode ≤ 0o777 then .ok (BitVec.ofNat 32 mode)
      else .error ("package SBOM file `" ++ path ++ "` has an invalid mode")
    | none => .error ("package SBOM file `" ++ path ++ "` has an invalid mode")

def listFile (expected : BTreeMap Listed) (file : Value) : Except String (BTreeMap Listed) := do
  let path ← (file.getStr "fileName").elim (.error "package SBOM fileName is required") .ok
  let sha256 ← ((((file.get "checksums").bind pointerZero).bind
    (·.get "checksumValue")).bind (·.asStr)).elim
      (.error "package SBOM SHA256 checksum is required") .ok
  let mode ← listedMode path file
  if expected.contains path then
    .error ("package SBOM contains duplicate path `" ++ path ++ "`")
  else .ok (expected.insert path ⟨sha256, mode⟩)

def expectedFiles (sbom : Value) : Except String (BTreeMap Listed) :=
  match (sbom.get "files").bind (·.asArray) with
  | none => .error "package SBOM files array is required"
  | some files => files.foldlM listFile ∅

structure Inventory where
  namespaceEntries : List (String × Bool) := []
  actual : BTreeSet := ∅
  walked : Nat := 0

def octal (mode : Mode) : String :=
  String.ofList (Nat.toDigits 8 mode.toNat)

def verifyFile (env : Env) (expected : BTreeMap Listed) (relative : String) (bytes : Bytes)
    (mode : Mode) : Except String Unit :=
  match (expected[relative]? : Option Listed) with
  | none => .error ("package contains unlisted file `" ++ relative ++ "`")
  | some listed =>
    if !env.host.reads mode then
      .error ("failed to inspect package file `" ++ relative ++ "`: Permission denied")
    else if sanitizeModeBits mode ≠ listed.mode then
      .error ("package file `" ++ relative ++ "` mode mismatch: expected " ++
        octal listed.mode ++ ", found " ++ octal (sanitizeModeBits mode))
    else if env.sha256 bytes ≠ listed.sha256 then
      .error ("package file `" ++ relative ++ "` failed SBOM integrity verification")
    else .ok ()

def isMetadata (relative : String) : Bool :=
  relative = sbomPath || relative = provenancePath

def inventoryEntry (env : Env) (limits : PackageLimits) (expected : BTreeMap Listed)
    (s : Inventory) (entry : WalkEntry) : Except String Inventory :=
  let walked := s.walked + 1
  let relative := entry.relative
  if limits.maxEntries.any (· < walked) then
    .error ("package contains more than " ++ toString (limits.maxEntries.getD 0) ++ " entries")
  else
    let namespaceEntries := if relative = "" then s.namespaceEntries
      else s.namespaceEntries ++ [(relative, entry.node.isDir)]
    match entry.node with
    | .symlink => .error ("package contains a symbolic link: " ++ relative)
    | .directory _ => .ok { s with namespaceEntries, walked }
    | .file bytes mode =>
      if isMetadata relative then .ok { s with namespaceEntries, walked }
      else do
        verifyFile env expected relative bytes mode
        .ok { namespaceEntries, actual := s.actual.insert relative, walked }

def supported (sbom provenance : Value) : Bool :=
  sbom.getStr "spdxVersion" = some "SPDX-2.3" &&
    provenance.getStr "_type" = some "https://in-toto.io/Statement/v1"

def verifyPackageInventory (env : Env) (limits : PackageLimits) (listing : Listing)
    (root : Location) (disk : Disk) : Except String Unit := do
  let sbomBytes ← (readBounded env disk (root ++ [sbomPath]) limits.maxMetadataBytes).mapError
    ("package is missing SBOM.spdx.json: " ++ ·)
  let provenanceBytes ←
    (readBounded env disk (root ++ [provenancePath]) limits.maxMetadataBytes).mapError
      ("package is missing PROVENANCE.intoto.json: " ++ ·)
  let sbom ← env.fromSlice sbomBytes
  let provenance ← env.fromSlice provenanceBytes
  if !supported sbom provenance then
    .error "package supply-chain metadata has an unsupported format"
  else do
    let expected ← expectedFiles sbom
    Policy.validatePathTreeSet env.collisionKey.key (expected.keys.map fun path => (path, false))
    let walk ← (walkDir env.host listing (disk.at root) (disk.entries root)).mapError
      ("failed to walk package: " ++ ·)
    let inventory ← walk.foldlM (inventoryEntry env limits expected) {}
    Policy.validatePathTreeSet env.collisionKey.key inventory.namespaceEntries
    match expected.keys.find? fun path => !inventory.actual.contains path with
    | some missing => .error ("package SBOM lists missing file `" ++ missing ++ "`")
    | none => .ok ()

variable {env : Env} {limits : PackageLimits} {listing : Listing} {root : Location} {disk : Disk}
  {expected : BTreeMap Listed}

variable {entry : WalkEntry}

theorem mem_entries :
    entry ∈ disk.entries root ↔
      entry.path ≠ [] ∧ disk.at (root ++ entry.path) = some entry.node := by
  rw [Disk.entries, mem_filterMap]
  constructor
  · rintro ⟨⟨location, node⟩, hmem, h⟩
    split at h
    · next name rest hinit =>
      cases h
      rw [List.isPrefixOf?_eq_some_iff_append_eq] at hinit
      refine ⟨by simp, ?_⟩
      rw [hinit]
      exact AList.mem_lookup_iff.mpr hmem
    · cases h
  · rintro ⟨hpath, hat⟩
    refine ⟨⟨root ++ entry.path, entry.node⟩, AList.mem_lookup_iff.mp hat, ?_⟩
    have hinit : root.isPrefixOf? (root ++ entry.path) = some entry.path :=
      List.isPrefixOf?_eq_some_iff_append_eq.mpr rfl
    obtain ⟨path, node⟩ := entry
    cases path with
    | nil => exact absurd rfl hpath
    | cons name rest => simp [hinit]

theorem nodup_entries : ((disk.entries root).map WalkEntry.path).Nodup := by
  let below : Location → Option (List String) := fun location =>
    (root.isPrefixOf? location).filter (· ≠ [])
  have hpaths : (disk.entries root).map WalkEntry.path = disk.files.keys.filterMap below := by
    show _ = (disk.files.entries.map Sigma.fst).filterMap below
    rw [Disk.entries, map_filterMap, filterMap_map]
    apply filterMap_congr
    intro entry _
    simp only [below, Function.comp_apply]
    rcases root.isPrefixOf? entry.1 with _ | (_ | ⟨name, rest⟩) <;> rfl
  rw [hpaths]
  refine List.Nodup.filterMap ?_ disk.files.keys_nodup
  intro location location' path hpath hpath'
  simp only [below, Option.mem_def, Option.filter_eq_some_iff,
    List.isPrefixOf?_eq_some_iff_append_eq] at hpath hpath'
  rw [← hpath.1, ← hpath'.1]

theorem readBounded_eq_ok {location : Location} {maxBytes : Option Nat} {bytes : Bytes}
    (h : readBounded env disk location maxBytes = .ok bytes) :
    ∃ mode, disk.at location = some (.file bytes mode) := by
  rw [readBounded] at h
  split at h
  · next found mode hat =>
    split_ifs at h
    cases h
    exact ⟨mode, hat⟩
  all_goals cases h

/-- An entry that the verification accepts. -/
def EntryOk (env : Env) (expected : BTreeMap Listed) (entry : WalkEntry) : Prop :=
  match entry.node with
  | .symlink => False
  | .directory _ => True
  | .file bytes mode => isMetadata entry.relative = true ∨
      env.host.reads mode = true ∧
        expected[entry.relative]? = some ⟨env.sha256 bytes, sanitizeModeBits mode⟩

def WalkEntry.namespaceEntry (entry : WalkEntry) : Option (String × Bool) :=
  if entry.relative = "" then none else some (entry.relative, entry.node.isDir)

def WalkEntry.actual (entry : WalkEntry) : Option String :=
  match entry.node with
  | .file _ _ => if isMetadata entry.relative then none else some entry.relative
  | _ => none

theorem actual_eq_some {relative : String} :
    entry.actual = some relative ↔ (∃ bytes mode, entry.node = .file bytes mode) ∧
      isMetadata entry.relative = false ∧ entry.relative = relative := by
  rw [WalkEntry.actual]
  cases entry.node with
  | file bytes mode =>
    by_cases h : isMetadata entry.relative = true
    · simp [h]
    · simp [h]
  | directory mode => simp
  | symlink => simp

theorem verifyFile_eq_ok {relative : String} {bytes : Bytes} {mode : Mode} :
    verifyFile env expected relative bytes mode = .ok () ↔
      env.host.reads mode = true ∧
        expected[relative]? = some ⟨env.sha256 bytes, sanitizeModeBits mode⟩ := by
  rw [verifyFile]
  cases hlisted : (expected[relative]? : Option Listed) with
  | none => simp
  | some listed =>
    obtain ⟨sha256, listedMode⟩ := listed
    simp only [Bool.not_eq_true', ne_eq, Option.some.injEq, Listed.mk.injEq]
    split_ifs with hreads hmode hsha <;> grind

def Inventory.after (s : Inventory) (walk : List WalkEntry) : Inventory where
  namespaceEntries := s.namespaceEntries ++ walk.filterMap WalkEntry.namespaceEntry
  actual := (walk.filterMap WalkEntry.actual).foldl (fun actual path => actual.insert path) s.actual
  walked := s.walked + walk.length

variable (s : Inventory)

theorem after_of_not_actual (entry : WalkEntry) (h : entry.actual = none) :
    s.after [entry] = { s with
      namespaceEntries := (s.after [entry]).namespaceEntries, walked := s.walked + 1 } := by
  simp [Inventory.after, h]

theorem after_of_actual (entry : WalkEntry) {path : String} (h : entry.actual = some path) :
    s.after [entry] = {
      namespaceEntries := (s.after [entry]).namespaceEntries, actual := s.actual.insert path,
      walked := s.walked + 1 } := by
  simp [Inventory.after, h]

variable {s' : Inventory}

theorem inventoryEntry_eq_ok {s : Inventory} :
    inventoryEntry env limits expected s entry = .ok s' ↔
      EntryOk env expected entry ∧ (limits.maxEntries.all (s.walked + 1 ≤ ·)) = true ∧
        s' = s.after [entry] := by
  have hcount : limits.maxEntries.any (· < s.walked + 1) = true ↔
      ¬(limits.maxEntries.all (s.walked + 1 ≤ ·)) = true := by
    cases limits.maxEntries <;> simp
  have hnames : (if entry.relative = "" then s.namespaceEntries
        else s.namespaceEntries ++ [(entry.relative, entry.node.isDir)]) =
      (s.after [entry]).namespaceEntries := by
    simp only [Inventory.after, filterMap_cons, WalkEntry.namespaceEntry, filterMap_nil]
    split_ifs <;> simp
  rw [inventoryEntry]
  simp only [hnames, hcount]
  by_cases hbound : (limits.maxEntries.all (s.walked + 1 ≤ ·)) = true
  · simp only [hbound, not_true_eq_false, if_false, true_and]
    cases hnode : entry.node with
    | symlink => simp [EntryOk, hnode]
    | directory mode =>
      have hafter := after_of_not_actual s entry (by simp [WalkEntry.actual, hnode])
      simp only [EntryOk, hnode, true_and, Except.ok.injEq]
      rw [← hafter, @eq_comm _ s']
    | file bytes mode =>
      by_cases hmeta : isMetadata entry.relative = true
      · have hafter := after_of_not_actual s entry
          (by simp [WalkEntry.actual, hnode, hmeta])
        simp only [EntryOk, hnode, hmeta, if_true, true_or, true_and, Except.ok.injEq]
        rw [← hafter, @eq_comm _ s']
      · have hactual : entry.actual = some entry.relative := by
          simp [WalkEntry.actual, hnode, hmeta]
        have hafter := after_of_actual s entry hactual
        simp only [EntryOk, hnode, hmeta, if_false, false_or, Except.unit_bind_eq_ok,
          verifyFile_eq_ok, Except.ok.injEq, Bool.false_eq_true]
        rw [← hafter, @eq_comm _ s']
  · simp only [hbound, Bool.false_eq_true, not_false_eq_true, if_true, false_and, and_false,
      reduceCtorEq]

theorem Inventory.after_cons (entry : WalkEntry) (walk : List WalkEntry) :
    (s.after [entry]).after walk = s.after (entry :: walk) := by
  have hcons : entry :: walk = [entry] ++ walk := rfl
  rw [hcons]
  simp only [Inventory.after, filterMap_append, foldl_append, append_assoc,
    length_append, Nat.add_assoc]

theorem inventory_eq_ok {s : Inventory} {walk : List WalkEntry}
    (h : walk.foldlM (inventoryEntry env limits expected) s = .ok s') :
    (∀ entry ∈ walk, EntryOk env expected entry) ∧
      (walk ≠ [] → (limits.maxEntries.all (s.walked + walk.length ≤ ·)) = true) ∧
        s' = s.after walk := by
  induction walk generalizing s with
  | nil =>
    rw [Except.foldlM_nil, Except.ok.injEq] at h
    simp [Inventory.after, ← h]
  | cons entry walk ih =>
    obtain ⟨t, hstep, hrest⟩ := Except.foldlM_cons_eq_ok.mp h
    obtain ⟨hok, hbound, rfl⟩ := inventoryEntry_eq_ok.mp hstep
    obtain ⟨hoks, hbounds, rfl⟩ := ih hrest
    have hwalked : (s.after [entry]).walked + walk.length = s.walked + (entry :: walk).length := by
      simp [Inventory.after]
      omega
    refine ⟨forall_mem_cons.mpr ⟨hok, hoks⟩, fun _ => ?_, s.after_cons entry walk⟩
    rw [hwalked] at hbounds
    cases walk with
    | nil => exact hbound
    | cons next walk => exact hbounds (by simp)

structure Verified (env : Env) (limits : PackageLimits) (root : Location) (disk : Disk)
    (mode : Mode) (sbomBytes provenanceBytes : Bytes) (sbom provenance : Value)
    (expected : BTreeMap Listed) : Prop where
  sbom_read : readBounded env disk (root ++ [sbomPath]) limits.maxMetadataBytes = .ok sbomBytes
  provenance_read :
    readBounded env disk (root ++ [provenancePath]) limits.maxMetadataBytes = .ok provenanceBytes
  sbom_parsed : env.fromSlice sbomBytes = .ok sbom
  provenance_parsed : env.fromSlice provenanceBytes = .ok provenance
  format : supported sbom provenance = true
  listed : expectedFiles sbom = .ok expected
  listed_tree : Policy.validatePathTreeSet env.collisionKey.key
    (expected.keys.map fun path => (path, false)) = .ok ()
  enters : env.host.enters mode = true
  opened : ∀ entry ∈ disk.entries root, entry.closed env.host = false
  entries : ∀ entry ∈ disk.entries root, EntryOk env expected entry
  count : (limits.maxEntries.all ((disk.entries root).length + 1 ≤ ·)) = true
  tree : Policy.validatePathTreeSet env.collisionKey.key
    ((disk.entries root).filterMap WalkEntry.namespaceEntry) = .ok ()
  present : ∀ path ∈ expected.keys, ∃ entry ∈ disk.entries root, entry.actual = some path

theorem walkDir_eq_ok {host : Host} {mode : Mode} {entries walk : List WalkEntry} :
    walkDir host listing (some (.directory mode)) entries = .ok walk ↔
      host.enters mode = true ∧ (∀ entry ∈ entries, entry.closed host = false) ∧
        walk = ⟨[], .directory mode⟩ :: listing.order entries := by
  have hclosed : ((⟨[], .directory mode⟩ :: entries).any (WalkEntry.closed host)) = false ↔
      host.enters mode = true ∧ ∀ entry ∈ entries, entry.closed host = false := by
    rw [any_cons, Bool.or_eq_false_iff, any_eq_false]
    simp only [Bool.not_eq_true]
    exact and_congr_left fun _ => by simp [WalkEntry.closed]
  rw [walkDir, ← and_assoc, ← hclosed]
  cases (⟨[], .directory mode⟩ :: entries).any (WalkEntry.closed host) with
  | true => simp
  | false => simp [eq_comm]

theorem relative_root (node : Node) : (⟨[], node⟩ : WalkEntry).namespaceEntry = none := by
  simp [WalkEntry.namespaceEntry, WalkEntry.relative, Policy.portableRelativePath,
    String.intercalate]

theorem inventory_of_walk {mode : Mode} {entries : List WalkEntry} :
    let inventory := ({} : Inventory).after (⟨[], .directory mode⟩ :: listing.order entries)
    Policy.validatePathTreeSet env.collisionKey.key inventory.namespaceEntries =
      Policy.validatePathTreeSet env.collisionKey.key
        (entries.filterMap WalkEntry.namespaceEntry) ∧
    ∀ path, path ∈ inventory.actual ↔ ∃ entry ∈ entries, entry.actual = some path := by
  intro inventory
  have hperm := listing.perm entries
  constructor
  · have hnames : inventory.namespaceEntries =
        (listing.order entries).filterMap WalkEntry.namespaceEntry := by
      simp [inventory, Inventory.after, relative_root]
    rw [hnames, Policy.validatePathTreeSet_perm (hperm.filterMap _)]
  · intro path
    have hactual : inventory.actual = ((listing.order entries).filterMap WalkEntry.actual).foldl
        (fun actual path => actual.insert path) ∅ := by
      simp only [inventory, Inventory.after]
      rw [filterMap_cons_none rfl]
    rw [hactual, BTreeSet.mem_foldl_insert, mem_filterMap]
    simp [hperm.mem_iff]

theorem verified_of_verifyPackageInventory {mode : Mode}
    (hroot : disk.at root = some (.directory mode))
    (h : verifyPackageInventory env limits listing root disk = .ok ()) :
    ∃ sbomBytes provenanceBytes sbom provenance expected,
      Verified env limits root disk mode sbomBytes provenanceBytes sbom provenance expected := by
  obtain ⟨htreeWalk, hactual⟩ := @inventory_of_walk env listing mode (disk.entries root)
  have hlength := (listing.perm (disk.entries root)).length_eq
  simp only [verifyPackageInventory, Except.bind_eq_ok, Except.mapError_eq_ok, hroot] at h
  obtain ⟨sbomBytes, hsbom, provenanceBytes, hprovenance, sbom, hsbomJson, provenance,
    hprovenanceJson, h⟩ := h
  split_ifs at h with hformat
  obtain ⟨expected, hexpected, _, hlisted, walk, hwalk, inventory, hfold, _, htree, hmissing⟩ := by
    simpa only [Except.bind_eq_ok, Except.mapError_eq_ok] using h
  obtain ⟨henters, hopened, rfl⟩ := walkDir_eq_ok.mp hwalk
  obtain ⟨hentries, hcount, rfl⟩ := inventory_eq_ok hfold
  split at hmissing
  · cases hmissing
  · next hnone =>
    have hformat : supported sbom provenance = true := by simpa using hformat
    have hcount := hcount (by simp)
    rw [length_cons, hlength, Nat.zero_add] at hcount
    refine ⟨sbomBytes, provenanceBytes, sbom, provenance, expected, hsbom, hprovenance, hsbomJson,
      hprovenanceJson, hformat, hexpected, hlisted, henters, hopened, ?_, hcount,
      htreeWalk ▸ htree, ?_⟩
    · intro entry hentry
      exact hentries entry (mem_cons_of_mem _ ((listing.perm _).mem_iff.mpr hentry))
    · intro path hpath
      have hpresent := List.find?_eq_none.mp hnone path hpath
      exact (hactual path).mp (by simpa using hpresent)

end Package

end Qcg
