import Qcg.Service.PackageInventory
import Qcg.Library.Encoding

/-!
# The identity of a package directory

The digest of a header, the number of entries and, in the order of their paths, the path, kind
and permission bits of every entry and the bytes of every file. The directory is walked before
and after the files are read; the order in which the system lists it does not matter, and with
a digest that has no collisions the identity determines the directory.
-/

namespace Qcg

open List

namespace Package

open Encoding

structure IdentityEntry where
  relative : String
  isDir : Bool
  mode : Mode
  bytes : Bytes
deriving DecidableEq

def explicitSourceMode (mode : Mode) : Mode :=
  mode &&& 0o777

/-- A length or a sum that has to fit `u64`. -/
def checkedU64 (n : Nat) (what : String) : Except String Unit :=
  if n < 2 ^ 64 then .ok () else .error (what ++ " overflowed")

structure Collected where
  entries : List IdentityEntry := []
  totalBytes : Nat := 0

def collectCount (limits : PackageLimits) (s : Collected) : Except String Unit := do
  checkedU64 (s.entries.length + 1) "package entry count"
  if limits.maxEntries.any (· < s.entries.length + 1) then
    .error ("package source contains too many entries: " ++ toString (s.entries.length + 1) ++
      " > " ++ toString (limits.maxEntries.getD 0))
  else .ok ()

def collectEntry (limits : PackageLimits) (s : Collected) (entry : WalkEntry) :
    Except String Collected :=
  let relative := entry.relative
  if relative = "" then
    if entry.node.isDir then .ok s else .error "package source is not a plain directory"
  else
    match entry.node with
    | .symlink => .error "package source contains a symbolic link"
    | .directory mode => do
      collectCount limits s
      .ok { s with entries := s.entries ++ [⟨relative, true, mode, []⟩] }
    | .file bytes mode => do
      collectCount limits s
      checkedU64 (s.totalBytes + bytes.length) "package source size"
      if limits.maxBytes.any (· < s.totalBytes + bytes.length) then
        .error ("package source exceeds " ++ toString (limits.maxBytes.getD 0) ++ " bytes")
      else
        .ok { entries := s.entries ++ [⟨relative, false, mode, bytes⟩]
              totalBytes := s.totalBytes + bytes.length }

def IdentityEntry.le (l r : IdentityEntry) : Bool :=
  Policy.textLe l.relative r.relative

def IdentityEntry.pathEntry (entry : IdentityEntry) : String × Bool :=
  (entry.relative, entry.isDir)

def sortEntries (entries : List IdentityEntry) : List IdentityEntry :=
  entries.insertionSort fun l r => l.le r = true

def collectIdentityEntries (env : Env) (limits : PackageLimits) (walk : List WalkEntry) :
    Except String (List IdentityEntry) := do
  let s ← walk.foldlM (collectEntry limits) {}
  let entries := sortEntries s.entries
  Policy.validatePathTreeSet env.collisionKey.key (entries.map IdentityEntry.pathEntry)
  .ok entries

/-- What an entry adds to the digest before its bytes. -/
def identityHead (entry : IdentityEntry) : Bytes :=
  leBytes 8 (utf8 entry.relative).length ++ utf8 entry.relative ++
    [if entry.isDir then 1 else 0] ++ leBytes 4 (explicitSourceMode entry.mode).toNat

structure Streamed where
  bytes : Bytes
  totalBytes : Nat := 0

def streamEntry (env : Env) (limits : PackageLimits) (s : Streamed) (entry : IdentityEntry) :
    Except String Streamed := do
  checkedU64 (utf8 entry.relative).length "package path length"
  let head := identityHead entry
  if entry.isDir then .ok { s with bytes := s.bytes ++ head }
  else if !env.host.reads entry.mode then .error "failed to open a package file"
  else do
    checkedU64 (s.totalBytes + entry.bytes.length) "package byte count"
    if entry.bytes ≠ [] ∧ limits.maxBytes.any (· < s.totalBytes + entry.bytes.length) then
      .error ("package source exceeds " ++ toString (limits.maxBytes.getD 0) ++ " bytes")
    else .ok { bytes := s.bytes ++ head ++ leBytes 8 entry.bytes.length ++ entry.bytes
               totalBytes := s.totalBytes + entry.bytes.length }

def identityHeader (count : Nat) : Bytes :=
  utf8 "qcg-package-identity-v1" ++ [0] ++ leBytes 8 count

def identityEntriesMatch (l r : IdentityEntry) : Bool :=
  l.relative = r.relative && l.isDir = r.isDir &&
    explicitSourceMode l.mode = explicitSourceMode r.mode &&
    (l.isDir || l.bytes.length = r.bytes.length)

/-- The identity of a directory with the given entries, under the orders of its two walks. -/
def packageIdentitySha256 (env : Env) (limits : PackageLimits) (first second : Listing)
    (root : Option Node) (entries : List WalkEntry) : Except String String := do
  let walk ← (walkDir env.host first root entries).mapError fun _ => "failed to walk package source"
  let initial ← collectIdentityEntries env limits walk
  let s ← initial.foldlM (streamEntry env limits) { bytes := identityHeader initial.length }
  let walk ← (walkDir env.host second root entries).mapError fun _ =>
    "failed to walk package source"
  let final ← collectIdentityEntries env limits walk
  if initial.length ≠ final.length ∨
      (initial.zip final).any (fun pair => !identityEntriesMatch pair.1 pair.2) then
    .error "package source changed while its identity was computed"
  else .ok (env.sha256 s.bytes)

variable {env : Env} {limits : PackageLimits} {first second : Listing} {n : Nat}

theorem checkedU64_eq_ok {what : String} : checkedU64 n what = .ok () ↔ n < 2 ^ 64 := by
  rw [checkedU64]
  split_ifs with h <;> simp only [h]

def WalkEntry.identityEntry? (entry : WalkEntry) : Option IdentityEntry :=
  if entry.relative = "" then none
  else
    match entry.node with
    | .symlink => none
    | .directory mode => some ⟨entry.relative, true, mode, []⟩
    | .file bytes mode => some ⟨entry.relative, false, mode, bytes⟩

/-- An entry that is collected or is the root. -/
def WalkEntry.Plain (entry : WalkEntry) : Prop :=
  if entry.relative = "" then entry.node.isDir = true else entry.node ≠ .symlink

def totalSize (entries : List IdentityEntry) : Nat :=
  (entries.map (·.bytes.length)).sum

theorem totalSize_append (l r : List IdentityEntry) :
    totalSize (l ++ r) = totalSize l + totalSize r := by
  rw [totalSize, map_append, sum_append, totalSize, totalSize]

/-- Entries within the limits and within what the counters hold. -/
structure Fits (limits : PackageLimits) (entries : List IdentityEntry) : Prop where
  count : entries.length < 2 ^ 64
  total : totalSize entries < 2 ^ 64
  maxEntries : limits.maxEntries.all (entries.length ≤ ·) = true
  maxBytes : limits.maxBytes.all (totalSize entries ≤ ·) = true

theorem all_le_of_le {limit : Option Nat} {m : Nat} (h : m ≤ n) (hn : limit.all (n ≤ ·) = true) :
    limit.all (m ≤ ·) = true := by
  cases limit with
  | none => rfl
  | some bound =>
    simp only [Option.all_some, decide_eq_true_eq] at hn ⊢
    exact h.trans hn

theorem any_lt_eq_false {limit : Option Nat} {n : Nat} :
    limit.any (· < n) = false ↔ limit.all (n ≤ ·) = true := by
  cases limit <;> simp

theorem fits_nil (limits : PackageLimits) : Fits limits [] where
  count := by simp
  total := by simp [totalSize]
  maxEntries := by cases limits.maxEntries <;> simp
  maxBytes := by cases limits.maxBytes <;> simp [totalSize]

variable {l r : List IdentityEntry}

theorem Fits.left (h : Fits limits (l ++ r)) : Fits limits l where
  count := by
    have hcount := h.count
    rw [length_append] at hcount
    omega
  total := by
    have htotal := h.total
    rw [totalSize_append] at htotal
    omega
  maxEntries := all_le_of_le (by simp) h.maxEntries
  maxBytes := all_le_of_le (by rw [totalSize_append]; omega) h.maxBytes

theorem Fits.perm (hperm : l.Perm r) : Fits limits l ↔ Fits limits r := by
  have hlength := hperm.length_eq
  have htotal : totalSize l = totalSize r := (hperm.map _).sum_nat
  constructor
  · intro h
    exact ⟨hlength ▸ h.count, htotal ▸ h.total, hlength ▸ h.maxEntries, htotal ▸ h.maxBytes⟩
  · intro h
    exact ⟨hlength ▸ h.count, htotal ▸ h.total, hlength ▸ h.maxEntries, htotal ▸ h.maxBytes⟩

/-- The accumulator when the given entries have been collected. -/
def Collected.of (entries : List IdentityEntry) : Collected :=
  ⟨entries, totalSize entries⟩

theorem collectCount_eq_ok {entries : List IdentityEntry} :
    collectCount limits (.of entries) = .ok () ↔
      entries.length + 1 < 2 ^ 64 ∧ limits.maxEntries.all (entries.length + 1 ≤ ·) = true := by
  rw [collectCount, Except.unit_bind_eq_ok, checkedU64_eq_ok, ← any_lt_eq_false, Collected.of]
  apply and_congr_right
  intro _
  split_ifs with h
  · simp only [false_iff, Bool.not_eq_false]
    exact h
  · exact iff_of_true rfl (Bool.eq_false_iff.mpr h)

theorem fits_directory {entries : List IdentityEntry} {entry : IdentityEntry}
    (h : Fits limits entries) (hbytes : entry.bytes = []) :
    Fits limits (entries ++ [entry]) ↔
      entries.length + 1 < 2 ^ 64 ∧ limits.maxEntries.all (entries.length + 1 ≤ ·) = true := by
  have hsize : totalSize (entries ++ [entry]) = totalSize entries := by
    simp [totalSize, hbytes]
  have hlength : (entries ++ [entry]).length = entries.length + 1 := by simp
  constructor
  · intro hfits
    exact ⟨hlength ▸ hfits.count, hlength ▸ hfits.maxEntries⟩
  · rintro ⟨hcount, hmax⟩
    exact ⟨hlength ▸ hcount, hsize ▸ h.total, hlength ▸ hmax, hsize ▸ h.maxBytes⟩

theorem fits_file {entries : List IdentityEntry} {entry : IdentityEntry} :
    Fits limits (entries ++ [entry]) ↔
      (entries.length + 1 < 2 ^ 64 ∧ limits.maxEntries.all (entries.length + 1 ≤ ·) = true) ∧
        totalSize entries + entry.bytes.length < 2 ^ 64 ∧
          limits.maxBytes.all (totalSize entries + entry.bytes.length ≤ ·) = true := by
  have hsize : totalSize (entries ++ [entry]) = totalSize entries + entry.bytes.length := by
    simp [totalSize]
  have hlength : (entries ++ [entry]).length = entries.length + 1 := by simp
  constructor
  · intro hfits
    exact ⟨⟨hlength ▸ hfits.count, hlength ▸ hfits.maxEntries⟩, hsize ▸ hfits.total,
      hsize ▸ hfits.maxBytes⟩
  · rintro ⟨⟨hcount, hmax⟩, htotal, hbytes⟩
    exact ⟨hlength ▸ hcount, hsize ▸ htotal, hlength ▸ hmax, hsize ▸ hbytes⟩

theorem collectEntry_eq_ok {entries : List IdentityEntry} {entry : WalkEntry} {s : Collected}
    (h : Fits limits entries) :
    collectEntry limits (.of entries) entry = .ok s ↔
      entry.Plain ∧ Fits limits (entries ++ entry.identityEntry?.toList) ∧
        s = .of (entries ++ entry.identityEntry?.toList) := by
  rw [collectEntry, WalkEntry.Plain, WalkEntry.identityEntry?]
  by_cases hroot : entry.relative = ""
  · by_cases hdir : entry.node.isDir = true
    · simp [hroot, hdir, h, eq_comm]
    · simp [hroot, hdir]
  · simp only [hroot, if_false]
    cases hnode : entry.node with
    | symlink => simp
    | directory mode =>
      simp only [Except.unit_bind_eq_ok, collectCount_eq_ok, Option.toList_some, ne_eq,
        reduceCtorEq, not_false_eq_true, true_and, Except.ok.injEq]
      rw [fits_directory h rfl, @eq_comm _ s]
      simp [Collected.of, totalSize]
    | file bytes mode =>
      simp only [Except.unit_bind_eq_ok, collectCount_eq_ok, checkedU64_eq_ok, Option.toList_some,
        ne_eq, reduceCtorEq, not_false_eq_true, true_and]
      rw [fits_file, ← @any_lt_eq_false limits.maxBytes]
      simp only [and_assoc]
      apply and_congr_right
      intro _
      apply and_congr_right
      intro _
      apply and_congr_right
      intro _
      have hof : Collected.of (entries ++ [⟨entry.relative, false, mode, bytes⟩]) =
          ⟨entries ++ [⟨entry.relative, false, mode, bytes⟩],
            totalSize entries + bytes.length⟩ := by
        simp [Collected.of, totalSize]
      rw [hof, show (Collected.of entries).totalBytes = totalSize entries from rfl]
      cases hbytes : limits.maxBytes.any (· < totalSize entries + bytes.length) with
      | true => simp
      | false => simp [Collected.of, @eq_comm _ s]

theorem collect_eq_ok {entries : List IdentityEntry} {walk : List WalkEntry} {s : Collected}
    (h : Fits limits entries) :
    walk.foldlM (collectEntry limits) (.of entries) = .ok s ↔
      (∀ entry ∈ walk, entry.Plain) ∧
        Fits limits (entries ++ walk.filterMap WalkEntry.identityEntry?) ∧
          s = .of (entries ++ walk.filterMap WalkEntry.identityEntry?) := by
  induction walk generalizing entries with
  | nil =>
    rw [Except.foldlM_nil, Except.ok.injEq, eq_comm]
    simp [h]
  | cons entry walk ih =>
    have hcollected : entries ++ (entry :: walk).filterMap WalkEntry.identityEntry? =
        (entries ++ entry.identityEntry?.toList) ++ walk.filterMap WalkEntry.identityEntry? := by
      rw [append_assoc]
      cases hentry : entry.identityEntry? <;> simp [hentry]
    rw [Except.foldlM_cons_eq_ok, forall_mem_cons, hcollected]
    constructor
    · rintro ⟨s', hstep, hrest⟩
      obtain ⟨hplain, hfits, rfl⟩ := (collectEntry_eq_ok h).mp hstep
      obtain ⟨hwalk, hall, hs⟩ := (ih hfits).mp hrest
      exact ⟨⟨hplain, hwalk⟩, hall, hs⟩
    · rintro ⟨⟨hplain, hwalk⟩, hall, hs⟩
      refine ⟨_, (collectEntry_eq_ok h).mpr ⟨hplain, hall.left, rfl⟩, ?_⟩
      exact (ih hall.left).mpr ⟨hwalk, hall, hs⟩

theorem perm_sortEntries (entries : List IdentityEntry) : (sortEntries entries).Perm entries :=
  perm_insertionSort _ _

instance : Std.Total fun l r : IdentityEntry => l.le r = true :=
  ⟨fun _ _ => Policy.linear_textLe.total _ _⟩

instance : IsTrans IdentityEntry fun l r => l.le r = true :=
  ⟨fun _ _ _ => Policy.linear_textLe.trans _ _ _⟩

theorem pairwise_sortEntries (entries : List IdentityEntry) :
    (sortEntries entries).Pairwise fun l r => l.le r = true :=
  pairwise_insertionSort _ _

theorem sortEntries_perm (hperm : l.Perm r) (hnodup : (l.map IdentityEntry.relative).Nodup) :
    sortEntries l = sortEntries r := by
  have hsame : (sortEntries l).Perm (sortEntries r) :=
    (perm_sortEntries l).trans (hperm.trans (perm_sortEntries r).symm)
  refine hsame.eq_of_pairwise ?_ (pairwise_sortEntries l) (pairwise_sortEntries r)
  intro a b ha hb hab hba
  have hrelative : a.relative = b.relative := Policy.linear_textLe.antisymm _ _ hab hba
  have hmem : a ∈ l := (perm_sortEntries l).mem_iff.mp ha
  have hmem' : b ∈ l := hperm.mem_iff.mpr ((perm_sortEntries r).mem_iff.mp hb)
  exact inj_on_of_nodup_map hnodup hmem hmem' hrelative

def IdentityEntry.chunk (entry : IdentityEntry) : Bytes :=
  identityHead entry ++
    if entry.isDir then [] else leBytes 8 entry.bytes.length ++ entry.bytes

def identityBytes (entries : List IdentityEntry) : Bytes :=
  identityHeader entries.length ++ entries.flatMap IdentityEntry.chunk

structure Streams (env : Env) (entry : IdentityEntry) : Prop where
  path : (utf8 entry.relative).length < 2 ^ 64
  reads : entry.isDir = true ∨ env.host.reads entry.mode = true
  directory : entry.isDir = true → entry.bytes = []

theorem streamEntry_eq_ok {s s' : Streamed} {entry : IdentityEntry}
    (hdirectory : entry.isDir = true → entry.bytes = [])
    (htotal : s.totalBytes + entry.bytes.length < 2 ^ 64)
    (hmax : limits.maxBytes.all (s.totalBytes + entry.bytes.length ≤ ·) = true) :
    streamEntry env limits s entry = .ok s' ↔
      Streams env entry ∧
        s' = ⟨s.bytes ++ entry.chunk, s.totalBytes + entry.bytes.length⟩ := by
  have hstreams : Streams env entry ↔ (utf8 entry.relative).length < 2 ^ 64 ∧
      (entry.isDir = true ∨ env.host.reads entry.mode = true) :=
    ⟨fun h => ⟨h.path, h.reads⟩, fun h => ⟨h.1, h.2, hdirectory⟩⟩
  rw [streamEntry, Except.unit_bind_eq_ok, checkedU64_eq_ok, hstreams, and_assoc]
  apply and_congr_right
  intro _
  have hchecked : checkedU64 (s.totalBytes + entry.bytes.length) "package byte count" = .ok () :=
    checkedU64_eq_ok.mpr htotal
  cases hdir : entry.isDir with
  | true =>
    have hchunk : entry.chunk = identityHead entry := by simp [IdentityEntry.chunk, hdir]
    simp [hchunk, hdirectory hdir, @eq_comm _ s']
  | false =>
    cases hreads : env.host.reads entry.mode with
    | false => simp
    | true =>
      have hchunk : entry.chunk =
          identityHead entry ++ (leBytes 8 entry.bytes.length ++ entry.bytes) := by
        simp [IdentityEntry.chunk, hdir]
      simp only [Bool.false_eq_true, if_false, Bool.not_true, Except.unit_bind_eq_ok, hchecked,
        any_lt_eq_false.mpr hmax, and_false, or_true, true_and, Except.ok.injEq,
        hchunk, append_assoc, @eq_comm _ s']

theorem stream_eq_ok {s s' : Streamed} {entries : List IdentityEntry}
    (hdirectory : ∀ entry ∈ entries, entry.isDir = true → entry.bytes = [])
    (htotal : s.totalBytes + totalSize entries < 2 ^ 64)
    (hmax : limits.maxBytes.all (s.totalBytes + totalSize entries ≤ ·) = true) :
    entries.foldlM (streamEntry env limits) s = .ok s' ↔
      (∀ entry ∈ entries, Streams env entry) ∧
        s' = ⟨s.bytes ++ entries.flatMap IdentityEntry.chunk,
          s.totalBytes + totalSize entries⟩ := by
  induction entries generalizing s with
  | nil =>
    rw [Except.foldlM_nil, Except.ok.injEq, eq_comm]
    simp [totalSize]
  | cons entry entries ih =>
    have hsize : totalSize (entry :: entries) = entry.bytes.length + totalSize entries := by
      simp [totalSize]
    rw [hsize] at htotal hmax
    rw [forall_mem_cons] at hdirectory
    have hstep := @streamEntry_eq_ok env limits s
    rw [Except.foldlM_cons_eq_ok, forall_mem_cons, hsize, flatMap_cons]
    have hnext : ∀ bytes : Bytes, entries.foldlM (streamEntry env limits)
        ⟨bytes, s.totalBytes + entry.bytes.length⟩ = .ok s' ↔
        (∀ entry ∈ entries, Streams env entry) ∧
          s' = ⟨bytes ++ entries.flatMap IdentityEntry.chunk,
            s.totalBytes + entry.bytes.length + totalSize entries⟩ := by
      intro bytes
      apply ih hdirectory.2
      · show s.totalBytes + entry.bytes.length + totalSize entries < 2 ^ 64
        omega
      · rw [← Nat.add_assoc] at hmax
        exact hmax
    have hfirst : ∀ next, streamEntry env limits s entry = .ok next ↔ Streams env entry ∧
        next = ⟨s.bytes ++ entry.chunk, s.totalBytes + entry.bytes.length⟩ := by
      intro next
      exact hstep hdirectory.1 (by omega) (all_le_of_le (by omega) hmax)
    simp only [hfirst, and_assoc, exists_and_left, exists_eq_left, hnext, append_assoc,
      Nat.add_assoc]

/-- An entry that can be read back from what it adds to the digest. -/
structure IdentityEntry.Regular (entry : IdentityEntry) : Prop where
  path : (utf8 entry.relative).length < 2 ^ 64
  mode : explicitSourceMode entry.mode = entry.mode
  size : entry.bytes.length < 2 ^ 64
  directory : entry.isDir = true → entry.bytes = []

theorem delimited_chunk : Delimited IdentityEntry.Regular IdentityEntry.chunk := by
  intro a b r s ha hb heq
  simp only [IdentityEntry.chunk, identityHead, ha.mode, hb.mode, append_assoc] at heq
  -- the path with its length, the kind and the mode are read in turn
  obtain ⟨hpath, htail⟩ := delimited_counted 8 ha.path hb.path (by simpa using heq)
  simp only [List.cons.injEq] at htail
  have hrelative : a.relative = b.relative := utf8_injective hpath
  have hdir : a.isDir = b.isDir := by
    cases hl : a.isDir <;> cases hr : b.isDir <;> simp_all
  obtain ⟨hmodes, hcontent⟩ :=
    delimited_leBytes 4 a.mode.isLt b.mode.isLt htail.2
  have hmode : a.mode = b.mode := BitVec.eq_of_toNat_eq hmodes
  rw [← hdir] at hcontent
  cases hkind : a.isDir with
  | true =>
    have hbytes : a.bytes = b.bytes := by
      rw [ha.directory hkind, hb.directory (hdir ▸ hkind)]
    rw [hkind] at hcontent
    refine ⟨?_, by simpa using hcontent⟩
    cases a
    cases b
    simp_all
  | false =>
    simp only [hkind, Bool.false_eq_true, if_false] at hcontent
    obtain ⟨hbytes, hrest⟩ := delimited_counted 8 ha.size hb.size hcontent
    refine ⟨?_, hrest⟩
    cases a
    cases b
    simp_all

theorem identityBytes_inj (hl : ∀ entry ∈ l, entry.Regular) (hr : ∀ entry ∈ r, entry.Regular)
    (hcount : l.length < 2 ^ 64) (hcount' : r.length < 2 ^ 64)
    (heq : identityBytes l = identityBytes r) : l = r := by
  simp only [identityBytes, identityHeader, append_assoc, append_cancel_left_eq] at heq
  obtain ⟨hlength, hchunks⟩ := delimited_leBytes 8 hcount hcount' heq
  have hchunks : l.flatMap IdentityEntry.chunk ++ [] = r.flatMap IdentityEntry.chunk ++ [] := by
    rw [hchunks]
  exact (delimited_chunk.flatMap hl hr hlength hchunks).1

def Node.NineBits : Node → Prop
  | .file _ mode | .directory mode => explicitSourceMode mode = mode
  | .symlink => True

instance (node : Node) : Decidable node.NineBits :=
  match node with
  | .file _ mode | .directory mode => inferInstanceAs (Decidable (explicitSourceMode mode = mode))
  | .symlink => isTrue trivial

/-- A directory of a disk below which names are nonempty and without slashes, and modes have
nine bits. -/
structure Source where
  disk : Disk
  root : Location
  names : ∀ path node, disk.at (root ++ path) = some node →
    ∀ name ∈ path, name ≠ "" ∧ '/' ∉ name.toList
  modes : ∀ path node, path ≠ [] → disk.at (root ++ path) = some node → node.NineBits

namespace Source

def node (source : Source) (path : List String) : Option Node :=
  source.disk.at (source.root ++ path)

def entries (source : Source) : List WalkEntry :=
  source.disk.entries source.root

def identity (source : Source) (env : Env) (limits : PackageLimits) (first second : Listing) :
    Except String String :=
  packageIdentitySha256 env limits first second (source.node []) source.entries

def collected (source : Source) : List IdentityEntry :=
  source.entries.filterMap WalkEntry.identityEntry?

/-- The same relative paths, with the same kinds, modes and bytes. -/
def Same (source source' : Source) : Prop :=
  ∀ path, path ≠ [] → source.node path = source'.node path

variable {source source' : Source}

variable {entry : WalkEntry}

theorem mem_entries :
    entry ∈ source.entries ↔ entry.path ≠ [] ∧ source.node entry.path = some entry.node :=
  Package.mem_entries

theorem nodup (source : Source) : source.entries.Nodup :=
  List.Nodup.of_map _ nodup_entries

section

variable (h : entry ∈ source.entries)

include h

theorem parts_relative :
    Policy.parts entry.relative = entry.path := by
  obtain ⟨hne, hnode⟩ := mem_entries.mp h
  exact Policy.parts_portableRelativePath hne fun name hname =>
    (source.names _ _ hnode name hname).2

theorem relative_ne_empty :
    entry.relative ≠ "" := by
  intro hempty
  have hparts := parts_relative h
  rw [hempty, show Policy.parts "" = [""] from rfl] at hparts
  have hname : "" ∈ entry.path := by simp [← hparts]
  exact (source.names _ _ (mem_entries.mp h).2 "" hname).1 rfl

theorem plain_iff :
    entry.Plain ↔ entry.node ≠ .symlink := by
  rw [WalkEntry.Plain, if_neg (relative_ne_empty h)]

end

variable {collected : IdentityEntry}

theorem relative_identityEntry? (h : entry.identityEntry? = some collected) :
    collected.relative = entry.relative := by
  rw [WalkEntry.identityEntry?] at h
  split_ifs at h
  split at h <;> cases h <;> rfl

theorem mem_collected :
    collected ∈ source.collected ↔
      ∃ entry ∈ source.entries, entry.identityEntry? = some collected :=
  mem_filterMap

theorem nodup_relative : (source.collected.map IdentityEntry.relative).Nodup := by
  have hpaths : source.collected.Pairwise fun l r => l.relative ≠ r.relative := by
    apply pairwise_filterMap.mpr
    have hnodup : source.entries.Pairwise fun l r => l.path ≠ r.path :=
      pairwise_map.mp nodup_entries
    apply hnodup.imp_of_mem
    intro l r hl hr hne a ha b hb heq
    apply hne
    rw [← parts_relative hl, ← parts_relative hr, ← relative_identityEntry? ha,
      ← relative_identityEntry? hb, heq]
  exact pairwise_map.mpr hpaths

theorem directory_bytes (h : collected ∈ source.collected) (hdir : collected.isDir = true) :
    collected.bytes = [] := by
  obtain ⟨entry, _, hentry⟩ := mem_collected.mp h
  rw [WalkEntry.identityEntry?] at hentry
  split_ifs at hentry
  split at hentry
  · cases hentry
  · cases hentry
    rfl
  · cases hentry
    cases hdir

/-- Everything that the computation of an identity asks of a source. -/
structure Identified (env : Env) (limits : PackageLimits) (source : Source) : Prop where
  root : ∃ mode, source.node [] = some (.directory mode) ∧ env.host.enters mode = true
  opened : ∀ entry ∈ source.entries, entry.closed env.host = false
  plain : ∀ entry ∈ source.entries, entry.node ≠ .symlink
  fits : Fits limits source.collected
  tree : Policy.validatePathTreeSet env.collisionKey.key
    (source.collected.map IdentityEntry.pathEntry) = .ok ()
  streams : ∀ entry ∈ source.collected, Streams env entry

theorem collectIdentityEntries_eq_ok {env : Env} {limits : PackageLimits} {listing : Listing}
    {mode : Mode} {entries : List IdentityEntry} :
    collectIdentityEntries env limits (⟨[], .directory mode⟩ :: listing.order source.entries) =
        .ok entries ↔
      (∀ entry ∈ source.entries, entry.node ≠ .symlink) ∧ Fits limits source.collected ∧
        Policy.validatePathTreeSet env.collisionKey.key
          (source.collected.map IdentityEntry.pathEntry) = .ok () ∧
        entries = sortEntries source.collected := by
  have hperm : (listing.order source.entries).Perm source.entries := listing.perm _
  have hroot : (⟨[], .directory mode⟩ : WalkEntry).relative = "" := rfl
  have hcollected : ((⟨[], .directory mode⟩ :: listing.order source.entries).filterMap
      WalkEntry.identityEntry?).Perm source.collected := by
    rw [filterMap_cons_none (by rw [WalkEntry.identityEntry?, if_pos hroot])]
    exact hperm.filterMap _
  have hplain : (∀ entry ∈ (⟨[], .directory mode⟩ : WalkEntry) :: listing.order source.entries,
      entry.Plain) ↔ ∀ entry ∈ source.entries, entry.node ≠ .symlink := by
    rw [forall_mem_cons]
    simp only [WalkEntry.Plain, hroot, if_true, hperm.mem_iff]
    constructor
    · intro h entry hentry
      exact (plain_iff hentry).mp (h.2 entry hentry)
    · intro h
      exact ⟨rfl, fun entry hentry => (plain_iff hentry).mpr (h entry hentry)⟩
  have hsorted := sortEntries_perm hcollected.symm nodup_relative
  have htree : Policy.validatePathTreeSet env.collisionKey.key
      ((sortEntries source.collected).map IdentityEntry.pathEntry) = .ok () ↔
      Policy.validatePathTreeSet env.collisionKey.key
        (source.collected.map IdentityEntry.pathEntry) = .ok () :=
    iff_of_eq (by rw [Policy.validatePathTreeSet_perm ((perm_sortEntries _).map _)])
  have hstart := fun s => @collect_eq_ok limits []
    (⟨[], .directory mode⟩ :: listing.order source.entries) s (fits_nil limits)
  simp only [nil_append, hplain, Fits.perm hcollected] at hstart
  simp only [collectIdentityEntries, Except.bind_eq_ok]
  constructor
  · rintro ⟨s, hs, ⟨⟩, hvalid, hentries⟩
    obtain ⟨hnodes, hfits, rfl⟩ := (hstart s).mp hs
    simp only [Collected.of, ← hsorted, Except.ok.injEq] at hvalid hentries
    exact ⟨hnodes, hfits, htree.mp hvalid, hentries.symm⟩
  · rintro ⟨hnodes, hfits, hvalid, rfl⟩
    refine ⟨_, (hstart _).mpr ⟨hnodes, hfits, rfl⟩, (), ?_⟩
    simp only [Collected.of, ← hsorted]
    exact ⟨htree.mpr hvalid, trivial⟩

theorem entriesMatch_refl (entry : IdentityEntry) : identityEntriesMatch entry entry = true := by
  simp [identityEntriesMatch]

theorem zip_self_match (entries : List IdentityEntry) :
    ((entries.zip entries).any fun pair => !identityEntriesMatch pair.1 pair.2) = false := by
  induction entries with
  | nil => rfl
  | cons entry entries ih => simp [entriesMatch_refl, ih]

theorem identity_eq_ok {id : String} :
    source.identity env limits first second = .ok id ↔
      Identified env limits source ∧
        id = env.sha256 (identityBytes (sortEntries source.collected)) := by
  have hperm := perm_sortEntries source.collected
  have hstream : Fits limits source.collected → ∀ bytes s, (sortEntries source.collected).foldlM
      (streamEntry env limits) { bytes } = .ok s ↔ (∀ entry ∈ source.collected, Streams env entry) ∧
        s = ⟨bytes ++ (sortEntries source.collected).flatMap IdentityEntry.chunk,
          0 + totalSize (sortEntries source.collected)⟩ := by
    intro hfits bytes s
    have hsorted := (Fits.perm hperm).mpr hfits
    have htotal : 0 + totalSize (sortEntries source.collected) < 2 ^ 64 := by
      rw [Nat.zero_add]
      exact hsorted.total
    have hmax : limits.maxBytes.all (0 + totalSize (sortEntries source.collected) ≤ ·) = true := by
      rw [Nat.zero_add]
      exact hsorted.maxBytes
    rw [stream_eq_ok (fun entry hentry => directory_bytes (hperm.mem_iff.mp hentry)) htotal hmax]
    simp only [hperm.mem_iff]
  simp only [identity, packageIdentitySha256, Except.bind_eq_ok, Except.mapError_eq_ok]
  constructor
  · rintro ⟨walk, hwalk, initial, hinitial, s, hs, walk', hwalk', final, hfinal, hid⟩
    cases hroot : source.node [] with
    | none =>
      rw [hroot] at hwalk
      cases hwalk
    | some node =>
      rw [hroot] at hwalk hwalk'
      cases node with
      | directory mode =>
        obtain ⟨henters, hopened, rfl⟩ := walkDir_eq_ok.mp hwalk
        obtain ⟨-, -, rfl⟩ := walkDir_eq_ok.mp hwalk'
        obtain ⟨hplain, hfits, htree, rfl⟩ := collectIdentityEntries_eq_ok.mp hinitial
        obtain ⟨-, -, -, rfl⟩ := collectIdentityEntries_eq_ok.mp hfinal
        obtain ⟨hstreams, rfl⟩ := (hstream hfits _ s).mp hs
        split_ifs at hid
        cases hid
        exact ⟨⟨⟨mode, hroot, henters⟩, hopened, hplain, hfits, htree, hstreams⟩, rfl⟩
      | file bytes mode =>
        cases hwalk
        cases hinitial
      | symlink =>
        cases hwalk
        cases hinitial
  · rintro ⟨h, rfl⟩
    obtain ⟨mode, hroot, henters⟩ := h.root
    have hwalk := fun listing : Listing => (@walkDir_eq_ok listing env.host mode source.entries
      (⟨[], .directory mode⟩ :: listing.order source.entries)).mpr ⟨henters, h.opened, rfl⟩
    have hcollect := fun listing : Listing => (@collectIdentityEntries_eq_ok source env limits
      listing mode _).mpr ⟨h.plain, h.fits, h.tree, rfl⟩
    rw [hroot]
    refine ⟨_, hwalk first, _, hcollect first, _, (hstream h.fits _ _).mpr ⟨h.streams, rfl⟩, _,
      hwalk second, _, hcollect second, ?_⟩
    rw [if_neg]
    · rfl
    · simp [zip_self_match]

theorem Identified.regular (h : Identified env limits source)
    (hmem : collected ∈ source.collected) : collected.Regular where
  path := (h.streams collected hmem).path
  mode := by
    obtain ⟨entry, hentry, hcollected⟩ := mem_collected.mp hmem
    obtain ⟨hne, hnode⟩ := mem_entries.mp hentry
    have hbits := source.modes _ _ hne hnode
    rw [WalkEntry.identityEntry?] at hcollected
    split_ifs at hcollected
    split at hcollected
    · cases hcollected
    · next mode hdirectory =>
      rw [hdirectory] at hbits
      cases hcollected
      exact hbits
    · next bytes mode hfile =>
      rw [hfile] at hbits
      cases hcollected
      exact hbits
  size := by
    obtain ⟨front, back, hsplit⟩ := append_of_mem hmem
    have htotal := h.fits.total
    rw [hsplit, totalSize_append, totalSize, totalSize, map_cons, sum_cons] at htotal
    omega
  directory := directory_bytes hmem

theorem eq_of_identityEntry? {l r : WalkEntry} (hl : l ∈ source.entries) (hr : r ∈ source'.entries)
    (hl' : l.identityEntry? = some collected) (hr' : r.identityEntry? = some collected) :
    l = r := by
  have hrelative : l.relative = r.relative := by
    rw [← relative_identityEntry? hl', ← relative_identityEntry? hr']
  have hpath : l.path = r.path := by
    rw [← parts_relative hl, ← parts_relative hr, hrelative]
  have hnode : l.node = r.node := by
    rw [WalkEntry.identityEntry?, if_neg (relative_ne_empty hl)] at hl'
    rw [WalkEntry.identityEntry?, if_neg (relative_ne_empty hr)] at hr'
    cases hln : l.node <;> cases hrn : r.node <;> simp_all <;> grind
  cases l
  cases r
  simp_all

theorem exists_collected (hentry : entry ∈ source.entries) (hplain : entry.node ≠ .symlink) :
    ∃ collected, entry.identityEntry? = some collected := by
  rw [WalkEntry.identityEntry?, if_neg (relative_ne_empty hentry)]
  cases hnode : entry.node with
  | symlink => exact absurd hnode hplain
  | directory mode => exact ⟨_, rfl⟩
  | file bytes mode => exact ⟨_, rfl⟩

theorem node_of_collected (h : Identified env limits source)
    (hsub : ∀ collected ∈ source.collected, collected ∈ source'.collected) {path : List String}
    {node : Node} (hne : path ≠ []) (hnode : source.node path = some node) :
    source'.node path = some node := by
  have hentry : (⟨path, node⟩ : WalkEntry) ∈ source.entries := mem_entries.mpr ⟨hne, hnode⟩
  obtain ⟨collected, hcollected⟩ := exists_collected hentry (h.plain _ hentry)
  have hmem : collected ∈ source.collected := mem_collected.mpr ⟨_, hentry, hcollected⟩
  obtain ⟨entry, hentry', hcollected'⟩ := mem_collected.mp (hsub collected hmem)
  obtain rfl := eq_of_identityEntry? hentry hentry' hcollected hcollected'
  exact (mem_entries.mp hentry').2

theorem same_of_collected {env' : Env} {limits' : PackageLimits} (h : Identified env limits source)
    (h' : Identified env' limits' source')
    (heq : sortEntries source.collected = sortEntries source'.collected) : source.Same source' := by
  have hmem : ∀ collected, collected ∈ source.collected ↔ collected ∈ source'.collected := by
    intro collected
    rw [← (perm_sortEntries source.collected).mem_iff, heq,
      (perm_sortEntries source'.collected).mem_iff]
  intro path hne
  apply Option.ext
  intro node
  constructor
  · exact node_of_collected h (fun collected => (hmem collected).mp) hne
  · exact node_of_collected h' (fun collected => (hmem collected).mpr) hne

theorem entries_perm (h : source.Same source') : source.entries.Perm source'.entries := by
  apply (perm_ext_iff_of_nodup source.nodup source'.nodup).mpr
  intro entry
  rw [mem_entries, mem_entries]
  apply and_congr_right
  intro hne
  rw [h entry.path hne]

theorem sortEntries_of_same (h : source.Same source') :
    sortEntries source.collected = sortEntries source'.collected :=
  sortEntries_perm ((entries_perm h).filterMap _) nodup_relative

/-- With a digest that has no collisions, two sources that have identities have the same one
exactly when they hold the same entries. -/
theorem identity_eq_iff_same {env env' : Env} {limits limits' : PackageLimits}
    {first second first' second' : Listing} {id id' : String}
    (hsha : env'.sha256 = env.sha256) (hcollision : Function.Injective env.sha256)
    (hid : source.identity env limits first second = .ok id)
    (hid' : source'.identity env' limits' first' second' = .ok id') :
    id = id' ↔ source.Same source' := by
  obtain ⟨h, rfl⟩ := identity_eq_ok.mp hid
  obtain ⟨h', rfl⟩ := identity_eq_ok.mp hid'
  rw [hsha]
  constructor
  · intro heq
    apply same_of_collected h h'
    have hperm := perm_sortEntries source.collected
    have hperm' := perm_sortEntries source'.collected
    apply identityBytes_inj
    · exact fun entry hentry => h.regular (hperm.mem_iff.mp hentry)
    · exact fun entry hentry => h'.regular (hperm'.mem_iff.mp hentry)
    · exact hperm.length_eq ▸ h.fits.count
    · exact hperm'.length_eq ▸ h'.fits.count
    · exact hcollision heq
  · intro hsame
    rw [sortEntries_of_same hsame]

def ofEntries (disk : Disk) (root : Location)
    (h : ∀ entry ∈ disk.entries root,
      (∀ name ∈ entry.path, name ≠ "" ∧ '/' ∉ name.toList) ∧ entry.node.NineBits) : Source where
  disk := disk
  root := root
  names path node hnode name hname :=
    (h ⟨path, node⟩ (Package.mem_entries.mpr ⟨List.ne_nil_of_mem hname, hnode⟩)).1 name hname
  modes path node hne hnode := (h ⟨path, node⟩ (Package.mem_entries.mpr ⟨hne, hnode⟩)).2

end Source

def spelledEnv : Env where
  host := ownerHost
  collisionKey := ⟨id, fun _ _ => (List.map_id _).symm⟩
  sha256 := spelled
  fromSlice _ := .error "expected value"

def asFound : Listing := ⟨id, fun _ => .refl _⟩

def backwards : Listing := ⟨List.reverse, List.reverse_perm⟩

def filesOf (entries : List (Location × Node)) : Files :=
  entries.foldl (fun files entry => files.insert entry.1 entry.2) ∅

def twoFiles : Source :=
  .ofEntries ⟨filesOf [(["p"], .directory 0o755), (["p", "b"], .directory 0o750),
      (["p", "b", "x"], .file [1, 2] 0o644), (["p", "a"], .file [] 0o600)], []⟩ ["p"]
    (by decide +kernel)

/-- The same files elsewhere, found in another order. -/
def movedFiles : Source :=
  .ofEntries ⟨filesOf [(["q", "a"], .file [] 0o600), (["q", "b", "x"], .file [1, 2] 0o644),
      (["q"], .directory 0o700), (["q", "b"], .directory 0o750)], []⟩ ["q"]
    (by decide +kernel)

theorem identity_eq_iff_same_moved :
    ∃ id, twoFiles.identity spelledEnv .default asFound backwards = .ok id ∧
      movedFiles.identity spelledEnv ⟨none, some 2, none⟩ backwards asFound = .ok id ∧
        twoFiles.Same movedFiles := by
  have hid := Except.eq_ok_get (twoFiles.identity spelledEnv .default asFound backwards)
    (by decide +kernel)
  have hid' : movedFiles.identity spelledEnv ⟨none, some 2, none⟩ backwards asFound =
      twoFiles.identity spelledEnv .default asFound backwards := by
    decide +kernel
  have hsame := Source.identity_eq_iff_same rfl spelled_injective hid (hid'.trans hid)
  exact ⟨_, hid, hid'.trans hid, hsame.mp rfl⟩

end Package

end Qcg
