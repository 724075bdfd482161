import Qcg.Engine.ResumeFiles
import Mathlib.Data.List.Nodup

/-!
# What the verification of pinned files asks for

Verification passes when every tracked path is safe and reached without links, every pinned
blob can be read, the workspace holds at each path what the journal says last, and there is
room for the current files within the limits.
-/

namespace Qcg

open List

namespace Resume

variable {paths : List String}

section Tracked

variable {s : RunState} {path : String}

theorem subset_addPath_foldl (paths start : List String) : start ⊆ paths.foldl addPath start := by
  induction paths generalizing start with
  | nil => exact List.Subset.refl _
  | cons first rest ih =>
    have hfirst : start ⊆ addPath start first := by
      unfold addPath
      split_ifs
      · exact List.Subset.refl _
      · exact subset_append_left _ _
    exact List.Subset.trans hfirst (ih _)

theorem exists_samePath_addPath_foldl {paths start : List String} (h : path ∈ paths) :
    ∃ kept ∈ paths.foldl addPath start, samePath path kept = true := by
  induction paths generalizing start with
  | nil => cases h
  | cons first rest ih =>
    rcases mem_cons.mp h with rfl | h
    · have hkept : ∃ kept ∈ addPath start path, samePath path kept = true := by
        unfold addPath
        split_ifs with hany
        · exact any_eq_true.mp hany
        · exact ⟨path, by simp, by simp [samePath]⟩
      obtain ⟨kept, hmem, hsame⟩ := hkept
      exact ⟨kept, subset_addPath_foldl rest _ hmem, hsame⟩
    · exact ih h

theorem nodup_addPath_foldl {start : List String} (h : start.Nodup) :
    (paths.foldl addPath start).Nodup := by
  induction paths generalizing start with
  | nil => exact h
  | cons first rest ih =>
    apply ih
    unfold addPath
    split_ifs with hany
    · exact h
    · have hnew : first ∉ start := by
        intro hmem
        exact hany (any_eq_true.mpr ⟨first, hmem, by simp [samePath]⟩)
      simpa using h.concat hnew

theorem nodup_trackedPaths (s : RunState) : (trackedPaths s).Nodup :=
  nodup_addPath_foldl nodup_nil

theorem pathComponents_of_safe (h : Policy.isSafeRelativePath path = true) :
    pathComponents path = Policy.parts path := by
  have hparts : ∀ part ∈ Policy.parts path, part ≠ "" ∧ part ≠ "." :=
    fun part hpart => Policy.ne_of_mem_parts_of_safe h hpart
  unfold pathComponents
  split
  · rename_i hnil
    exact hnil.symm
  · rename_i hempty
    rw [hempty] at hparts
    exact absurd rfl (hparts "" mem_cons_self).1
  · rename_i first rest _ hcons
    rw [hcons] at hparts ⊢
    rw [if_neg (hparts first mem_cons_self).1, filter_eq_self.mpr]
    intro part hpart
    simp [hparts part (mem_cons_of_mem _ hpart)]

theorem eq_of_samePath {p q : String} (hp : Policy.isSafeRelativePath p = true)
    (hq : Policy.isSafeRelativePath q = true) (h : samePath p q = true) : p = q := by
  rw [samePath, decide_eq_true_eq, pathComponents_of_safe hp, pathComponents_of_safe hq] at h
  exact Policy.parts_injective h

theorem tracked_of_mentioned
    (hsafe : ∀ path ∈ trackedPaths s, Policy.isSafeRelativePath path = true)
    (hpath : Policy.isSafeRelativePath path = true) (h : path ∈ mentioned s) :
    path ∈ trackedPaths s := by
  obtain ⟨kept, hkept, hsame⟩ := @exists_samePath_addPath_foldl path (mentioned s) [] h
  rw [eq_of_samePath hpath (hsafe kept hkept) hsame]
  exact hkept

theorem mem_mentioned : path ∈ mentioned s ↔
    (∃ pin ∈ successfulPins s, pin.path = path) ∨ path ∈ s.historicalFilePins ∨
      path ∈ s.removedFiles ∨ path ∈ s.latestFilePins := by
  simp [mentioned]

end Tracked

section Verification

variable {s : RunState} {env : Env} {ws : Workspace} {path digest : String} {n : Nat}

def Env.Fits (env : Env) (n : Nat) : Prop :=
  env.limits.outputFileLimitBytes.any (· < n) = false

theorem hashFile_eq_ok {node : Option FileNode} {found : FileDigest} :
    hashFile env node = .ok found ↔ ∃ bytes, node = some (.file bytes) ∧ env.Fits bytes.length ∧
      found = { sha256 := env.sha.digest bytes, bytes := bytes.length } := by
  unfold hashFile
  split
  · simp
  · rename_i bytes
    unfold Env.Fits
    split_ifs with hlimit
    · simp [hlimit]
    · rw [Bool.not_eq_true] at hlimit
      constructor
      · intro h
        exact ⟨bytes, rfl, hlimit, (Except.ok.inj h).symm⟩
      · rintro ⟨_, hbytes, -, rfl⟩
        cases hbytes
        rfl
  · simp
  · simp

theorem hashFile_eq_notFound {node : Option FileNode} :
    hashFile env node = .error .notFound ↔ node = none := by
  unfold hashFile
  split
  · simp
  · split_ifs <;> simp
  · simp
  · simp

/-- A blob that is there, has its digest and keeps the limit. -/
def Env.BlobReadable (env : Env) (digest : String) : Prop :=
  ∃ bytes, env.blobs[digest]? = some (.file bytes) ∧ env.Fits bytes.length ∧
    env.sha.digest bytes = digest

theorem verifyPinnedBlob_eq_ok :
    verifyPinnedBlob env path digest = .ok () ↔ env.BlobReadable digest := by
  unfold verifyPinnedBlob
  constructor
  · intro h
    split_ifs at h with hshape hlink
    · cases h
    · cases h
    · cases hhash : hashFile env env.blobs[digest]? with
      | error error => cases error <;> rw [hhash] at h <;> cases h
      | ok found =>
        simp only [hhash] at h
        obtain ⟨bytes, hblob, hfits, rfl⟩ := hashFile_eq_ok.mp hhash
        split_ifs at h with heq
        · cases h
        · exact ⟨bytes, hblob, hfits, not_not.mp heq⟩
  · rintro ⟨bytes, hblob, hfits, rfl⟩
    have hhash := hashFile_eq_ok.mpr ⟨bytes, hblob, hfits, rfl⟩
    have hlink : ¬((env.blobs[env.sha.digest bytes]? : Option FileNode) = some .symlink) := by
      simp [hblob]
    rw [if_neg (by simp [env.sha.shape bytes]), if_neg hlink, hhash]
    simp

theorem verifyBlobs_eq_ok {verified : List String} {pins : List (String × String)} :
    verifyBlobs env verified pins = .ok () ↔
      ∀ pin ∈ pins, pin.2 ∈ verified ∨ env.BlobReadable pin.2 := by
  induction pins generalizing verified with
  | nil => simp [verifyBlobs]
  | cons pin rest ih =>
    obtain ⟨path, digest⟩ := pin
    rw [verifyBlobs, forall_mem_cons]
    split_ifs with hverified
    · rw [ih]
      exact ⟨fun h => ⟨.inl hverified, h⟩, fun h => h.2⟩
    · rw [Except.unit_bind_eq_ok, verifyPinnedBlob_eq_ok, ih]
      simp only [mem_cons]
      constructor
      · rintro ⟨hreadable, hrest⟩
        refine ⟨.inr hreadable, ?_⟩
        intro pin hpin
        rcases hrest pin hpin with (rfl | hold) | hnew
        · exact .inr hreadable
        · exact .inl hold
        · exact .inr hnew
      · rintro ⟨hdigest, hrest⟩
        refine ⟨hdigest.resolve_left hverified, ?_⟩
        intro pin hpin
        exact (hrest pin hpin).imp_left .inr

def Workspace.bytes (ws : Workspace) (path : String) : Option Bytes :=
  match (ws[path]? : Option FileNode) with
  | some (.file bytes) => some bytes
  | some .directory | some .symlink | none => none

theorem bytes_eq_some {bytes : Bytes} :
    ws.bytes path = some bytes ↔ ws[path]? = some (.file bytes) := by
  unfold Workspace.bytes
  split <;> simp_all

/-- A path that is neither current nor removed: an agent rewrote it after its removal, or only
attempts without a checkpoint wrote it. Its workspace bytes have to be one of its revisions. -/
structure Unpinned (s : RunState) (env : Env) (ws : Workspace) (path : String) : Prop where
  unsuccessful : isSuccessful s path = false
  revision : ws[path]? = none ∨ ∃ bytes, ws[path]? = some (.file bytes) ∧ env.Fits bytes.length ∧
    Pins.HasHistory s.historicalFilePins path (env.sha.digest bytes)

/-- What the workspace has to hold at a tracked path. -/
structure Verifies (s : RunState) (env : Env) (ws : Workspace) (path : String) : Prop where
  direct : ws.isDirect path = true
  removed : path ∈ s.removedFiles → ws[path]? = none
  latest : path ∉ s.removedFiles → ∀ digest, s.latestFilePins[path]? = some digest →
    ∃ bytes, ws[path]? = some (.file bytes) ∧ env.Fits bytes.length ∧ env.sha.digest bytes = digest
  unpinned : path ∉ s.removedFiles → s.latestFilePins[path]? = none → Unpinned s env ws path

def counted (s : RunState) (ws : Workspace) (path : String) : Option Nat :=
  if s.removedFiles.contains path || !s.latestFilePins.contains path then none
  else (ws.bytes path).map List.length

def seenDigest (s : RunState) (env : Env) (ws : Workspace) (path : String) : Option String :=
  if s.removedFiles.contains path then none else (ws.bytes path).map env.sha.digest

def note (s : RunState) (env : Env) (ws : Workspace) (digests : BTreeMap String) (path : String) :
    BTreeMap String :=
  match seenDigest s env ws path with
  | none => digests
  | some digest => digests.insert path digest

def count (s : RunState) (env : Env) (ws : Workspace) (a : CheckpointAccounting) (path : String) :
    Except Refusal CheckpointAccounting :=
  match counted s ws path with
  | none => .ok a
  | some n => a.record env.limits path n

variable {seen seen' : Seen}

theorem verifyHistorical_eq_ok :
    verifyHistorical s env ws path seen = .ok seen' ↔
      (ws[path]? = none ∧ seen' = seen) ∨
        ∃ bytes, ws[path]? = some (.file bytes) ∧ env.Fits bytes.length ∧
          Pins.HasHistory s.historicalFilePins path (env.sha.digest bytes) ∧
          seen' = { seen with
            preverified := seen.preverified.insert path (env.sha.digest bytes) } := by
  unfold verifyHistorical
  cases hhash : hashFile env ws[path]? with
  | error error =>
    have hfile : ∀ bytes, ws[path]? = some (.file bytes) → ¬env.Fits bytes.length := by
      intro bytes hbytes hfits
      rw [hashFile_eq_ok.mpr ⟨bytes, hbytes, hfits, rfl⟩] at hhash
      cases hhash
    cases error with
    | notFound =>
      have hnone := hashFile_eq_notFound.mp hhash
      simp [hnone, eq_comm]
    | unreadable =>
      have hsome : ws[path]? ≠ none := by
        intro hnone
        rw [hashFile_eq_notFound.mpr hnone] at hhash
        cases hhash
      constructor
      · intro h
        cases h
      · rintro (⟨hnone, -⟩ | ⟨bytes, hbytes, hfits, -⟩)
        · exact absurd hnone hsome
        · exact absurd hfits (hfile bytes hbytes)
  | ok found =>
    obtain ⟨bytes, hbytes, hfits, rfl⟩ := hashFile_eq_ok.mp hhash
    simp only [hbytes, Option.some.injEq, FileNode.file.injEq, reduceCtorEq, false_and, false_or,
      exists_eq_left', hfits, true_and]
    cases hhistory : (s.historicalFilePins[path]? : Option BTreeSet) with
    | none => simp [quarantine, Pins.HasHistory, hhistory]
    | some digests =>
      simp only [Pins.HasHistory, hhistory, Option.some.injEq, exists_eq_left']
      by_cases hmem : env.sha.digest bytes ∈ digests
      · rw [if_neg (by simp [Std.ExtTreeSet.contains_iff_mem, hmem]), Except.ok.injEq]
        exact ⟨fun h => ⟨hmem, h.symm⟩, fun h => h.2.symm⟩
      · rw [if_pos (by simpa [← Std.ExtTreeSet.contains_iff_mem] using hmem)]
        simp [hmem, quarantine]

theorem verifyLatest_eq_ok :
    verifyLatest s env ws path seen = .ok seen' ↔
      ∃ bytes, ws[path]? = some (.file bytes) ∧ env.Fits bytes.length ∧
        s.latestFilePins[path]? = some (env.sha.digest bytes) ∧
        seen.accounting.record env.limits path bytes.length = .ok seen'.accounting ∧
        seen'.preverified = seen.preverified.insert path (env.sha.digest bytes) := by
  unfold verifyLatest
  cases hhash : hashFile env ws[path]? with
  | error error =>
    constructor
    · intro h
      cases error <;> cases h
    · rintro ⟨bytes, hbytes, hfits, -⟩
      rw [hashFile_eq_ok.mpr ⟨bytes, hbytes, hfits, rfl⟩] at hhash
      cases hhash
  | ok found =>
    obtain ⟨bytes, hbytes, hfits, rfl⟩ := hashFile_eq_ok.mp hhash
    simp only [hbytes, Option.some.injEq, FileNode.file.injEq, exists_eq_left', hfits, true_and]
    cases hlatest : (s.latestFilePins[path]? : Option String) with
    | none => simp [refuse]
    | some expected =>
      by_cases heq : env.sha.digest bytes = expected
      · subst heq
        simp only [ne_eq, not_true_eq_false, if_false, Except.bind_eq_ok]
        constructor
        · rintro ⟨accounting, hrecord, hseen⟩
          cases hseen
          exact ⟨trivial, hrecord, rfl⟩
        · rintro ⟨-, hrecord, hseen⟩
          refine ⟨seen'.accounting, hrecord, ?_⟩
          rw [← hseen]
          rfl
      · simp [heq, quarantine, Ne.symm heq]

theorem verifies_removed (hremoved : path ∈ s.removedFiles) :
    Verifies s env ws path ↔ ws.isDirect path = true ∧ ws[path]? = none := by
  constructor
  · intro h
    exact ⟨h.direct, h.removed hremoved⟩
  · rintro ⟨hdirect, habsent⟩
    exact ⟨hdirect, fun _ => habsent, fun hnot => absurd hremoved hnot,
      fun hnot => absurd hremoved hnot⟩

theorem verifies_latest (hremoved : path ∉ s.removedFiles)
    (hlatest : s.latestFilePins[path]? = some digest) :
    Verifies s env ws path ↔ ws.isDirect path = true ∧
      ∃ bytes, ws[path]? = some (.file bytes) ∧ env.Fits bytes.length ∧
        env.sha.digest bytes = digest := by
  constructor
  · intro h
    exact ⟨h.direct, h.latest hremoved digest hlatest⟩
  · rintro ⟨hdirect, hbytes⟩
    refine ⟨hdirect, fun h => absurd h hremoved, ?_, ?_⟩
    · intro _ expected hexpected
      rw [hlatest] at hexpected
      cases hexpected
      exact hbytes
    · intro _ hnone
      rw [hlatest] at hnone
      cases hnone

theorem verifies_unpinned (hremoved : path ∉ s.removedFiles)
    (hlatest : s.latestFilePins[path]? = none) :
    Verifies s env ws path ↔ ws.isDirect path = true ∧ Unpinned s env ws path := by
  constructor
  · intro h
    exact ⟨h.direct, h.unpinned hremoved hlatest⟩
  · rintro ⟨hdirect, hunpinned⟩
    refine ⟨hdirect, fun h => absurd h hremoved, ?_, fun _ _ => hunpinned⟩
    intro _ expected hexpected
    rw [hlatest] at hexpected
    cases hexpected

theorem contains_latest : s.latestFilePins.contains path = (s.latestFilePins[path]?).isSome :=
  Std.ExtTreeMap.contains_eq_isSome_getElem?

section

variable (hdirect : ws.isDirect path = true)

include hdirect

theorem verifyPath_removed (hremoved : path ∈ s.removedFiles) :
    verifyPath s env ws seen path = .ok seen' ↔ Verifies s env ws path ∧
      count s env ws seen.accounting path = .ok seen'.accounting ∧
      seen'.preverified = note s env ws seen.preverified path := by
  have hcontains : s.removedFiles.contains path = true := hremoved
  simp only [verifyPath, hdirect, hcontains, verifies_removed hremoved, count, counted, note,
    seenDigest, Bool.not_true, Bool.and_false, Bool.false_eq_true, if_false, if_true, Bool.true_or,
    true_and, Except.ok.injEq]
  cases hnode : (ws[path]? : Option FileNode) with
  | none =>
    simp only [Option.isNone_none, if_true, Except.ok.injEq, true_and]
    constructor
    · rintro rfl
      exact ⟨rfl, rfl⟩
    · rintro ⟨haccounting, hdigests⟩
      cases seen'
      cases seen
      simp_all
  | some node => simp [refuse]

theorem verifyPath_latest (hremoved : path ∉ s.removedFiles)
    (hlatest : s.latestFilePins[path]? = some digest) :
    verifyPath s env ws seen path = .ok seen' ↔ Verifies s env ws path ∧
      count s env ws seen.accounting path = .ok seen'.accounting ∧
      seen'.preverified = note s env ws seen.preverified path := by
  have hcontains : s.removedFiles.contains path = false := by
    simpa [← Std.ExtTreeSet.contains_iff_mem] using hremoved
  have hpinned : s.latestFilePins.contains path = true := by simp [contains_latest, hlatest]
  simp only [verifyPath, hdirect, hcontains, hpinned, Bool.not_true, Bool.and_false, Bool.false_and,
    Bool.false_eq_true, if_false, verifyLatest_eq_ok, verifies_latest hremoved hlatest, count,
    counted, note, seenDigest, Bool.or_false, true_and, hlatest, Option.some.injEq]
  constructor
  · rintro ⟨bytes, hbytes, hfits, hdigest, hrecord, hseen⟩
    rw [bytes_eq_some.mpr hbytes]
    exact ⟨⟨bytes, hbytes, hfits, hdigest.symm⟩, hrecord, hseen⟩
  · rintro ⟨⟨bytes, hbytes, hfits, hdigest⟩, hrecord, hseen⟩
    rw [bytes_eq_some.mpr hbytes] at hrecord hseen
    exact ⟨bytes, hbytes, hfits, hdigest.symm, hrecord, hseen⟩

theorem verifyPath_unpinned (hremoved : path ∉ s.removedFiles)
    (hlatest : s.latestFilePins[path]? = none) :
    verifyPath s env ws seen path = .ok seen' ↔ Verifies s env ws path ∧
      count s env ws seen.accounting path = .ok seen'.accounting ∧
      seen'.preverified = note s env ws seen.preverified path := by
  have hcontains : s.removedFiles.contains path = false := by
    simpa [← Std.ExtTreeSet.contains_iff_mem] using hremoved
  have hpinned : s.latestFilePins.contains path = false := by simp [contains_latest, hlatest]
  simp only [verifyPath, hdirect, hcontains, hpinned, verifies_unpinned hremoved hlatest, count,
    counted, note, seenDigest, Bool.not_true, Bool.not_false, Bool.and_true, Bool.false_eq_true,
    if_false, if_true, Bool.or_true, true_and, Except.ok.injEq]
  cases hsuccessful : isSuccessful s path with
  | true =>
    -- A successful step without a latest pin is refused whatever the workspace holds.
    simp only [Bool.not_true, Bool.false_eq_true, if_false, verifyLatest_eq_ok, hlatest]
    constructor
    · rintro ⟨_, -, -, hnone, -⟩
      cases hnone
    · rintro ⟨hunpinned, -⟩
      rw [hunpinned.unsuccessful] at hsuccessful
      cases hsuccessful
  | false =>
    simp only [Bool.not_false, if_true, verifyHistorical_eq_ok]
    constructor
    · rintro (⟨habsent, rfl⟩ | ⟨bytes, hbytes, hfits, hhistory, rfl⟩)
      · have hnone : ws.bytes path = none := by simp [Workspace.bytes, habsent]
        rw [hnone]
        exact ⟨⟨hsuccessful, .inl habsent⟩, rfl, rfl⟩
      · rw [bytes_eq_some.mpr hbytes]
        exact ⟨⟨hsuccessful, .inr ⟨bytes, hbytes, hfits, hhistory⟩⟩, rfl, rfl⟩
    · rintro ⟨hunpinned, haccounting, hseen⟩
      rcases hunpinned.revision with habsent | ⟨bytes, hbytes, hfits, hhistory⟩
      · have hnone : ws.bytes path = none := by simp [Workspace.bytes, habsent]
        rw [hnone] at hseen
        refine .inl ⟨habsent, ?_⟩
        cases seen'
        cases seen
        simp_all
      · rw [bytes_eq_some.mpr hbytes] at hseen
        refine .inr ⟨bytes, hbytes, hfits, hhistory, ?_⟩
        cases seen'
        cases seen
        simp_all

end

/-- A path passes when the workspace holds what it has to and its bytes can be counted. -/
theorem verifyPath_eq_ok :
    verifyPath s env ws seen path = .ok seen' ↔ Verifies s env ws path ∧
      count s env ws seen.accounting path = .ok seen'.accounting ∧
      seen'.preverified = note s env ws seen.preverified path := by
  by_cases hdirect : ws.isDirect path = true
  · by_cases hremoved : path ∈ s.removedFiles
    · exact verifyPath_removed hdirect hremoved
    · cases hlatest : (s.latestFilePins[path]? : Option String) with
      | none => exact verifyPath_unpinned hdirect hremoved hlatest
      | some digest => exact verifyPath_latest hdirect hremoved hlatest
  · constructor
    · intro h
      rw [verifyPath, if_pos (by simp [hdirect])] at h
      cases h
    · rintro ⟨hverifies, -⟩
      exact absurd hverifies.direct hdirect

theorem foldlM_verifyPath :
    paths.foldlM (verifyPath s env ws) seen = .ok seen' ↔
      (∀ path ∈ paths, Verifies s env ws path) ∧
        paths.foldlM (count s env ws) seen.accounting = .ok seen'.accounting ∧
        seen'.preverified = paths.foldl (note s env ws) seen.preverified := by
  induction paths generalizing seen with
  | nil =>
    cases seen
    cases seen'
    simp [pure, Except.pure, eq_comm, and_comm]
  | cons path rest ih =>
    rw [Except.foldlM_cons_eq_ok, forall_mem_cons, Except.foldlM_cons_eq_ok, foldl_cons]
    constructor
    · rintro ⟨mid, hmid, hrest⟩
      obtain ⟨hverifies, hcount, hnote⟩ := verifyPath_eq_ok.mp hmid
      obtain ⟨hall, hcounts, hseen⟩ := ih.mp hrest
      rw [hnote] at hseen
      exact ⟨⟨hverifies, hall⟩, ⟨mid.accounting, hcount, hcounts⟩, hseen⟩
    · rintro ⟨⟨hverifies, hall⟩, ⟨accounting, hcount, hcounts⟩, hseen⟩
      refine ⟨{ preverified := note s env ws seen.preverified path, accounting }, ?_, ?_⟩
      · exact verifyPath_eq_ok.mpr ⟨hverifies, hcount, rfl⟩
      · exact ih.mpr ⟨hall, hcounts, hseen⟩

theorem get_foldl_note (paths : List String) (digests : BTreeMap String) (path : String) :
    (paths.foldl (note s env ws) digests)[path]? =
      if path ∈ paths then (seenDigest s env ws path).or digests[path]? else digests[path]? := by
  induction paths generalizing digests with
  | nil => simp
  | cons first rest ih =>
    have hfirst : (note s env ws digests first)[path]? =
        if path = first then (seenDigest s env ws path).or digests[path]? else digests[path]? := by
      unfold note
      split
      · rename_i hnone
        split_ifs with heq
        · rw [heq, hnone, Option.none_or]
        · rfl
      · rename_i digest hsome
        rw [BTreeMap.get_insert]
        split_ifs with heq
        · rw [heq, hsome, Option.some_or]
        · rfl
    rw [foldl_cons, ih, hfirst]
    by_cases heq : path = first
    · subst heq
      cases seenDigest s env ws path <;> simp
    · simp [heq]

end Verification

section Limits

variable {limits : RuntimeLimits} {a a' : CheckpointAccounting} {path : String} {n : Nat}

/-- Outputs of the given sizes fit beside what has been counted already. -/
structure RuntimeLimits.Room (limits : RuntimeLimits) (count total : Nat) (sizes : List Nat) :
    Prop where
  positive : limits.hasZero = false
  file : ∀ size ∈ sizes, limits.outputFileLimitBytes.any (· < size) = false
  artifact : limits.outputArtifactLimit.any (· < count + sizes.length) = false
  representable : total + sizes.sum < 2 ^ 64
  total : limits.outputTotalLimitBytes.any (· < total + sizes.sum) = false

theorem record_eq_ok (hfresh : a.bytesByPath[path]? = none) :
    a.record limits path n = .ok a' ↔ limits.Room a.bytesByPath.size a.totalBytes [n] ∧
      a' = { bytesByPath := a.bytesByPath.insert path n, totalBytes := a.totalBytes + n } := by
  simp only [CheckpointAccounting.record, hfresh, Option.isSome_none, Bool.false_eq_true, if_false,
    Option.getD_none, Nat.sub_zero, Nat.not_lt_zero]
  constructor
  · intro h
    split_ifs at h with hzero hfile hartifact hoverflow htotal
    rw [Bool.not_eq_true] at hzero hfile hartifact htotal
    exact ⟨⟨hzero, by simpa using hfile, by simpa using hartifact, by simpa using hoverflow,
      htotal⟩,
      (Except.ok.inj h).symm⟩
  · rintro ⟨hroom, rfl⟩
    have hfile := hroom.file n mem_cons_self
    have hartifact := hroom.artifact
    have htotal := hroom.total
    have hoverflow := hroom.representable
    simp only [length_singleton, sum_singleton] at hartifact htotal hoverflow
    simp only [hroom.positive, hfile, hartifact, htotal, not_le.mpr hoverflow, Bool.false_eq_true,
      if_false]

theorem any_lt_mono {limit : Option Nat} {m k : Nat} (h : limit.any (· < k) = false) (hle : m ≤ k) :
    limit.any (· < m) = false := by
  cases limit with
  | none => rfl
  | some bound =>
    simp only [Option.any_some, decide_eq_false_iff_not, not_lt] at h ⊢
    omega

theorem room_cons {count total : Nat} {sizes : List Nat} :
    limits.Room count total (n :: sizes) ↔ limits.Room count total [n] ∧
      (sizes = [] ∨ limits.Room (count + 1) (total + n) sizes) := by
  constructor
  · rintro ⟨hpositive, hfile, hartifact, hoverflow, htotal⟩
    simp only [length_cons, sum_cons] at hartifact hoverflow htotal
    rw [forall_mem_cons] at hfile
    constructor
    · refine ⟨hpositive, by simpa using hfile.1, any_lt_mono hartifact ?_, ?_,
        any_lt_mono htotal ?_⟩
      · simp
      · simp only [sum_singleton]
        omega
      · simp
    · refine .inr ⟨hpositive, hfile.2, any_lt_mono hartifact ?_, ?_, any_lt_mono htotal ?_⟩
      · omega
      · omega
      · omega
  · rintro ⟨hfirst, rfl | hrest⟩
    · exact hfirst
    · have hoverflow := hrest.representable
      refine ⟨hfirst.positive, ?_, any_lt_mono hrest.artifact ?_, ?_, any_lt_mono hrest.total ?_⟩
      · exact forall_mem_cons.mpr ⟨hfirst.file n mem_cons_self, hrest.file⟩
      · simp only [length_cons]
        omega
      · simp only [sum_cons]
        omega
      · simp only [sum_cons]
        omega

variable {s : RunState} {env : Env} {ws : Workspace}

theorem foldlM_count {paths : List String} (hnodup : paths.Nodup)
    (hfresh : ∀ path ∈ paths, (a.bytesByPath[path]? : Option Nat) = none) :
    (∃ a', paths.foldlM (count s env ws) a = .ok a') ↔
      paths.filterMap (counted s ws) = [] ∨
        env.limits.Room a.bytesByPath.size a.totalBytes (paths.filterMap (counted s ws)) := by
  induction paths generalizing a with
  | nil => simp [pure, Except.pure]
  | cons path rest ih =>
    rw [nodup_cons] at hnodup
    rw [forall_mem_cons] at hfresh
    simp only [Except.foldlM_cons_eq_ok]
    cases hcounted : counted s ws path with
    | none =>
      rw [filterMap_cons_none hcounted, ← ih hnodup.2 hfresh.2]
      simp [count, hcounted]
    | some n =>
      rw [filterMap_cons_some hcounted, room_cons]
      simp only [count, hcounted, record_eq_ok hfresh.1, reduceCtorEq, false_or]
      have hrest : ∀ p ∈ rest, ((a.bytesByPath.insert path n)[p]? : Option Nat) = none := by
        intro p hp
        have hne : p ≠ path := by
          rintro rfl
          exact hnodup.1 hp
        rw [BTreeMap.get_insert_of_ne _ _ hne]
        exact hfresh.2 p hp
      have hsize : (a.bytesByPath.insert path n).size = a.bytesByPath.size + 1 := by
        rw [Std.ExtTreeMap.size_insert, if_neg]
        intro hmem
        rw [Std.ExtTreeMap.getElem?_eq_some_getElem hmem] at hfresh
        cases hfresh.1
      have ih := @ih { bytesByPath := a.bytesByPath.insert path n, totalBytes := a.totalBytes + n }
        hnodup.2 hrest
      simp only [hsize] at ih
      rw [← ih]
      constructor
      · rintro ⟨a', mid, ⟨hroom, rfl⟩, hfold⟩
        exact ⟨hroom, a', hfold⟩
      · rintro ⟨hroom, a', hfold⟩
        exact ⟨a', _, ⟨hroom, rfl⟩, hfold⟩

end Limits

end Resume

end Qcg
