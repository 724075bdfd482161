import Qcg.Engine.ResumeVerify

/-!
# A workspace that resumes unchanged

The inputs of a resumed run are left alone when verification has seen them, or when they
still hold the bytes of their admission. An input that was removed has neither: it is refused
when it once was pinned, and otherwise written again.
-/

namespace Qcg

open List
open Policy (isSafePathComponent isSafeRelativePath validatePathTreeSet)

open Json (Value)

namespace Resume

section Inputs

variable {s : RunState} {env : Env} {ws ws' : Workspace} {path id : String} {file : FileValue}
  {value : Value} {pre : BTreeMap String} {p p' : Placement}

/-- Everything that stands in one workspace stands in the other. -/
def Grows (ws ws' : Workspace) : Prop :=
  ∀ (path : String) (node : FileNode), ws[path]? = some node → ws'[path]? = some node

theorem Grows.refl (ws : Workspace) : Grows ws ws :=
  fun _ _ h => h

theorem Grows.trans {ws'' : Workspace} (h : Grows ws ws') (h' : Grows ws' ws'') : Grows ws ws'' :=
  fun path node hnode => h' path node (h path node hnode)

theorem Grows.antisymm (h : Grows ws ws') (h' : Grows ws' ws) : ws = ws' := by
  apply Std.ExtTreeMap.ext_getElem?
  intro path
  cases hnode : (ws[path]? : Option FileNode) with
  | some node => exact (h path node hnode).symm
  | none =>
    cases hnode' : (ws'[path]? : Option FileNode) with
    | none => rfl
    | some node =>
      rw [h' path node hnode'] at hnode
      cases hnode

theorem grows_makeDirs (ws : Workspace) (dirs : List String) : Grows ws (ws.makeDirs dirs) := by
  induction dirs generalizing ws with
  | nil => exact .refl ws
  | cons dir rest ih =>
    show Grows ws (Workspace.makeDirs
      (if ws.contains dir then ws else ws.insert dir .directory) rest)
    split_ifs with hcontains
    · exact ih ws
    · apply Grows.trans _ (ih _)
      intro path node hnode
      have hne : path ≠ dir := by
        rintro rfl
        simp [Std.ExtTreeMap.contains_eq_isSome_getElem?, hnode] at hcontains
      rw [BTreeMap.get_insert_of_ne _ _ hne]
      exact hnode

theorem grows_write (habsent : ws[path]? = none) (bytes : Bytes) :
    Grows ws (ws.write path bytes) := by
  intro q node hnode
  have hne : q ≠ path := by
    rintro rfl
    rw [habsent] at hnode
    cases hnode
  rw [Workspace.write, BTreeMap.get_insert_of_ne _ _ hne]
  exact grows_makeDirs ws (parents path) q node hnode

theorem get_write (ws : Workspace) (path : String) (bytes : Bytes) :
    (ws.write path bytes)[path]? = some (.file bytes) := by
  rw [Workspace.write, BTreeMap.get_insert, if_pos rfl]

/-- An input that is read is left alone, or written where nothing stands. -/
theorem readInput_cases (h : readInput s env id file p = .ok p') :
    p'.workspace = p.workspace ∨
      p.workspace[relativePath id file]? = none ∧
        p' = p.place id (relativePath id file) file.bytes := by
  unfold readInput at h
  simp only at h
  split at h
  · rename_i habsent
    split_ifs at h
    · cases h
    · exact .inr ⟨habsent, (Except.ok.inj h).symm⟩
  · split at h
    · cases h
    · left
      split at h <;> split at h <;> cases h <;> rfl
  · cases h
  · cases h

theorem resumeInput_cases (h : resumeInput s env pre id file p = .ok p') :
    p'.workspace = p.workspace ∨
      p.workspace[relativePath id file]? = none ∧
        p' = p.place id (relativePath id file) file.bytes := by
  unfold resumeInput at h
  simp only at h
  split at h
  · left
    split_ifs at h <;> cases h
    rfl
  · left
    split_ifs at h <;> cases h
    rfl
  · exact readInput_cases h

theorem grows_materializeInput (h : materializeInput s env true pre p id = .ok p') :
    Grows p.workspace p'.workspace := by
  unfold materializeInput at h
  split at h
  · cases h
    exact .refl _
  · split at h
    · cases h
    · split at h
      · cases h
      · rw [if_pos rfl] at h
        split at h
        · cases h
        · rcases resumeInput_cases h with hsame | ⟨habsent, rfl⟩
          · rw [hsame]
            exact .refl _
          · exact grows_write habsent _

variable {ids : List String}

theorem grows_foldlM (h : ids.foldlM (materializeInput s env true pre) p = .ok p') :
    Grows p.workspace p'.workspace := by
  induction ids generalizing p with
  | nil =>
    cases h
    exact .refl _
  | cons id rest ih =>
    obtain ⟨mid, hmid, hrest⟩ := Except.foldlM_cons_eq_ok.mp h
    exact (grows_materializeInput hmid).trans (ih hrest)

theorem foldlM_unchanged_iff {Stays : String → Prop}
    (hstep : ∀ id ∈ ids, ∀ p : Placement, p.workspace = ws →
      ((∃ p', materializeInput s env true pre p id = .ok p' ∧ p'.workspace = ws) ↔ Stays id))
    (hp : p.workspace = ws) :
    (∃ p', ids.foldlM (materializeInput s env true pre) p = .ok p' ∧ p'.workspace = ws) ↔
      ∀ id ∈ ids, Stays id := by
  induction ids generalizing p with
  | nil => simp [pure, Except.pure, hp]
  | cons id rest ih =>
    rw [forall_mem_cons] at hstep ⊢
    constructor
    · rintro ⟨p', hfold, hsame⟩
      obtain ⟨mid, hmid, hrest⟩ := Except.foldlM_cons_eq_ok.mp hfold
      have hmidws : mid.workspace = ws := by
        apply Grows.antisymm
        · rw [← hsame]
          exact grows_foldlM hrest
        · rw [← hp]
          exact grows_materializeInput hmid
      exact ⟨(hstep.1 p hp).mp ⟨mid, hmid, hmidws⟩,
        (ih hstep.2 hmidws).mp ⟨p', hrest, hsame⟩⟩
    · rintro ⟨hid, hall⟩
      obtain ⟨mid, hmid, hmidws⟩ := (hstep.1 p hp).mpr hid
      obtain ⟨p', hrest, hsame⟩ := (ih hstep.2 hmidws).mpr hall
      exact ⟨p', Except.foldlM_cons_eq_ok.mpr ⟨mid, hmid, hrest⟩, hsame⟩

def Env.fileInputs (env : Env) : List (String × FileValue) :=
  env.fields.filterMap fun id =>
    (env.inputs[id]? : Option Value).bind fun value =>
      (env.reader.read value).toOption.map fun file => (id, file)

def Env.inputPaths (env : Env) : List String :=
  env.fileInputs.map fun input => relativePath input.1 input.2

def Env.Admitted (env : Env) : Prop :=
  ∀ id ∈ env.fields, ∀ value, env.inputs[id]? = some value →
    isSafePathComponent id = true ∧ ∃ file, env.reader.read value = .ok file

structure Agrees (s : RunState) (env : Env) (ws : Workspace) : Prop where
  pinned : ∀ path digest : String, s.latestFilePins[path]? = some digest →
    ∃ bytes, ws[path]? = some (FileNode.file bytes) ∧ env.sha.digest bytes = digest
  removed : ∀ path ∈ s.removedFiles, (ws[path]? : Option FileNode) = none
  inputs : ∀ input ∈ env.fileInputs, ∀ path, path = relativePath input.1 input.2 →
    s.latestFilePins[path]? = none → path ∉ s.removedFiles → s.historicalFilePins[path]? = none →
    ws[path]? = some (FileNode.file input.2.bytes)

theorem safe_relativePath (hid : isSafePathComponent id = true)
    (hname : isSafePathComponent file.name = true) :
    isSafeRelativePath (relativePath id file) = true := by
  simp only [isSafePathComponent, Bool.and_eq_true, Bool.not_eq_true',
    isSafeRelativePath, Policy.isSafeRelative] at hid hname
  obtain ⟨⟨hidback, hidparts⟩, hidslash⟩ := hid
  obtain ⟨⟨hnameback, hnameparts⟩, hnameslash⟩ := hname
  have hidslash : '/' ∉ id.toList := by simpa using hidslash
  have hnameslash : '/' ∉ file.name.toList := by simpa using hnameslash
  have hchars : (relativePath id file).toList =
      "files".toList ++ '/' :: (id.toList ++ '/' :: file.name.toList) := by
    simp [relativePath, String.toList_append]
  have hfiles : Policy.isPortableComponent "files".toList false = true := by decide
  rw [splitOn_eq_singleton hidslash] at hidparts
  rw [splitOn_eq_singleton hnameslash] at hnameparts
  simp only [isSafeRelativePath, Policy.isSafeRelative, hchars]
  rw [splitOn_append_cons_self_of_not_mem (by decide),
    splitOn_append_cons_self_of_not_mem hidslash, splitOn_eq_singleton hnameslash]
  simp_all

/-- An input at a path is found as the run left it. -/
structure Stays (s : RunState) (ws : Workspace) (path : String) : Prop where
  direct : ws.isDirect path = true
  kept : path ∉ s.removedFiles
  present : s.latestFilePins[path]? = none → s.historicalFilePins[path]? ≠ none →
    (ws[path]? : Option FileNode) ≠ none

def verifiedDigests (s : RunState) (env : Env) (ws : Workspace) : BTreeMap String :=
  (trackedPaths s).foldl (note s env ws) ∅

theorem get_verifiedDigests (h : path ∈ trackedPaths s) :
    (verifiedDigests s env ws)[path]? = seenDigest s env ws path := by
  rw [verifiedDigests, get_foldl_note, if_pos h]
  simp

theorem get_verifiedDigests_of_notMem (h : path ∉ trackedPaths s) :
    (verifiedDigests s env ws)[path]? = none := by
  rw [verifiedDigests, get_foldl_note, if_neg h]
  simp

theorem seenDigest_of_file {bytes : Bytes} (hremoved : path ∉ s.removedFiles)
    (hbytes : ws[path]? = some (.file bytes)) :
    seenDigest s env ws path = some (env.sha.digest bytes) := by
  have hcontains : s.removedFiles.contains path = false := by
    simpa [← Std.ExtTreeSet.contains_iff_mem] using hremoved
  simp [seenDigest, hcontains, bytes_eq_some.mpr hbytes]

theorem seenDigest_of_none (hnone : ws[path]? = none) : seenDigest s env ws path = none := by
  simp [seenDigest, Workspace.bytes, hnone]

theorem resumeInput_pinned {digest : String}
    (hsafe : ∀ path ∈ trackedPaths s, isSafeRelativePath path = true)
    (hagrees : Agrees s env ws)
    (hpath : isSafeRelativePath (relativePath id file) = true)
    (hlatest : s.latestFilePins[relativePath id file]? = some digest) :
    resumeInput s env (verifiedDigests s env ws) id file p =
      .ok (p.settle id (relativePath id file)) := by
  have hmem : relativePath id file ∈ s.latestFilePins := by
    rw [← Std.ExtTreeMap.contains_iff_mem, contains_latest, hlatest]
    rfl
  have htracked := tracked_of_mentioned hsafe hpath (mem_mentioned.mpr (.inr (.inr (.inr hmem))))
  obtain ⟨bytes, hbytes, hdigest⟩ := hagrees.pinned _ _ hlatest
  have hremoved : relativePath id file ∉ s.removedFiles := by
    intro hremoved
    rw [hagrees.removed _ hremoved] at hbytes
    cases hbytes
  have hseen : (verifiedDigests s env ws)[relativePath id file]? = some digest := by
    rw [get_verifiedDigests htracked, seenDigest_of_file hremoved hbytes, hdigest]
  simp [resumeInput, hseen, hlatest]

theorem resumeInput_removed (hagrees : Agrees s env ws) (hp : p.workspace = ws)
    (hremoved : relativePath id file ∈ s.removedFiles) :
    ¬∃ p', resumeInput s env (verifiedDigests s env ws) id file p = .ok p' ∧
      p'.workspace = ws := by
  have habsent := hagrees.removed _ hremoved
  have hlatest : (s.latestFilePins[relativePath id file]? : Option String) = none := by
    cases hlatest : (s.latestFilePins[relativePath id file]? : Option String) with
    | none => rfl
    | some digest =>
      obtain ⟨bytes, hbytes, -⟩ := hagrees.pinned _ _ hlatest
      rw [habsent] at hbytes
      cases hbytes
  have hseen : (verifiedDigests s env ws)[relativePath id file]? = none := by
    by_cases htracked : relativePath id file ∈ trackedPaths s
    · rw [get_verifiedDigests htracked, seenDigest_of_none habsent]
    · exact get_verifiedDigests_of_notMem htracked
  rintro ⟨p', hresume, hsame⟩
  have hread : readInput s env id file p = .ok p' := by
    simpa [resumeInput, hseen] using hresume
  simp only [readInput, hp, habsent] at hread
  split_ifs at hread
  · cases hread
  · cases hread
    have hwritten := get_write p.workspace (relativePath id file) file.bytes
    have hplaced : p.workspace.write (relativePath id file) file.bytes = ws := hsame
    rw [hplaced, habsent] at hwritten
    cases hwritten

theorem resumeInput_rewritten {digests : BTreeSet}
    (hsafe : ∀ path ∈ trackedPaths s, isSafeRelativePath path = true)
    (hverifies : ∀ path ∈ trackedPaths s, Verifies s env ws path) (hp : p.workspace = ws)
    (hpath : isSafeRelativePath (relativePath id file) = true)
    (hremoved : relativePath id file ∉ s.removedFiles)
    (hlatest : s.latestFilePins[relativePath id file]? = none)
    (hhistory : s.historicalFilePins[relativePath id file]? = some digests) :
    (∃ p', resumeInput s env (verifiedDigests s env ws) id file p = .ok p' ∧
      p'.workspace = ws) ↔ (ws[relativePath id file]? : Option FileNode) ≠ none := by
  have hmem : relativePath id file ∈ s.historicalFilePins := by
    rw [← Std.ExtTreeMap.contains_iff_mem, Std.ExtTreeMap.contains_eq_isSome_getElem?, hhistory]
    rfl
  have htracked := tracked_of_mentioned hsafe hpath (mem_mentioned.mpr (.inr (.inl hmem)))
  have hunpinned := (hverifies _ htracked).unpinned hremoved hlatest
  rcases hunpinned.revision with habsent | ⟨bytes, hbytes, -, hrevision⟩
  · have hseen : (verifiedDigests s env ws)[relativePath id file]? = none := by
      rw [get_verifiedDigests htracked, seenDigest_of_none habsent]
    have hcontains : s.historicalFilePins.contains (relativePath id file) = true := hmem
    simp [resumeInput, hseen, readInput, hp, habsent, hcontains, refuse]
  · have hseen : (verifiedDigests s env ws)[relativePath id file]? =
        some (env.sha.digest bytes) := by
      rw [get_verifiedDigests htracked, seenDigest_of_file hremoved hbytes]
    obtain ⟨revisions, hrevisions, hdigest⟩ := hrevision
    rw [hhistory] at hrevisions
    cases hrevisions
    have hcontains : digests.contains (env.sha.digest bytes) = true := hdigest
    simp [resumeInput, hseen, hlatest, hhistory, hcontains, hbytes, Placement.settle, hp]

/-- An input that the journal does not know has to hold the bytes of its admission. -/
theorem resumeInput_untouched (hagrees : Agrees s env ws) (hp : p.workspace = ws)
    (hread : env.reader.read value = .ok file) (hinput : (id, file) ∈ env.fileInputs)
    (hremoved : relativePath id file ∉ s.removedFiles)
    (hlatest : s.latestFilePins[relativePath id file]? = none)
    (hhistory : s.historicalFilePins[relativePath id file]? = none) :
    resumeInput s env (verifiedDigests s env ws) id file p =
      .ok (p.settle id (relativePath id file)) := by
  have hbytes := hagrees.inputs _ hinput _ rfl hlatest hremoved hhistory
  have hlimit : env.reader.limit.any (· < file.bytes.length) = false := by
    have hbounded := env.reader.bounded value file hread
    cases hlimit : env.reader.limit with
    | none => rfl
    | some bound =>
      rw [hlimit] at hbounded
      simpa using hbounded
  simp [resumeInput, readInput, hp, hbytes, hlatest, hhistory, hlimit]

theorem mem_fileInputs :
    (id, file) ∈ env.fileInputs ↔ id ∈ env.fields ∧
      ∃ value, env.inputs[id]? = some value ∧ env.reader.read value = .ok file := by
  unfold Env.fileInputs
  rw [mem_filterMap]
  constructor
  · rintro ⟨field, hfield, hbind⟩
    obtain ⟨value, hvalue, hfile⟩ := Option.bind_eq_some_iff.mp hbind
    obtain ⟨read, hread, hpair⟩ := Option.map_eq_some_iff.mp hfile
    cases hpair
    refine ⟨hfield, value, hvalue, ?_⟩
    cases hresult : env.reader.read value with
    | error message => simp [hresult, Except.toOption] at hread
    | ok found =>
      rw [hresult] at hread
      cases hread
      rfl
  · rintro ⟨hfield, value, hvalue, hread⟩
    exact ⟨id, hfield, by simp [hvalue, hread, Except.toOption]⟩

/-- One input leaves the workspace alone when it is found as the run left it. -/
theorem materializeInput_unchanged_iff
    (hsafe : ∀ path ∈ trackedPaths s, isSafeRelativePath path = true)
    (hverifies : ∀ path ∈ trackedPaths s, Verifies s env ws path) (hadmitted : env.Admitted)
    (hagrees : Agrees s env ws) (hid : id ∈ env.fields) (hp : p.workspace = ws) :
    (∃ p', materializeInput s env true (verifiedDigests s env ws) p id = .ok p' ∧
      p'.workspace = ws) ↔
      ∀ file, (id, file) ∈ env.fileInputs → Stays s ws (relativePath id file) := by
  simp only [mem_fileInputs, hid, true_and]
  cases hvalue : (env.inputs[id]? : Option Value) with
  | none => simp [materializeInput, hvalue, hp]
  | some value =>
    obtain ⟨hidsafe, file, hread⟩ := hadmitted id hid value hvalue
    have hinput : (id, file) ∈ env.fileInputs := mem_fileInputs.mpr ⟨hid, value, hvalue, hread⟩
    have hpath := safe_relativePath hidsafe (env.reader.safe value file hread)
    have honly : (∀ read, (∃ v, some value = some v ∧ env.reader.read v = .ok read) →
        Stays s ws (relativePath id read)) ↔ Stays s ws (relativePath id file) := by
      constructor
      · intro h
        exact h file ⟨value, rfl, hread⟩
      · rintro h read ⟨v, hv, hv'⟩
        cases hv
        rw [hread] at hv'
        cases hv'
        exact h
    rw [honly]
    simp only [materializeInput, hvalue, hidsafe, hread, hp, Bool.not_true, Bool.false_eq_true,
      if_false, if_true]
    by_cases hdirect : ws.isDirect (relativePath id file) = true
    · rw [if_neg (by simp [hdirect])]
      by_cases hremoved : relativePath id file ∈ s.removedFiles
      · constructor
        · intro h
          exact absurd h (resumeInput_removed hagrees hp hremoved)
        · intro h
          exact absurd hremoved h.kept
      · cases hlatest : (s.latestFilePins[relativePath id file]? : Option String) with
        | some digest =>
          rw [resumeInput_pinned hsafe hagrees hpath hlatest]
          constructor
          · intro _
            refine ⟨hdirect, hremoved, ?_⟩
            intro hnone
            rw [hlatest] at hnone
            cases hnone
          · intro _
            exact ⟨_, rfl, hp⟩
        | none =>
          cases hhistory : (s.historicalFilePins[relativePath id file]? : Option BTreeSet) with
          | some digests =>
            rw [resumeInput_rewritten hsafe hverifies hp hpath hremoved hlatest hhistory]
            constructor
            · intro hpresent
              exact ⟨hdirect, hremoved, fun _ _ => hpresent⟩
            · intro hstays
              exact hstays.present hlatest (by simp [hhistory])
          | none =>
            rw [resumeInput_untouched hagrees hp hread hinput hremoved hlatest hhistory]
            constructor
            · intro _
              exact ⟨hdirect, hremoved, fun _ hsome => absurd hhistory hsome⟩
            · intro _
              exact ⟨_, rfl, hp⟩
    · rw [if_pos (by simp [hdirect])]
      constructor
      · rintro ⟨p', hdenied, -⟩
        cases hdenied
      · intro hstays
        exact absurd hstays.direct hdirect

end Inputs

section Resumes

variable {s : RunState} {env : Env} {ws : Workspace}

def resumeTimes (s : RunState) (env : Env) : Nat → Workspace → Except Refusal Workspace
  | 0, ws => .ok ws
  | n + 1, ws => do
    let placement ← resumeFiles s env ws
    resumeTimes s env n placement.workspace

/-- Every revision that a pin names has its blob. -/
def BlobsIntact (s : RunState) (env : Env) : Prop :=
  ∀ pin ∈ pinnedBlobs s, ∃ bytes, env.blobs[pin.2]? = some (.file bytes) ∧
    env.sha.digest bytes = pin.2

def currentSizes (s : RunState) (ws : Workspace) : List Nat :=
  (trackedPaths s).filterMap (counted s ws)

/-- When a workspace that agrees with the state resumes unchanged: every path is safe and
reached without links, the current files can stand in one tree and keep the limits, no file
input has been removed, and a path that is neither current nor removed holds one of its
revisions, or nothing where no input belongs. -/
structure Resumable (s : RunState) (env : Env) (ws : Workspace) : Prop where
  safe : ∀ path ∈ trackedPaths s, isSafeRelativePath path = true
  tree : validatePathTreeSet env.collisionKey
    (s.latestFilePins.keys.map fun path => (path, false)) = .ok ()
  direct : ∀ path ∈ trackedPaths s ++ env.inputPaths, ws.isDirect path = true
  kept : ∀ path ∈ env.inputPaths, path ∉ s.removedFiles
  unpinned : ∀ path ∈ trackedPaths s, path ∉ s.removedFiles → s.latestFilePins[path]? = none →
    Unpinned s env ws path
  present : ∀ path ∈ env.inputPaths, s.latestFilePins[path]? = none →
    s.historicalFilePins[path]? ≠ none → (ws[path]? : Option FileNode) ≠ none
  blobs : ∀ pin ∈ pinnedBlobs s, ∀ bytes, env.blobs[pin.2]? = some (.file bytes) →
    env.Fits bytes.length
  room : currentSizes s ws = [] ∨ env.limits.Room 0 0 (currentSizes s ws)

theorem forM_checkPath_eq_ok {paths : List String} :
    paths.forM checkPath = .ok () ↔ ∀ path ∈ paths, isSafeRelativePath path = true := by
  rw [Except.forM_eq_ok]
  refine forall₂_congr ?_
  intro path _
  unfold checkPath
  split_ifs with h <;> simp_all [refuse]

theorem checkTree_eq_ok :
    checkTree env s = .ok () ↔ validatePathTreeSet env.collisionKey
      (s.latestFilePins.keys.map fun path => (path, false)) = .ok () := by
  unfold checkTree
  split <;> simp_all

theorem verifyFiles_eq_ok {seen : Seen} :
    verifyFiles s env ws = .ok seen ↔
      (∀ path ∈ trackedPaths s, isSafeRelativePath path = true) ∧
      validatePathTreeSet env.collisionKey
        (s.latestFilePins.keys.map fun path => (path, false)) = .ok () ∧
      (∀ pin ∈ pinnedBlobs s, env.BlobReadable pin.2) ∧
      (∀ path ∈ trackedPaths s, Verifies s env ws path) ∧
      (trackedPaths s).foldlM (count s env ws) {} = .ok seen.accounting ∧
      seen.preverified = verifiedDigests s env ws := by
  unfold verifyFiles
  rw [Except.unit_bind_eq_ok, Except.unit_bind_eq_ok, Except.unit_bind_eq_ok, foldlM_verifyPath,
    forM_checkPath_eq_ok, checkTree_eq_ok, verifyBlobs_eq_ok]
  simp [verifiedDigests]

theorem verified_iff (hblobs : BlobsIntact s env) (hagrees : Agrees s env ws) :
    (∃ seen, verifyFiles s env ws = .ok seen) ↔
      (∀ path ∈ trackedPaths s, isSafeRelativePath path = true) ∧
      validatePathTreeSet env.collisionKey
        (s.latestFilePins.keys.map fun path => (path, false)) = .ok () ∧
      (∀ path ∈ trackedPaths s, ws.isDirect path = true) ∧
      (∀ path ∈ trackedPaths s, path ∉ s.removedFiles → s.latestFilePins[path]? = none →
        Unpinned s env ws path) ∧
      (∀ pin ∈ pinnedBlobs s, ∀ bytes, env.blobs[pin.2]? = some (.file bytes) →
        env.Fits bytes.length) ∧
      (currentSizes s ws = [] ∨ env.limits.Room 0 0 (currentSizes s ws)) := by
  have hcounts := @foldlM_count {} s env ws (trackedPaths s) (nodup_trackedPaths s) (by simp)
  constructor
  · rintro ⟨seen, hseen⟩
    obtain ⟨hsafe, htree, hreadable, hverifies, hcount, -⟩ := verifyFiles_eq_ok.mp hseen
    refine ⟨hsafe, htree, fun path hpath => (hverifies path hpath).direct,
      fun path hpath => (hverifies path hpath).unpinned, ?_, hcounts.mp ⟨_, hcount⟩⟩
    intro pin hpin bytes hbytes
    obtain ⟨found, hfound, hfits, -⟩ := hreadable pin hpin
    rw [hbytes] at hfound
    cases hfound
    exact hfits
  · rintro ⟨hsafe, htree, hdirect, hunpinned, hfits, hroom⟩
    obtain ⟨accounting, hcount⟩ := hcounts.mpr hroom
    refine ⟨{ preverified := verifiedDigests s env ws, accounting },
      verifyFiles_eq_ok.mpr ⟨hsafe, htree, ?_, ?_, hcount, rfl⟩⟩
    · intro pin hpin
      obtain ⟨bytes, hbytes, hdigest⟩ := hblobs pin hpin
      exact ⟨bytes, hbytes, hfits pin hpin bytes hbytes, hdigest⟩
    · intro path hpath
      refine ⟨hdirect path hpath, hagrees.removed path, ?_, hunpinned path hpath⟩
      intro hremoved digest hlatest
      obtain ⟨bytes, hbytes, hdigest⟩ := hagrees.pinned path digest hlatest
      refine ⟨bytes, hbytes, ?_, hdigest⟩
      -- A current file is one of those that the room is for.
      have hcontains : s.removedFiles.contains path = false := by
        simpa [← Std.ExtTreeSet.contains_iff_mem] using hremoved
      have hcounted : counted s ws path = some bytes.length := by
        simp [counted, hcontains, contains_latest, hlatest, bytes_eq_some.mpr hbytes]
      have hsize : bytes.length ∈ currentSizes s ws :=
        mem_filterMap.mpr ⟨path, hpath, hcounted⟩
      rcases hroom with hnil | hroom
      · rw [hnil] at hsize
        cases hsize
      · exact hroom.file _ hsize

theorem resumeFiles_unchanged_iff (hadmitted : env.Admitted) (hblobs : BlobsIntact s env)
    (hagrees : Agrees s env ws) :
    (∃ placement, resumeFiles s env ws = .ok placement ∧ placement.workspace = ws) ↔
      Resumable s env ws := by
  have hinputs : (∀ path ∈ env.inputPaths, Stays s ws path) ↔
      ∀ id ∈ env.fields, ∀ file, (id, file) ∈ env.fileInputs →
        Stays s ws (relativePath id file) := by
    constructor
    · intro h id _ file hfile
      exact h _ (mem_map.mpr ⟨(id, file), hfile, rfl⟩)
    · intro h path hpath
      obtain ⟨⟨id, file⟩, hfile, rfl⟩ := mem_map.mp hpath
      exact h id (mem_fileInputs.mp hfile).1 file hfile
  constructor
  · rintro ⟨placement, hresume, hsame⟩
    obtain ⟨seen, hseen, hplaced⟩ := Except.bind_eq_ok.mp hresume
    obtain ⟨hsafe, htree, hdirect, hunpinned, hfits, hroom⟩ :=
      (verified_iff hblobs hagrees).mp ⟨seen, hseen⟩
    obtain ⟨-, -, -, hverifies, -, hdigests⟩ := verifyFiles_eq_ok.mp hseen
    rw [hdigests] at hplaced
    have hstays : ∀ path ∈ env.inputPaths, Stays s ws path := by
      rw [hinputs]
      refine (foldlM_unchanged_iff ?_ ?_).mp ⟨placement, hplaced, hsame⟩
      · intro id hid p hp
        exact materializeInput_unchanged_iff hsafe hverifies hadmitted hagrees hid hp
      · rfl
    refine ⟨hsafe, htree, ?_, fun path hpath => (hstays path hpath).kept, hunpinned,
      fun path hpath => (hstays path hpath).present, hfits, hroom⟩
    intro path hpath
    rcases mem_append.mp hpath with htracked | hinput
    · exact hdirect path htracked
    · exact (hstays path hinput).direct
  · intro h
    obtain ⟨seen, hseen⟩ := (verified_iff hblobs hagrees).mpr ⟨h.safe, h.tree,
      fun path hpath => h.direct path (mem_append_left _ hpath), h.unpinned, h.blobs, h.room⟩
    obtain ⟨hsafe, -, -, hverifies, -, hdigests⟩ := verifyFiles_eq_ok.mp hseen
    have hstays : ∀ path ∈ env.inputPaths, Stays s ws path := by
      intro path hpath
      exact ⟨h.direct path (mem_append_right _ hpath), h.kept path hpath, h.present path hpath⟩
    have hfold := (foldlM_unchanged_iff (p := { workspace := ws, inputs := env.inputs })
      (fun id hid p hp =>
      materializeInput_unchanged_iff hsafe hverifies hadmitted hagrees hid hp) rfl).mpr
      (hinputs.mp hstays)
    obtain ⟨placement, hplaced, hsame⟩ := hfold
    refine ⟨placement, Except.bind_eq_ok.mpr ⟨seen, hseen, ?_⟩, hsame⟩
    rw [hdigests]
    exact hplaced

/-- A workspace that agrees with the state resumes unchanged, any number of times, exactly when
no file input was removed and the other conditions of `Resumable` hold. -/
theorem resumes_unchanged_iff (hadmitted : env.Admitted) (hblobs : BlobsIntact s env)
    (hagrees : Agrees s env ws) :
    (∀ n, resumeTimes s env n ws = .ok ws) ↔ Resumable s env ws := by
  rw [← resumeFiles_unchanged_iff hadmitted hblobs hagrees]
  constructor
  · intro h
    obtain ⟨placement, hresume, hsame⟩ := Except.bind_eq_ok.mp (h 1)
    exact ⟨placement, hresume, Except.ok.inj hsame⟩
  · rintro ⟨placement, hresume, hsame⟩ n
    induction n with
    | zero => rfl
    | succ n ih =>
      refine Except.bind_eq_ok.mpr ⟨placement, hresume, ?_⟩
      rw [hsame]
      exact ih

end Resumes

/-- Tells empty contents from all others. -/
def plainSha : Sha256 where
  digest bytes := String.ofList (List.replicate 64 (if bytes.isEmpty then 'a' else 'b'))
  shape := by
    intro bytes
    cases bytes.isEmpty <;> decide +kernel

def textReader : FileReader where
  limit := none
  read value :=
    match value.getStr "name", value.getStr "text" with
    | some name, some text =>
      if isSafePathComponent name then
        .ok { name, bytes := text.toList.map fun c => c.toNat.toUInt8 }
      else .error ("file input has an unsafe name `" ++ name ++ "`")
    | _, _ => .error "file input `name` must be a string"
  safe := by
    intro value file h
    split at h
    · split_ifs at h with hsafe
      cases h
      exact hsafe
    · cases h
  bounded := by
    intro value file _
    rfl

def docInputs : BTreeMap Value :=
  BTreeMap.extend ∅ [("doc", .obj [("name", .str "a.txt"), ("text", .str "hi")])]

def docEnv (blobs : BTreeMap FileNode) : Env where
  sha := plainSha
  collisionKey := id
  limits := {}
  reader := textReader
  blobs
  fields := ["doc"]
  inputs := docInputs

def docFile : FileValue where
  name := "a.txt"
  bytes := [104, 105]

theorem read_docInputs :
    (docInputs["doc"]? : Option Value).map textReader.read = some (.ok docFile) := by
  decide +kernel

variable (blobs : BTreeMap FileNode)

theorem admitted_docEnv : (docEnv blobs).Admitted := by
  intro id hid value hvalue
  rw [docEnv, mem_singleton] at hid
  subst hid
  have hread := read_docInputs
  change docInputs["doc"]? = some value at hvalue
  rw [hvalue, Option.map_some, Option.some.injEq] at hread
  exact ⟨by decide +kernel, docFile, hread⟩

theorem mem_fileInputs_docEnv {blobs : BTreeMap FileNode} {id : String} {file : FileValue}
    (h : (id, file) ∈ (docEnv blobs).fileInputs) : id = "doc" ∧ file = docFile := by
  obtain ⟨hid, value, hvalue, hfile⟩ := mem_fileInputs.mp h
  rw [docEnv, mem_singleton] at hid
  subst hid
  have hread := read_docInputs
  change docInputs["doc"]? = some value at hvalue
  rw [hvalue, Option.map_some, Option.some.injEq] at hread
  change textReader.read value = .ok file at hfile
  rw [hread] at hfile
  exact ⟨rfl, (Except.ok.inj hfile).symm⟩

def removedInputEvents : List Value :=
  [journaled 1 .runQueued "run" [], journaled 2 .stepStarted "run" [("node", .str "agent")],
    journaled 3 .agentFileChanges "run" [("node", .str "agent"),
      ("removed_files", .arr [.str "files/doc/a.txt"]), ("written_files", .arr [])]]

def removedInputState : RunState :=
  (RunState.foldValues .plain removedInputEvents).toOption.get (by decide +kernel)

def removedInputWorkspace : Workspace :=
  BTreeMap.extend ∅ [("files", .directory), ("files/doc", .directory)]

theorem agrees_removedInput : Agrees removedInputState (docEnv blobs) removedInputWorkspace := by
  have hlatest : removedInputState.latestFilePins = ∅ := by decide +kernel
  have hremoved : removedInputState.removedFiles.toList = ["files/doc/a.txt"] := by decide +kernel
  constructor
  · intro path digest hdigest
    simp [hlatest] at hdigest
  · intro path hpath
    rw [← Std.ExtTreeSet.mem_toList, hremoved, mem_singleton] at hpath
    subst hpath
    decide +kernel
  · rintro ⟨id, file⟩ hinput path rfl _ hkept _
    obtain ⟨rfl, rfl⟩ := mem_fileInputs_docEnv hinput
    exact absurd (by decide +kernel) hkept

/-- The agent removed the input; a resume brings it back, and the next one is refused. -/
theorem removed_input_returns :
    RunState.foldValues .plain removedInputEvents = .ok removedInputState ∧
      (∀ event ∈ removedInputEvents, reportedBy event = []) ∧ (docEnv ∅).Admitted ∧
        BlobsIntact removedInputState (docEnv ∅) ∧
      Agrees removedInputState (docEnv ∅) removedInputWorkspace ∧
      (resumeFiles removedInputState (docEnv ∅) removedInputWorkspace).map
          (fun placement => placement.workspace) =
        .ok (removedInputWorkspace.insert "files/doc/a.txt" (.file [104, 105])) ∧
      resumeTimes removedInputState (docEnv ∅) 2 removedInputWorkspace =
        refuse "removed output `files/doc/a.txt` is not absent" := by
  refine ⟨Except.eq_ok_get _ _, by decide +kernel, admitted_docEnv ∅, ?_, agrees_removedInput ∅,
    ?_, ?_⟩
  · have hpins : pinnedBlobs removedInputState = [] := by decide +kernel
    intro pin hpin
    rw [hpins] at hpin
    cases hpin
  · decide +kernel
  · decide +kernel

def pinnedEvents : List Value :=
  [journaled 1 .runQueued "run" [],
    journaled 2 .stepFinished "run" [("node", .str "a"), ("status", .str "success"),
      ("files", FilePin.listToValue [⟨"out.txt", plainSha.digest [1]⟩])]]

def pinnedState : RunState :=
  (RunState.foldValues .plain pinnedEvents).toOption.get (by decide +kernel)

def pinnedWorkspace : Workspace :=
  BTreeMap.extend ∅ [("out.txt", .file [1]), ("files", .directory), ("files/doc", .directory),
    ("files/doc/a.txt", .file [104, 105])]

def pinnedEnv : Env :=
  docEnv (BTreeMap.extend ∅ [(plainSha.digest [1], .file [1])])

theorem resumes_unchanged_iff_pinned :
    RunState.foldValues .plain pinnedEvents = .ok pinnedState ∧
      ∀ n, resumeTimes pinnedState pinnedEnv n pinnedWorkspace = .ok pinnedWorkspace := by
  have hlatest : pinnedState.latestFilePins.toList = [("out.txt", plainSha.digest [1])] := by
    decide +kernel
  have hremoved : pinnedState.removedFiles = ∅ := by decide +kernel
  have hblobs : BlobsIntact pinnedState pinnedEnv := by
    have hpins : ∀ pin ∈ pinnedBlobs pinnedState, pin.2 = plainSha.digest [1] := by decide +kernel
    intro pin hpin
    rw [hpins pin hpin]
    exact ⟨[1], by decide +kernel, rfl⟩
  have hagrees : Agrees pinnedState pinnedEnv pinnedWorkspace := by
    constructor
    · intro path digest hdigest
      rw [← Std.ExtTreeMap.mem_toList_iff_getElem?_eq_some, hlatest, mem_singleton] at hdigest
      cases hdigest
      exact ⟨[1], by decide +kernel, rfl⟩
    · intro path hpath
      simp [hremoved] at hpath
    · rintro ⟨id, file⟩ hinput path rfl _ _ _
      obtain ⟨rfl, rfl⟩ := mem_fileInputs_docEnv hinput
      decide +kernel
  have hresumable : Resumable pinnedState pinnedEnv pinnedWorkspace := by
    have hcurrent : ∀ path ∈ trackedPaths pinnedState,
        (pinnedState.latestFilePins[path]?).isSome = true := by decide +kernel
    have hunknown : ∀ path ∈ pinnedEnv.inputPaths,
        (pinnedState.historicalFilePins[path]?).isNone = true := by decide +kernel
    refine ⟨by decide +kernel, by decide +kernel, by decide +kernel, by simp [hremoved], ?_, ?_,
      fun _ _ _ _ => rfl, .inr ⟨rfl, fun _ _ => rfl, rfl, by decide +kernel, rfl⟩⟩
    · intro path hpath _ hnone
      have hsome := hcurrent path hpath
      rw [hnone] at hsome
      cases hsome
    · intro path hpath _ hsome
      exact absurd (Option.isNone_iff_eq_none.mp (hunknown path hpath)) hsome
  exact ⟨Except.eq_ok_get _ _,
    (resumes_unchanged_iff (admitted_docEnv _) hblobs hagrees).mpr hresumable⟩

end Resume

end Qcg
