import Qcg.Service.PackageUnpack

/-!
# What an unpacked package is

The entries that the check before extraction admits do not stand in each other's way, so the
extraction fails only at an entry that does not fit. When it succeeds, the target holds exactly
the entries of the archive, and the inventory has found in them exactly what the SBOM lists.
-/

namespace Qcg

open List
open Policy (parts validatePathTreeSet portableRelativePath)

open EStateM (Ends Spec spec_bind spec_get spec_ite spec_pure)

open Json (Value)

namespace Package

def ZipEntry.rel? (env : UnpackEnv) (entry : ZipEntry) : Option String :=
  match packageEntryPath env entry.name with
  | .ok rel => if rel = "" then none else some rel
  | .error _ => none

def ZipEntry.path? (env : UnpackEnv) (entry : ZipEntry) : Option (String × Bool) :=
  (entry.rel? env).map fun rel => (rel, entry.isDir)

def ZipEntry.mode (entry : ZipEntry) : Mode :=
  sanitizeModeBits (entry.externalAttributes >>> 16)

/-- The data up to the end of the stream. -/
def ZipEntry.data (entry : ZipEntry) : Bytes :=
  (entry.reads.takeWhile (· ≠ [])).flatten

def ZipEntry.item? (env : UnpackEnv) (entry : ZipEntry) : Option Item :=
  (entry.rel? env).map fun rel =>
    ⟨parts rel, if entry.isDir then none else some (entry.data, entry.mode)⟩

def ZipEntry.directory? (env : UnpackEnv) (entry : ZipEntry) : Option (String × Mode) :=
  if entry.isDir then (entry.rel? env).map fun rel => (rel, entry.mode) else none

def ZipEntry.size (env : UnpackEnv) (entry : ZipEntry) : Nat :=
  if (entry.rel? env).isSome then entry.declaredSize else 0

def Unpacked.after (env : UnpackEnv) (s : Unpacked) (entries : List ZipEntry) : Unpacked where
  unpackedBytes := s.unpackedBytes + (entries.map (ZipEntry.size env)).sum
  directories := s.directories ++ entries.filterMap (ZipEntry.directory? env)

variable {rel : String}

section Scan

variable {env : UnpackEnv} {limit : Option Nat} {entries : List ZipEntry}

theorem rel?_of_empty {entry : ZipEntry} (h : packageEntryPath env entry.name = .ok "") :
    entry.rel? env = none := by
  simp [ZipEntry.rel?, h]

theorem rel?_eq_some {entry : ZipEntry} (h : packageEntryPath env entry.name = .ok rel)
    (hne : rel ≠ "") :
    entry.rel? env = some rel := by
  simp [ZipEntry.rel?, h, hne]

theorem checkCount_eq_ok {count : Nat} :
    checkCount limit count = .ok () ↔ limit.all (count ≤ ·) = true := by
  rw [checkCount]
  cases limit with
  | none => simp
  | some bound =>
    simp only [Option.any_some, Option.all_some, decide_eq_true_eq]
    split_ifs with h
    · simp
      omega
    · simp
      omega

variable {scan' : Scan}

theorem scanEntry_eq_ok {scan : Scan} {entry : ZipEntry} :
    scanEntry env limit scan entry = .ok scan' ↔
      limit.all (scan.count + 1 ≤ ·) = true ∧
        (∃ rel, packageEntryPath env entry.name = .ok rel) ∧
          scan' = ⟨scan.count + 1, scan.paths ++ [entry].filterMap (ZipEntry.path? env)⟩ := by
  have hpaths : ∀ rel, packageEntryPath env entry.name = .ok rel →
      (if rel = "" then scan.paths else scan.paths ++ [(rel, entry.isDir)]) =
        scan.paths ++ [entry].filterMap (ZipEntry.path? env) := by
    intro rel hrel
    split_ifs with h
    · rw [h] at hrel
      simp [ZipEntry.path?, rel?_of_empty hrel]
    · have hsome : entry.rel? env = some rel := rel?_eq_some hrel h
      simp [ZipEntry.path?, hsome]
  rw [scanEntry, Except.unit_bind_eq_ok, checkCount_eq_ok, Except.bind_eq_ok]
  refine and_congr_right fun _ => ?_
  constructor
  · rintro ⟨rel, hrel, h⟩
    cases h
    exact ⟨⟨rel, hrel⟩, by rw [hpaths rel hrel]⟩
  · rintro ⟨⟨rel, hrel⟩, rfl⟩
    exact ⟨rel, hrel, by rw [hpaths rel hrel]⟩

theorem scan_eq_ok {scan : Scan} :
    entries.foldlM (scanEntry env limit) scan = .ok scan' ↔
      (entries ≠ [] → limit.all (scan.count + entries.length ≤ ·) = true) ∧
        (∀ entry ∈ entries, ∃ rel, packageEntryPath env entry.name = .ok rel) ∧
          scan' = ⟨scan.count + entries.length,
            scan.paths ++ entries.filterMap (ZipEntry.path? env)⟩ := by
  induction entries generalizing scan with
  | nil =>
    rw [Except.foldlM_nil, Except.ok.injEq, @eq_comm _ scan scan']
    simp
  | cons entry entries ih =>
    rw [Except.foldlM_cons_eq_ok]
    have hpaths : ∀ paths : List (String × Bool),
        paths ++ [entry].filterMap (ZipEntry.path? env) ++
          entries.filterMap (ZipEntry.path? env) =
        paths ++ (entry :: entries).filterMap (ZipEntry.path? env) := by
      intro paths
      rw [append_assoc, ← filterMap_append]
      rfl
    have hlength : scan.count + 1 + entries.length = scan.count + (entry :: entries).length := by
      rw [length_cons]
      omega
    constructor
    · rintro ⟨next, hnext, hrest⟩
      obtain ⟨hbound, hname, rfl⟩ := scanEntry_eq_ok.mp hnext
      obtain ⟨hbounds, hnames, rfl⟩ := ih.mp hrest
      refine ⟨fun _ => ?_, forall_mem_cons.mpr ⟨hname, hnames⟩, ?_⟩
      · cases entries with
        | nil => exact hbound
        | cons other entries =>
          rw [← hlength]
          exact hbounds (by simp)
      · rw [hpaths, hlength]
    · rintro ⟨hbound, hnames, rfl⟩
      have hall := hbound (by simp)
      obtain ⟨hname, hnames⟩ := forall_mem_cons.mp hnames
      refine ⟨_, scanEntry_eq_ok.mpr ⟨?_, hname, rfl⟩, ih.mpr ⟨fun _ => ?_, hnames, ?_⟩⟩
      · cases limit with
        | none => rfl
        | some bound =>
          simp only [Option.all_some, decide_eq_true_eq, length_cons] at hall ⊢
          omega
      · rwa [hlength]
      · rw [hpaths, hlength]

/-- What the check before extraction accepts. -/
structure Admitted (env : UnpackEnv) (archive : Archive) (limit : Option Nat) : Prop where
  hint : limit.all (archive.entriesHint ≤ ·) = true
  names : ∀ entry ∈ archive.entries, ∃ rel, packageEntryPath env entry.name = .ok rel
  wellFormed : archive.malformed = false
  tree : validatePathTreeSet env.collisionKey.key
    (archive.entries.filterMap (ZipEntry.path? env)) = .ok ()
  count : archive.entries.length = archive.entriesHint

theorem validateEntryCount_iff {archive : Archive} :
    validateEntryCount env archive limit = .ok () ↔ Admitted env archive limit := by
  rw [validateEntryCount, Except.unit_bind_eq_ok, checkCount_eq_ok, Except.bind_eq_ok]
  constructor
  · rintro ⟨hhint, scan, hscan, h⟩
    obtain ⟨_, hnames, rfl⟩ := scan_eq_ok.mp hscan
    split at h
    · cases h
    · next hmalformed =>
      rw [Except.unit_bind_eq_ok] at h
      obtain ⟨htree, hcount⟩ := h
      split at hcount
      · cases hcount
      · next hsame =>
        rw [ne_eq, not_not, Nat.zero_add] at hsame
        exact ⟨hhint, hnames, by simpa using hmalformed, by simpa using htree, hsame⟩
  · intro h
    refine ⟨h.hint, _, scan_eq_ok.mpr ⟨fun _ => ?_, h.names, rfl⟩, ?_⟩
    · rw [Nat.zero_add, h.count]
      exact h.hint
    · rw [if_neg (by simp [h.wellFormed]), Except.unit_bind_eq_ok]
      exact ⟨by simpa using h.tree, by simp [h.count]⟩

end Scan

section Extraction

variable {env : UnpackEnv} {limits : PackageLimits} {listing : Listing} {archive : Archive}
  {target : Location} {entry : ZipEntry} {s : Unpacked} {disk : Disk} {done : List ZipEntry}
  {copied : Bytes}

theorem takePiece_eq {remaining : Option Nat} {read : Bytes}
    (hbudget : ∀ budget, remaining = some budget → copied.length ≤ budget)
    (h : takePiece remaining copied read = [] ∨
      ¬remaining.any (· < copied.length + (takePiece remaining copied read).length) = true) :
    takePiece remaining copied read = read := by
  cases remaining with
  | none => rfl
  | some budget =>
    have hcopied := hbudget budget rfl
    simp only [takePiece, Option.any_some, decide_eq_true_eq, length_take] at h ⊢
    rw [take_eq_self_iff]
    rcases h with h | h
    · rw [take_eq_nil_iff] at h
      rcases h with h | h
      · omega
      · simp [h]
    · omega

theorem copyReads_bytes {remaining maxBytes : Option Nat} {reads : List Bytes}
    (hbudget : ∀ budget, remaining = some budget → copied.length ≤ budget)
    (h : (copyReads env entry remaining maxBytes copied reads).outcome = .ok ()) :
    (copyReads env entry remaining maxBytes copied reads).bytes =
      (reads.takeWhile (· ≠ [])).flatten := by
  induction reads generalizing copied with
  | nil => simp [copyReads, Content.bytes]
  | cons read reads ih =>
    simp only [copyReads] at h ⊢
    split_ifs at h ⊢ with hend hover
    · have hread := takePiece_eq hbudget (.inl hend)
      rw [hend] at hread
      simp [← hread, Content.bytes]
    · have hread := takePiece_eq hbudget (.inr hover)
      rw [hread] at h hover hend ⊢
      have hnext : ∀ budget, remaining = some budget → (copied ++ read).length ≤ budget := by
        intro budget hsome
        rw [hsome, Option.any_some, decide_eq_true_eq, Nat.not_lt] at hover
        rwa [length_append]
      rw [takeWhile_cons_of_pos (by simpa using hend), flatten_cons, ← ih hnext h]
      rfl

def EntryFits (env : UnpackEnv) (limits : PackageLimits) (unpackedBytes : Nat)
    (entry : ZipEntry) : Prop :=
  ∀ rel, entry.rel? env = some rel →
    checkEntry limits unpackedBytes rel entry = .ok () ∧
      (copyPackageEntry env entry (limits.maxBytes.map (· - unpackedBytes))
        limits.maxBytes).outcome = .ok ()

theorem copyPackageEntry_bytes {remaining maxBytes : Option Nat}
    (h : (copyPackageEntry env entry remaining maxBytes).outcome = .ok ()) :
    (copyPackageEntry env entry remaining maxBytes).bytes = entry.data :=
  copyReads_bytes (fun _ _ => Nat.zero_le _) h

theorem clear_of_compatible {ck : Policy.CollisionKey} {p q : String × Bool} {i j : Item}
    (hp : Policy.isSafeRelativePath p.1 = true) (hq : Policy.isSafeRelativePath q.1 = true)
    (h : Policy.Compatible ck p q) (hi : i.path = parts p.1) (hj : j.path = parts q.1)
    (hip : i.content.isNone = p.2) (hjq : j.content.isNone = q.2) : Clear i j ∧ Clear j i := by
  have hkeys := ck.parts_key
  constructor
  · intro hfile hinit
    rw [hi, hj] at hinit
    have hdir := h.left (by rw [hkeys _ hp, hkeys _ hq]; exact hinit.map _)
    rw [← hip] at hdir
    cases hcontent : i.content <;> simp_all
  · intro hfile hinit
    rw [hi, hj] at hinit
    have hdir := h.right (by rw [hkeys _ hp, hkeys _ hq]; exact hinit.map _)
    rw [← hjq] at hdir
    cases hcontent : j.content <;> simp_all

section PathTree

variable {α : Type} {ck : Policy.CollisionKey} {path : α → Option (String × Bool)}
  (item : α → Option Item) {directory : α → Option (String × Mode)}

/-- In an accepted tree no entry stands in the way of another. -/
theorem clear_of_pathTree {done rest : List α} {next : α}
    (hitems : ∀ a i, item a = some i →
      ∃ p, path a = some p ∧ i.path = parts p.1 ∧ i.content.isNone = p.2)
    (htree : validatePathTreeSet ck.key ((done ++ next :: rest).filterMap path) = .ok ()) :
    (∀ p, path next = some p → Policy.isSafeRelativePath p.1 = true) ∧
      ∀ i, item next = some i → ∀ j ∈ done.filterMap item, Clear j i ∧ Clear i j := by
  obtain ⟨hsafe, hpairs⟩ := Policy.compatible_of_validatePathTreeSet htree
  have hmem : ∀ p, path next = some p → p ∈ (next :: rest).filterMap path := fun p hp =>
    mem_filterMap.mpr ⟨next, by simp, hp⟩
  rw [filterMap_append] at hsafe hpairs
  refine ⟨fun p hp => hsafe p (mem_append_right _ (hmem p hp)), fun i hi j hj => ?_⟩
  obtain ⟨p, hp, hpath, hcontent⟩ := hitems next i hi
  obtain ⟨other, hother, hj⟩ := mem_filterMap.mp hj
  obtain ⟨q, hq, hpath', hcontent'⟩ := hitems other j hj
  have hq : q ∈ done.filterMap path := mem_filterMap.mpr ⟨other, hother, hq⟩
  exact clear_of_compatible (hsafe _ (mem_append_left _ hq))
    (hsafe _ (mem_append_right _ (hmem p hp)))
    ((pairwise_append.mp hpairs).2.2 q hq p (hmem p hp)) hpath' hpath hcontent' hcontent

theorem directories_of_pathTree {entries : List α}
    (hdirectories : ∀ a d, directory a = some d →
      path a = some (d.1, true) ∧ item a = some ⟨parts d.1, none⟩)
    (htree : validatePathTreeSet ck.key (entries.filterMap path) = .ok ()) :
    (∀ d ∈ entries.filterMap directory, Policy.isSafeRelativePath d.1 = true) ∧
    (∀ d ∈ entries.filterMap directory, (⟨parts d.1, none⟩ : Item) ∈ entries.filterMap item) ∧
    (entries.filterMap directory).Pairwise fun l r => parts l.1 ≠ parts r.1 := by
  obtain ⟨hsafe, hpairs⟩ := Policy.compatible_of_validatePathTreeSet htree
  refine ⟨fun d hd => ?_, fun d hd => ?_, ?_⟩
  · obtain ⟨entry, hentry, h⟩ := mem_filterMap.mp hd
    exact hsafe (d.1, true) (mem_filterMap.mpr ⟨entry, hentry, (hdirectories entry d h).1⟩)
  · obtain ⟨entry, hentry, h⟩ := mem_filterMap.mp hd
    exact mem_filterMap.mpr ⟨entry, hentry, (hdirectories entry d h).2⟩
  · rw [pairwise_filterMap] at hpairs ⊢
    refine hpairs.imp fun {a b} h l hl r hr heq => ?_
    have hcompatible := h (l.1, true) (hdirectories a l hl).1 (r.1, true) (hdirectories b r hr).1
    exact hcompatible.distinct (congrArg _ (Policy.parts_injective heq))

end PathTree

theorem after_of_skipped (h : entry.rel? env = none) : s.after env [entry] = s := by
  simp [Unpacked.after, ZipEntry.size, ZipEntry.directory?, h]

theorem after_of_directory (h : entry.rel? env = some rel) (hdir : entry.isDir = true) :
    s.after env [entry] = ⟨s.unpackedBytes + entry.declaredSize,
      s.directories ++ [(rel, entry.mode)]⟩ := by
  simp [Unpacked.after, ZipEntry.size, ZipEntry.directory?, h, hdir]

theorem after_of_file (h : entry.rel? env = some rel) (hdir : entry.isDir = false) :
    s.after env [entry] = { s with unpackedBytes := s.unpackedBytes + entry.declaredSize } := by
  simp [Unpacked.after, ZipEntry.size, ZipEntry.directory?, h, hdir]

theorem built_unpackEntry (hbuilt : Built target (done.filterMap (ZipEntry.item? env)) disk)
    (hname : ∃ rel, packageEntryPath env entry.name = .ok rel)
    (hsafe : ∀ rel, entry.rel? env = some rel → Policy.isSafeRelativePath rel = true)
    (hclear : ∀ item, entry.item? env = some item →
      ∀ i ∈ done.filterMap (ZipEntry.item? env), Clear i item ∧ Clear item i) :
    Spec (unpackEntry env limits target s entry) disk
      (fun s' disk' => EntryFits env limits s.unpackedBytes entry ∧ s' = s.after env [entry] ∧
        Built target ((done ++ [entry]).filterMap (ZipEntry.item? env)) disk')
      fun _ _ => ¬EntryFits env limits s.unpackedBytes entry := by
  obtain ⟨rel, hrel⟩ := hname
  rw [unpackEntry, spec_bind, spec_liftExcept, hrel]
  refine ⟨fun rel' h => ?_, fun _ h => by cases h⟩
  cases h
  rw [filterMap_append]
  refine spec_ite.mpr ⟨fun hempty => ?_, fun hne => ?_⟩
  · have hskip : entry.rel? env = none := rel?_of_empty (hempty ▸ hrel)
    have hitem : [entry].filterMap (ZipEntry.item? env) = [] := by simp [ZipEntry.item?, hskip]
    refine spec_pure.mpr ⟨fun r hr => ?_, (after_of_skipped hskip).symm, ?_⟩
    · rw [hskip] at hr
      cases hr
    · rwa [hitem, append_nil]
  · have hsome : entry.rel? env = some rel := rel?_eq_some hrel hne
    have hfits : EntryFits env limits s.unpackedBytes entry ↔
        checkEntry limits s.unpackedBytes rel entry = .ok () ∧
          (copyPackageEntry env entry (limits.maxBytes.map (· - s.unpackedBytes))
            limits.maxBytes).outcome = .ok () := by
      simp [EntryFits, hsome]
    rw [hfits, spec_bind, spec_liftExcept]
    refine ⟨fun _ hcheck => ?_, fun error hcheck h => ?_⟩
    · refine spec_ite.mpr ⟨fun hdir => ?_, fun hdir => ?_⟩
      · have hitem : entry.item? env = some ⟨parts rel, none⟩ := by
          simp [ZipEntry.item?, hsome, hdir]
        rw [spec_bind, spec_liftExcept]
        refine ⟨fun _ houtcome => ?_, fun error houtcome h => ?_⟩
        · rw [spec_bind]
          refine (built_placeDirectory env.host hbuilt (hsafe rel hsome)
            fun i hi => (hclear _ hitem i hi).1).mono (fun _ disk' hdisk => ?_)
              fun _ _ hfalse => hfalse.elim
          refine spec_pure.mpr ⟨⟨hcheck, houtcome⟩, (after_of_directory hsome hdir).symm, ?_⟩
          simpa [hitem] using hdisk
        · rw [houtcome] at h
          cases h.2
      · have hdir : entry.isDir = false := by simpa using hdir
        rw [spec_bind]
        by_cases houtcome : (copyPackageEntry env entry (limits.maxBytes.map (· - s.unpackedBytes))
            limits.maxBytes).outcome = .ok ()
        · have hitem : entry.item? env = some ⟨parts rel, some (
              (copyPackageEntry env entry (limits.maxBytes.map (· - s.unpackedBytes))
                limits.maxBytes).bytes, entry.mode)⟩ := by
            simp [ZipEntry.item?, hsome, hdir, copyPackageEntry_bytes houtcome]
          refine (built_placeFile env.host houtcome hbuilt (hsafe rel hsome)
            (hclear _ hitem)).mono (fun _ disk' hdisk => ?_) fun _ _ hfalse => hfalse.elim
          refine spec_pure.mpr ⟨⟨hcheck, houtcome⟩, (after_of_file hsome hdir).symm, ?_⟩
          simpa [hitem] using hdisk
        · exact (written_placeFile env.host target rel _ _ disk).mono
            (fun _ _ h => absurd h.1 houtcome) fun _ _ _ h => houtcome h.2
    · rw [hcheck] at h
      cases h.1

def AllFit (env : UnpackEnv) (limits : PackageLimits) : Nat → List ZipEntry → Prop
  | _, [] => True
  | unpackedBytes, entry :: entries =>
    EntryFits env limits unpackedBytes entry ∧
      AllFit env limits (unpackedBytes + entry.size env) entries

theorem item?_eq_some {item : Item} :
    entry.item? env = some item ↔ ∃ rel, entry.rel? env = some rel ∧
      ⟨parts rel, if entry.isDir then none else some (entry.data, entry.mode)⟩ = item := by
  rw [ZipEntry.item?, Option.map_eq_some_iff]

theorem clear_of_tree {rest : List ZipEntry}
    (htree : validatePathTreeSet env.collisionKey.key
      ((done ++ entry :: rest).filterMap (ZipEntry.path? env)) = .ok ()) :
    (∀ rel, entry.rel? env = some rel → Policy.isSafeRelativePath rel = true) ∧
      ∀ item, entry.item? env = some item →
        ∀ i ∈ done.filterMap (ZipEntry.item? env), Clear i item ∧ Clear item i := by
  have hclear := clear_of_pathTree (ZipEntry.item? env) (fun a i hi => ?_) htree
  · exact ⟨fun rel hrel => hclear.1 (rel, entry.isDir) (by simp [ZipEntry.path?, hrel]), hclear.2⟩
  · obtain ⟨rel, hrel, rfl⟩ := item?_eq_some.mp hi
    refine ⟨(rel, a.isDir), by simp [ZipEntry.path?, hrel], rfl, ?_⟩
    cases a.isDir <;> rfl

theorem after_cons (entries : List ZipEntry) :
    (s.after env [entry]).after env entries = s.after env (entry :: entries) := by
  have hcons : entry :: entries = [entry] ++ entries := rfl
  rw [hcons]
  simp only [Unpacked.after, map_append, sum_append, filterMap_append,
    append_assoc, Nat.add_assoc]

/-- The entries of an admitted archive are all placed, unless one of them does not fit. -/
theorem built_entries {done rest : List ZipEntry}
    (hbuilt : Built target (done.filterMap (ZipEntry.item? env)) disk)
    (hnames : ∀ entry ∈ rest, ∃ rel, packageEntryPath env entry.name = .ok rel)
    (htree : validatePathTreeSet env.collisionKey.key
      ((done ++ rest).filterMap (ZipEntry.path? env)) = .ok ()) :
    Spec (rest.foldlM (unpackEntry env limits target) s) disk
      (fun s' disk' => AllFit env limits s.unpackedBytes rest ∧ s' = s.after env rest ∧
        Built target ((done ++ rest).filterMap (ZipEntry.item? env)) disk')
      fun _ _ => ¬AllFit env limits s.unpackedBytes rest := by
  induction rest generalizing done s disk with
  | nil =>
    refine spec_pure.mpr ⟨trivial, by simp [Unpacked.after], ?_⟩
    rwa [append_nil]
  | cons entry rest ih =>
    obtain ⟨hsafe, hclear⟩ := clear_of_tree htree
    obtain ⟨hname, hnames⟩ := forall_mem_cons.mp hnames
    have hsize : (s.after env [entry]).unpackedBytes = s.unpackedBytes + entry.size env := by
      simp [Unpacked.after]
    rw [append_cons] at htree ⊢
    rw [foldlM_cons, spec_bind]
    refine (built_unpackEntry hbuilt hname hsafe hclear).mono (fun s' disk' h => ?_)
      fun _ _ h hall => h hall.1
    obtain ⟨hfits, rfl, hnext⟩ := h
    refine (ih hnext hnames htree).mono (fun s'' disk'' h => ?_) fun _ _ h hall => ?_
    · rw [hsize, after_cons] at h
      exact ⟨⟨hfits, h.1⟩, h.2⟩
    · rw [hsize] at h
      exact h hall.2

/-- A directory in which there is nothing. -/
structure EmptyDirectory (disk : Disk) (target : Location) : Prop where
  directory : ∃ mode, disk.at target = some (.directory mode)
  empty : ∀ location, Beneath target location → disk.at location = none

theorem directory?_eq_some {d : String × Mode} (h : entry.directory? env = some d) :
    entry.isDir = true ∧ entry.rel? env = some d.1 := by
  rw [ZipEntry.directory?] at h
  split_ifs at h with hdir
  obtain ⟨rel, hrel, rfl⟩ := Option.map_eq_some_iff.mp h
  exact ⟨hdir, hrel⟩

theorem directory?_placed {d : String × Mode} (h : entry.directory? env = some d) :
    entry.path? env = some (d.1, true) ∧ entry.item? env = some ⟨parts d.1, none⟩ := by
  obtain ⟨hdir, hrel⟩ := directory?_eq_some h
  simp [ZipEntry.path?, ZipEntry.item?, hrel, hdir]

theorem not_beneath_self (target : Location) : ¬Beneath target target := by
  rintro ⟨rest, hne, h⟩
  exact hne (self_eq_append_right.mp h)

/-- The end of an unpacking that succeeds, and what a failed one has met. -/
theorem unpackPackage_spec {mode : Mode} (hmode : disk.at target = some (.directory mode))
    (hempty : ∀ location, Beneath target location → disk.at location = none) :
    Spec (unpackPackage env limits listing archive target) disk
      (fun _ disk' => Admitted env archive limits.maxEntries ∧ AllFit env limits 0 archive.entries ∧
        ∃ mid, Built target (archive.entries.filterMap (ZipEntry.item? env)) mid ∧
          mid.at target = some (.directory mode) ∧
          verifyPackageInventory env.toEnv limits listing target mid = .ok () ∧
          Settled target (archive.entries.filterMap (ZipEntry.item? env))
            (archive.entries.filterMap (ZipEntry.directory? env)) disk')
      fun _ _ => ¬Admitted env archive limits.maxEntries ∨ ¬env.host.enters mode = true ∨
        ¬AllFit env limits 0 archive.entries ∨
        ∃ mid, Built target (archive.entries.filterMap (ZipEntry.item? env)) mid ∧
          mid.at target = some (.directory mode) ∧
          verifyPackageInventory env.toEnv limits listing target mid ≠ .ok () := by
  rw [unpackPackage, spec_bind, spec_liftExcept]
  refine ⟨fun _ hvalid => ?_, fun error hvalid => .inl fun hadmitted => ?_⟩
  · have hadmitted := validateEntryCount_iff.mp hvalid
    rw [spec_bind, openPinnedDir, spec_bind]
    apply spec_get.mpr
    simp only [hmode]
    refine spec_ite.mpr ⟨fun henters => spec_pure.mpr ?_,
      fun hclosed => EStateM.spec_throw.mpr (.inr (.inl hclosed))⟩
    have hbuilt := @built_entries env limits target {} disk [] archive.entries (built_nil hempty)
      hadmitted.names hadmitted.tree
    have hcontained : (archive.entries.foldlM (unpackEntry env limits target) {}).Tracks
        (Contained target) := EStateM.tracks_foldlM (fun s entry _ => tracks_unpackEntry s entry) _
    rw [spec_bind]
    refine (hbuilt.and (hcontained disk)).mono (fun s mid h => ?_) fun _ _ h =>
      .inr (.inr (.inl h.1))
    obtain ⟨⟨hall, rfl, hmid⟩, hsame⟩ := h
    rw [nil_append] at hmid
    have htarget : mid.at target = some (.directory mode) := by
      rw [hsame.outside target (not_beneath_self target), hmode]
    rw [hadmitted.wellFormed]
    rw [if_neg (by simp), spec_bind]
    apply spec_get.mpr
    rw [spec_bind, spec_liftExcept]
    refine ⟨fun _ hverified => ?_, fun error hverified => ?_⟩
    · obtain ⟨hsafe, hitems, hnew⟩ := directories_of_pathTree _
        (fun _ _ => directory?_placed) hadmitted.tree
      have hdirectories : (({} : Unpacked).after env archive.entries).directories =
          archive.entries.filterMap (ZipEntry.directory? env) := by
        simp [Unpacked.after]
      rw [hdirectories]
      refine (settled_restoreDirectoryModes env.host hmid hsafe hitems hnew).mono
        (fun _ disk' hsettled => ?_) fun _ _ hfalse => hfalse.elim
      exact ⟨hadmitted, hall, mid, hmid, htarget, hverified, hsettled⟩
    · refine .inr (.inr (.inr ⟨mid, hmid, htarget, fun hok => ?_⟩))
      rw [hok] at hverified
      cases hverified
  · rw [validateEntryCount_iff.mpr hadmitted] at hvalid
    cases hvalid

end Extraction

def Node.Plain : Node → Prop
  | .file _ mode => Mode.Clean mode
  | .directory mode => Mode.Clean mode
  | .symlink => False

/-- Exactly the listed files and the two metadata files, as they are listed, under names that
differ in their collision keys. -/
structure Exact (env : UnpackEnv) (target : Location) (disk : Disk) (expected : BTreeMap Listed) :
    Prop where
  files : ∀ path, path ≠ [] →
    ((∃ bytes mode, disk.at (target ++ path) = some (.file bytes mode)) ↔
      ∃ relative, path = parts relative ∧
        (isMetadata relative = true ∨ expected.contains relative = true))
  listed : ∀ relative listed, expected[relative]? = some listed →
    ∃ bytes, disk.at (target ++ parts relative) = some (.file bytes listed.mode) ∧
      env.sha256 bytes = listed.sha256
  plain : ∀ path node, path ≠ [] → disk.at (target ++ path) = some node → node.Plain
  distinct : ∀ path path', path ≠ [] → path' ≠ [] →
    (disk.at (target ++ path)).isSome = true → (disk.at (target ++ path')).isSome = true →
    env.collisionKey.key (portableRelativePath path) =
      env.collisionKey.key (portableRelativePath path') → path = path'

section Exact

variable {env : UnpackEnv} {limits : PackageLimits} {listing : Listing} {archive : Archive}
  {target : Location} {disk built : Disk} {path : List String}

theorem names_of_built (hadmitted : Admitted env archive limits.maxEntries)
    (hbuilt : Built target (archive.entries.filterMap (ZipEntry.item? env)) built)
    (hpath : path ≠ []) {node : Node} (hnode : built.at (target ++ path) = some node) :
    parts (portableRelativePath path) = path ∧
      portableRelativePath path ≠ "" := by
  obtain ⟨item, hitem, hinit⟩ := hbuilt.exists_item hpath hnode
  obtain ⟨entry, hentry, hitem⟩ := mem_filterMap.mp hitem
  obtain ⟨rel, hrel, rfl⟩ := item?_eq_some.mp hitem
  have hsafe := (Policy.compatible_of_validatePathTreeSet hadmitted.tree).1 (rel, entry.isDir)
    (mem_filterMap.mpr ⟨entry, hentry, by simp [ZipEntry.path?, hrel]⟩)
  have hparts : parts (portableRelativePath path) = path :=
    Policy.parts_portableRelativePath hpath fun name hname =>
      Policy.slash_notMem_part (hinit.subset hname)
  refine ⟨hparts, fun hempty => ?_⟩
  have hmem : "" ∈ path := by
    rw [← hparts, hempty]
    decide
  exact (safe_part hsafe (hinit.subset hmem)).1 rfl

theorem isSome_compare {items : List Item} {modes : List (String × Mode)}
    (hsettled : Settled target items modes disk) (hbuilt : Built target items built)
    (hpath : path ≠ []) :
    (disk.at (target ++ path)).isSome = (built.at (target ++ path)).isSome := by
  rcases hsettled.compare hbuilt hpath with ⟨hb, hd⟩ | ⟨_, _, _, _, _, _, hb, hd⟩ | ⟨hb, _, hd, _⟩
  all_goals rw [hb, hd]
  all_goals rfl

/-- What the inventory has found before the last modes is what the package is. -/
theorem exact_of_verified {mode : Mode} {sbomBytes provenanceBytes : Bytes}
    {sbom provenance : Value} {expected : BTreeMap Listed}
    (hadmitted : Admitted env archive limits.maxEntries)
    (hbuilt : Built target (archive.entries.filterMap (ZipEntry.item? env)) built)
    (hverified : Verified env.toEnv limits target built mode sbomBytes provenanceBytes sbom
      provenance expected)
    (hsettled : Settled target (archive.entries.filterMap (ZipEntry.item? env))
      (archive.entries.filterMap (ZipEntry.directory? env)) disk) :
    Exact env target disk expected := by
  have hfile : ∀ path, path ≠ [] → ∀ bytes mode,
      disk.at (target ++ path) = some (.file bytes mode) ↔
        built.at (target ++ path) = some (.file bytes mode) := by
    intro path hpath bytes mode
    rcases hsettled.compare hbuilt hpath with
      ⟨hb, hd⟩ | ⟨_, _, _, _, _, _, hb, hd⟩ | ⟨hb, _, hd, _⟩
    all_goals rw [hb, hd]
    simp
  have hentry : ∀ path, path ≠ [] → ∀ node, built.at (target ++ path) = some node →
      (⟨path, node⟩ : WalkEntry) ∈ built.entries target := fun path hpath node hnode =>
    mem_entries.mpr ⟨hpath, hnode⟩
  -- A listed path leads to a file with the listed digest and mode.
  have hlisted : ∀ relative listed, expected[relative]? = some listed →
      ∃ bytes, built.at (target ++ parts relative) = some (.file bytes listed.mode) ∧
        env.sha256 bytes = listed.sha256 := by
    intro relative listed h
    have hkey : relative ∈ expected.keys := by
      rw [Std.ExtTreeMap.mem_keys, Std.ExtTreeMap.mem_iff_isSome_getElem?, h]
      rfl
    obtain ⟨⟨path, node⟩, hmem, hactual⟩ := hverified.present relative hkey
    obtain ⟨⟨bytes, fileMode, rfl⟩, hmeta, rfl⟩ := actual_eq_some.mp hactual
    obtain ⟨hpath, hat⟩ := mem_entries.mp hmem
    obtain ⟨hparts, _⟩ := names_of_built hadmitted hbuilt hpath hat
    have hok := hverified.entries _ hmem
    simp only [EntryOk, hmeta, Bool.false_eq_true, false_or] at hok
    rw [h, Option.some.injEq] at hok
    obtain ⟨_, rfl⟩ := hok
    have hclean : sanitizeModeBits fileMode = fileMode := by
      rcases hsettled.compare hbuilt hpath with
        ⟨hb, _⟩ | ⟨_, _, _, mode, _, _, hb, _⟩ | ⟨hb, _⟩
      all_goals rw [hat] at hb
      all_goals cases hb
      exact sanitizeModeBits_idem mode
    refine ⟨bytes, ?_, rfl⟩
    rw [WalkEntry.relative, hparts, hat, hclean]
  have hmetadata : ∀ relative, isMetadata relative = true →
      ∃ bytes mode, built.at (target ++ parts relative) = some (.file bytes mode) := by
    intro relative hmeta
    rw [isMetadata, Bool.or_eq_true, decide_eq_true_eq, decide_eq_true_eq] at hmeta
    rcases hmeta with rfl | rfl
    · obtain ⟨fileMode, hat⟩ := readBounded_eq_ok hverified.sbom_read
      exact ⟨_, _, hat⟩
    · obtain ⟨fileMode, hat⟩ := readBounded_eq_ok hverified.provenance_read
      exact ⟨_, _, hat⟩
  constructor
  · intro path hpath
    simp only [hfile path hpath]
    constructor
    · rintro ⟨bytes, fileMode, hat⟩
      obtain ⟨hparts, _⟩ := names_of_built hadmitted hbuilt hpath hat
      refine ⟨portableRelativePath path, hparts.symm, ?_⟩
      rcases hverified.entries _ (hentry path hpath _ hat) with hmeta | ⟨_, hlisted⟩
      · exact .inl hmeta
      · right
        rw [Std.ExtTreeMap.contains_iff_mem, Std.ExtTreeMap.mem_iff_isSome_getElem?]
        rw [WalkEntry.relative] at hlisted
        rw [hlisted]
        rfl
    · rintro ⟨relative, rfl, hmeta | hcontains⟩
      · exact hmetadata relative hmeta
      · rw [Std.ExtTreeMap.contains_iff_mem, Std.ExtTreeMap.mem_iff_isSome_getElem?,
          Option.isSome_iff_exists] at hcontains
        obtain ⟨listed, h⟩ := hcontains
        obtain ⟨bytes, hat, _⟩ := hlisted relative listed h
        exact ⟨bytes, _, hat⟩
  · intro relative listed h
    obtain ⟨bytes, hat, hsha⟩ := hlisted relative listed h
    exact ⟨bytes, (hfile _ (Policy.parts_ne_nil _) _ _).mpr hat, hsha⟩
  · intro path node hpath hnode
    rcases hsettled.compare hbuilt hpath with
      ⟨_, hd⟩ | ⟨_, _, _, _, _, _, _, hd⟩ | ⟨_, _, hd, hclean⟩
    all_goals rw [hd] at hnode
    all_goals cases hnode
    · exact clean_sanitizeModeBits _
    · exact hclean
  · intro path path' hpath hpath' hsome hsome' hkey
    rw [isSome_compare hsettled hbuilt hpath, Option.isSome_iff_exists] at hsome
    rw [isSome_compare hsettled hbuilt hpath', Option.isSome_iff_exists] at hsome'
    obtain ⟨node, hnode⟩ := hsome
    obtain ⟨node', hnode'⟩ := hsome'
    obtain ⟨hparts, hne⟩ := names_of_built hadmitted hbuilt hpath hnode
    obtain ⟨hparts', hne'⟩ := names_of_built hadmitted hbuilt hpath' hnode'
    have hmem : ∀ path node, path ≠ [] → portableRelativePath path ≠ "" →
        built.at (target ++ path) = some node → (portableRelativePath path, node.isDir) ∈
          (built.entries target).filterMap WalkEntry.namespaceEntry := by
      intro path node hpath hne hnode
      refine mem_filterMap.mpr ⟨_, hentry path hpath node hnode, ?_⟩
      simp [WalkEntry.namespaceEntry, WalkEntry.relative, hne]
    by_contra hdiffer
    have hpairs := (Policy.compatible_of_validatePathTreeSet hverified.tree).2
    refine (hpairs.forall (hmem path node hpath hne hnode)
      (hmem path' node' hpath' hne' hnode') fun heq => hdiffer ?_).distinct hkey
    rw [← hparts, ← hparts', (Prod.mk.inj heq).1]

/-- Whatever the archive is, unpacking it into an empty directory changes nothing outside and
at no moment exceeds the limit of bytes; what it accepts is exactly what the SBOM lists. -/
theorem unpack_contained_bounded_exact (hempty : EmptyDirectory disk target) :
    (∀ disk', Ends (unpackPackage env limits listing archive target) disk disk' →
      (∀ location, ¬Beneath target location → disk'.at location = disk.at location) ∧
      ∃ effects, disk'.log = disk.log ++ effects ∧ ∀ moment, moment <+: effects →
        (∀ effect ∈ moment, ∀ location ∈ effect.locations, Beneath target location) ∧
        ∀ limit, limits.maxBytes = some limit → written moment ≤ limit) ∧
    ∀ disk', unpackPackage env limits listing archive target disk = .ok () disk' →
      ∃ bytes mode sbom expected,
        disk'.at (target ++ [sbomPath]) = some (.file bytes mode) ∧
        env.fromSlice bytes = .ok sbom ∧ expectedFiles sbom = .ok expected ∧
        Exact env target disk' expected := by
  obtain ⟨⟨mode, hmode⟩, hnothing⟩ := hempty
  constructor
  · intro disk' hends
    obtain ⟨houtside, effects, hlog, hbeneath⟩ := tracks_unpackPackage.of_ends hends
    have hwithin : WithinLimit limits (written disk.log) disk' := by
      rcases hends with ⟨_, hok⟩ | ⟨_, herror⟩
      · exact (within_unpackPackage disk).of_ok hok
      · exact (within_unpackPackage disk).of_error herror
    refine ⟨houtside, effects, hlog, fun moment hmoment => ⟨?_, ?_⟩⟩
    · exact fun effect heffect => hbeneath effect (hmoment.subset heffect)
    · intro limit hlimit
      obtain ⟨rest, rfl⟩ := hmoment
      have htotal := hwithin limit hlimit
      rw [hlog, written_append, written_append] at htotal
      omega
  · intro disk' hok
    obtain ⟨hadmitted, _, mid, hbuilt, htarget, hverify, hsettled⟩ :=
      (unpackPackage_spec hmode hnothing).of_ok hok
    obtain ⟨sbomBytes, provenanceBytes, sbom, provenance, expected, hverified⟩ :=
      verified_of_verifyPackageInventory htarget hverify
    obtain ⟨fileMode, hat⟩ := readBounded_eq_ok hverified.sbom_read
    have hexact := exact_of_verified hadmitted hbuilt hverified hsettled
    refine ⟨sbomBytes, fileMode, sbom, expected, ?_, hverified.sbom_parsed, hverified.listed,
      hexact⟩
    have hpath : [sbomPath] ≠ [] := by simp
    rcases hsettled.compare hbuilt hpath with
      ⟨hb, _⟩ | ⟨_, _, _, _, _, _, hb, hd⟩ | ⟨hb, _⟩
    all_goals rw [hat] at hb
    all_goals cases hb
    exact hd

end Exact

/-- A collision key that leaves names as they are. -/
theorem parts_id (path : String) (_ : Policy.isSafeRelativePath path = true) :
    parts (id path) = (parts path).map id :=
  (map_id _).symm

def plainKey : Policy.CollisionKey where
  key := id
  parts_key := parts_id

def textBytes (text : String) : Bytes :=
  text.toList.map fun c => UInt8.ofNat c.toNat

def smallSbom : Value :=
  .obj [("spdxVersion", .str "SPDX-2.3"), ("files", .arr [.obj [("fileName", .str "a/x"),
    ("checksums", .arr [.obj [("checksumValue", .str "1")]]), ("mode", .num 0o644)]])]

def smallProvenance : Value :=
  .obj [("_type", .str "https://in-toto.io/Statement/v1")]

/-- Names are ASCII, a digest is a length, and two texts are JSON. -/
def smallEnv : UnpackEnv where
  host := ownerHost
  collisionKey := plainKey
  sha256 bytes := toString bytes.length
  fromSlice bytes :=
    if bytes = [1] then .ok smallSbom
    else if bytes = [2] then .ok smallProvenance
    else .error "expected value"
  fromUtf8 bytes := some (String.ofList (bytes.map fun b => Char.ofNat b.toNat))
  crc32 _ := 0

def smallEntry (name : String) (isDir : Bool) (attributes : BitVec 32) (data : Bytes) :
    ZipEntry where
  name := textBytes name
  isDir := isDir
  externalAttributes := attributes <<< 16
  encrypted := false
  method := .store
  declaredSize := data.length
  crc := 0
  located := true
  reads := if data = [] then [] else [data]
  broken := false

/-- A directory with a file that everyone may write to, and the metadata. -/
def smallArchive : Archive where
  entries := [smallEntry "a/" true 0o040755 [], smallEntry "./a\\x" false 0o100646 [7],
    smallEntry sbomPath false 0o100644 [1], smallEntry provenancePath false 0o100644 [2]]
  entriesHint := 4
  malformed := false

def asListed : Listing where
  order := id
  perm := List.Perm.refl

def emptyDisk : Disk where
  files := (∅ : Files).insert ["out"] (.directory 0o755)

theorem emptyDisk_empty : EmptyDirectory emptyDisk ["out"] where
  directory := ⟨0o755, by decide⟩
  empty := by
    rintro location ⟨rest, hrest, rfl⟩
    have hne : ["out"] ++ rest ≠ ["out"] := by simpa using hrest
    exact (AList.lookup_insert_ne hne).trans (AList.lookup_empty _)

theorem unpack_contained_bounded_exact_small :
    EmptyDirectory emptyDisk ["out"] ∧
      ∃ disk', unpackPackage smallEnv .default asListed smallArchive ["out"] emptyDisk =
          .ok () disk' ∧
        (∀ location, ¬Beneath ["out"] location → disk'.at location = emptyDisk.at location) ∧
        ∃ expected, Exact smallEnv ["out"] disk' expected := by
  have hreturns : Spec (unpackPackage smallEnv .default asListed smallArchive ["out"]) emptyDisk
      (fun _ _ => True) fun _ _ => False := by
    decide +kernel
  obtain ⟨_, disk', hok, _⟩ := hreturns.returns
  obtain ⟨hcontained, hexact⟩ := @unpack_contained_bounded_exact smallEnv .default asListed
    smallArchive ["out"] emptyDisk emptyDisk_empty
  obtain ⟨_, _, _, expected, _, _, _, hexact⟩ := hexact disk' hok
  exact ⟨emptyDisk_empty, disk', hok, (hcontained disk' (.inl ⟨_, hok⟩)).1, expected, hexact⟩

end Package

end Qcg
