import Qcg.Service.PackageDisk

/-!
# Building a package tree

What stands beneath the target while directories and files are placed one after another: each
file with its bytes and sanitized mode, each directory on the way to an item owner-only, and
nothing else. When no file stands in the way of another item, every placement succeeds, in
whatever order the items come; the final modes of the directories are given deepest first, so
that no parent is closed before its children are reached.
-/

namespace Qcg

open List
open Policy (isSafeRelativePath parts parts_ne_nil)

namespace Package

open EStateM (Spec spec_bind spec_get spec_ite spec_modify spec_pure)

/-- A directory, or a file with its bytes and its mode before it is sanitized. -/
structure Item where
  path : List String
  content : Option (Bytes × Mode)

/-- The first item is not a file in the place of the second one or above it. -/
def Clear (i j : Item) : Prop :=
  i.content.isSome = true → ¬i.path <+: j.path

/-- Exactly the items stand beneath the root, with the directories that lead to them. -/
structure Built (root : Location) (items : List Item) (disk : Disk) : Prop where
  file : ∀ item ∈ items, ∀ bytes mode, item.content = some (bytes, mode) →
    disk.at (root ++ item.path) = some (.file bytes (sanitizeModeBits mode))
  directory : ∀ item ∈ items, ∀ path, path ≠ [] → path <+: item.path →
    item.content = none ∨ path ≠ item.path →
    disk.at (root ++ path) = some (.directory packageBuildDirMode)
  absent : ∀ path, path ≠ [] → (∀ item ∈ items, ¬path <+: item.path) →
    disk.at (root ++ path) = none

variable {root : Location} {items : List Item} {disk disk' : Disk}

theorem built_nil (h : ∀ location, Beneath root location → disk.at location = none) :
    Built root [] disk where
  file := by simp
  directory := by simp
  absent path hpath _ := h _ ⟨path, hpath, rfl⟩

theorem Built.atRoot (h : Built root items disk) : Built root (items ++ [⟨[], none⟩]) disk where
  file item hitem bytes mode hcontent := by
    rcases mem_append.mp hitem with hitem | hitem
    · exact h.file item hitem bytes mode hcontent
    · rw [mem_singleton.mp hitem] at hcontent
      cases hcontent
  directory item hitem path hpath hinit hwhich := by
    rcases mem_append.mp hitem with hitem | hitem
    · exact h.directory item hitem path hpath hinit hwhich
    · rw [mem_singleton.mp hitem] at hinit
      exact absurd (prefix_nil.mp hinit) hpath
  absent path hpath hnone :=
    h.absent path hpath fun item hitem => hnone item (mem_append_left _ hitem)

def Item.node (item : Item) : Node :=
  match item.content with
  | none => .directory packageBuildDirMode
  | some (bytes, mode) => .file bytes (sanitizeModeBits mode)

/-- One more item in a directory that is there already. -/
theorem Built.step {parent : List String} {name : String} {item : Item}
    (h : Built root (items ++ [⟨parent, none⟩]) disk) (hpath : item.path = parent ++ [name])
    (hclear : ∀ i ∈ items, Clear i item ∧ Clear item i)
    (hnew : disk'.at (root ++ item.path) = some item.node)
    (hsame : ∀ path, path ≠ item.path → disk'.at (root ++ path) = disk.at (root ++ path)) :
    Built root (items ++ [item]) disk' := by
  have hparent : (⟨parent, none⟩ : Item) ∈ items ++ [⟨parent, none⟩] := by simp
  constructor
  · intro i hi bytes mode hcontent
    rcases mem_append.mp hi with hi | hi
    · have hne : i.path ≠ item.path := fun heq =>
        (hclear i hi).1 (by rw [hcontent]; rfl) (heq ▸ prefix_rfl)
      rw [hsame i.path hne]
      exact h.file i (mem_append_left _ hi) bytes mode hcontent
    · obtain rfl := mem_singleton.mp hi
      rw [hnew, Item.node, hcontent]
  · intro i hi path hne hinit hwhich
    by_cases heq : path = item.path
    · have hdirectory : item.content = none := by
        rcases mem_append.mp hi with hi | hi
        · by_contra hfile
          exact (hclear i hi).2 (Option.isSome_iff_ne_none.mpr hfile) (heq ▸ hinit)
        · obtain rfl := mem_singleton.mp hi
          exact hwhich.resolve_right fun hne => hne heq
      rw [heq, hnew, Item.node, hdirectory]
    · rw [hsame path heq]
      rcases mem_append.mp hi with hi | hi
      · exact h.directory i (mem_append_left _ hi) path hne hinit hwhich
      · obtain rfl := mem_singleton.mp hi
        rw [hpath] at hinit heq
        have hbelow := (prefix_concat_iff.mp hinit).resolve_left heq
        exact h.directory _ hparent path hne hbelow (.inl rfl)
  · intro path hne hnone
    have hpast : path ≠ item.path := fun heq =>
      hnone item (by simp) (heq ▸ prefix_rfl)
    rw [hsame path hpast]
    apply h.absent path hne
    intro i hi hinit
    rcases mem_append.mp hi with hi | hi
    · exact hnone i (mem_append_left _ hi) hinit
    · obtain rfl := mem_singleton.mp hi
      apply hnone item (by simp)
      rw [hpath]
      exact hinit.trans (prefix_append _ _)

variable {parent : List String} {name : String}

theorem Built.at_place (h : Built root (items ++ [⟨parent, none⟩]) disk)
    (hclear : ∀ i ∈ items, Clear i ⟨parent ++ [name], none⟩) :
    disk.at (root ++ (parent ++ [name])) = none ∨
      disk.at (root ++ (parent ++ [name])) = some (.directory packageBuildDirMode) := by
  have hlonger : ¬parent ++ [name] <+: parent := by
    intro hinit
    have hlength := hinit.length_le
    simp only [length_append, length_singleton] at hlength
    omega
  by_cases hsome : ∃ i ∈ items, parent ++ [name] <+: i.path
  · right
    obtain ⟨i, hi, hinit⟩ := hsome
    apply h.directory i (mem_append_left _ hi) _ (by simp) hinit
    by_cases hcontent : i.content = none
    · exact .inl hcontent
    · right
      intro heq
      exact hclear i hi (Option.isSome_iff_ne_none.mpr hcontent) (heq ▸ prefix_rfl)
  · left
    apply h.absent _ (by simp)
    intro i hi hinit
    rcases mem_append.mp hi with hi | hi
    · exact hsome ⟨i, hi, hinit⟩
    · obtain rfl := mem_singleton.mp hi
      exact hlonger hinit

theorem Disk.at_put (disk : Disk) (location : Location) (node : Node) (effect : Effect)
    (other : Location) : (disk.put location node effect).at other =
      if other = location then some node else disk.at other := by
  split_ifs with h
  · rw [h]
    exact AList.lookup_insert _
  · exact AList.lookup_insert_ne h

variable (host : Host)

theorem enters_build : host.enters packageBuildDirMode = true :=
  host.enters_owner _ (by decide)

theorem Built.directory_step (h : Built root (items ++ [⟨parent, none⟩]) disk)
    (hclear : ∀ i ∈ items, Clear i ⟨parent ++ [name], none⟩)
    (hdisk : ∀ location, disk'.at location = if location = root ++ (parent ++ [name]) then
      some (.directory packageBuildDirMode) else disk.at location) :
    Built root (items ++ [⟨parent ++ [name], none⟩]) disk' := by
  refine h.step rfl (fun i hi => ⟨hclear i hi, fun hfile => by cases hfile⟩) ?_ ?_
  · rw [hdisk, if_pos rfl]
    rfl
  · intro path hpath
    rw [hdisk, if_neg fun heq => hpath (append_cancel_left heq)]

theorem built_pinnedSubdir (h : Built root (items ++ [⟨parent, none⟩]) disk) (hname : Ordinary name)
    (hclear : ∀ i ∈ items, Clear i ⟨parent ++ [name], none⟩) :
    Spec (pinnedSubdir host (root ++ parent) name) disk
      (fun dir disk' => dir = root ++ (parent ++ [name]) ∧
        Built root (items ++ [⟨parent ++ [name], none⟩]) disk')
      fun _ _ => False := by
  refine spec_bind.mpr (spec_get.mpr ?_)
  rw [child_of_ordinary hname, append_assoc]
  rcases h.at_place hclear with hat | hat
  · rw [hat]
    refine spec_bind.mpr (spec_modify.mpr (spec_pure.mpr ⟨rfl, ?_⟩))
    exact h.directory_step hclear (disk.at_put _ _ _)
  · rw [hat]
    refine spec_ite.mpr ⟨fun _ => spec_pure.mpr ⟨rfl, ?_⟩, ?_⟩
    · apply h.directory_step hclear
      intro location
      split_ifs with hlocation
      · rw [hlocation, hat]
      · rfl
    · exact fun hclosed => absurd (enters_build host) hclosed

variable {names : List String}

theorem built_parents (h : Built root (items ++ [⟨parent, none⟩]) disk)
    (hnames : ∀ name ∈ names, Ordinary name)
    (hclear : ∀ i ∈ items, Clear i ⟨parent ++ names, none⟩) :
    Spec (names.foldlM (pinnedSubdir host) (root ++ parent)) disk
      (fun dir disk' => dir = root ++ (parent ++ names) ∧
        Built root (items ++ [⟨parent ++ names, none⟩]) disk')
      fun _ _ => False := by
  induction names generalizing parent disk with
  | nil =>
    rw [List.foldlM_nil, append_nil]
    exact spec_pure.mpr ⟨rfl, h⟩
  | cons name names ih =>
    have hcons : parent ++ name :: names = parent ++ [name] ++ names := by simp
    rw [hcons] at hclear ⊢
    have hshort : ∀ i ∈ items, Clear i ⟨parent ++ [name], none⟩ := fun i hi hfile hinit =>
      hclear i hi hfile (hinit.trans (prefix_append _ _))
    rw [foldlM_cons]
    refine spec_bind.mpr ((built_pinnedSubdir host h (hnames name (by simp)) hshort).mono
      (fun dir disk' hdir => ?_) fun _ _ hfalse => hfalse)
    obtain ⟨rfl, hbuilt⟩ := hdir
    exact ih hbuilt (fun n hn => hnames n (by simp [hn])) hclear

theorem built_createDirLeaf (h : Built root (items ++ [⟨parent, none⟩]) disk)
    (hname : Ordinary name) (hclear : ∀ i ∈ items, Clear i ⟨parent ++ [name], none⟩) :
    Spec (createDirLeaf host packageBuildDirMode (root ++ parent) name) disk
      (fun _ disk' => Built root (items ++ [⟨parent ++ [name], none⟩]) disk')
      fun _ _ => False := by
  refine spec_bind.mpr (spec_get.mpr ?_)
  rw [child_of_ordinary hname, append_assoc, sanitizeModeBits_build]
  rcases h.at_place hclear with hat | hat
  · rw [hat]
    refine spec_bind.mpr (spec_modify.mpr (spec_modify.mpr ?_))
    apply h.directory_step hclear
    intro location
    rw [Disk.at_put, Disk.at_put]
    split_ifs <;> rfl
  · rw [hat]
    refine spec_ite.mpr ⟨fun _ => spec_modify.mpr ?_, ?_⟩
    · exact h.directory_step hclear (disk.at_put _ _ _)
    · exact fun hclosed => absurd (enters_build host) hclosed

theorem writePieces_spec {location : Location} {pieces : List Bytes} {bytes : Bytes}
    (h : disk.at location = some (.file bytes stagingMode)) :
    Spec (pieces.forM (writePiece location)) disk
      (fun _ disk' => ∀ other, disk'.at other =
        if other = location then some (.file (bytes ++ pieces.flatten) stagingMode)
        else disk.at other)
      fun _ _ => False := by
  induction pieces generalizing disk bytes with
  | nil =>
    apply spec_pure.mpr
    intro other
    split_ifs with hother
    · rw [hother, h, flatten_nil, append_nil]
    · rfl
  | cons piece pieces ih =>
    show Spec (writePiece location piece >>= fun _ => pieces.forM (writePiece location)) _ _ _
    rw [spec_bind]
    apply spec_modify.mpr
    rw [h]
    refine (ih (by rw [Disk.at_put, if_pos rfl])).mono (fun _ disk' hdisk other => ?_)
      fun _ _ hfalse => hfalse
    rw [hdisk other, Disk.at_put, flatten_cons, append_assoc]
    split_ifs <;> rfl

theorem staging_ne (name suffix : String) : "." ++ name ++ ".part-" ++ suffix ≠ name := by
  intro h
  have hlength := congrArg String.length h
  simp only [String.length_append] at hlength
  have hdot : ".".length = 1 := rfl
  omega

theorem built_stageFile {mode : Mode} {content : Content} (houtcome : content.outcome = .ok ())
    (h : Built root (items ++ [⟨parent, none⟩]) disk) (hname : Ordinary name)
    (hclear : ∀ i ∈ items, Clear i ⟨parent ++ [name], some (content.bytes, mode)⟩ ∧
      Clear ⟨parent ++ [name], some (content.bytes, mode)⟩ i) :
    Spec (stageFile host mode content (root ++ parent) name) disk
      (fun _ disk' =>
        Built root (items ++ [⟨parent ++ [name], some (content.bytes, mode)⟩]) disk')
      fun _ _ => False := by
  have hfree : disk.at (root ++ (parent ++ [name])) = none := by
    apply h.absent _ (by simp)
    intro i hi hinit
    rcases mem_append.mp hi with hi | hi
    · exact (hclear i hi).2 rfl hinit
    · obtain rfl := mem_singleton.mp hi
      have hlength := hinit.length_le
      simp only [length_append, length_singleton] at hlength
      omega
  rw [stageFile, spec_bind, createStaging, EStateM.spec_modifyGet]
  set leaf := "." ++ name ++ ".part-" ++ host.suffix disk.files (root ++ parent) name with hleaf
  have hleafOrdinary : Ordinary leaf := ordinary_staging _ _
  simp only [child_of_ordinary hname, child_of_ordinary hleafOrdinary, append_assoc]
  set staging := root ++ (parent ++ [leaf]) with hstaging
  have hfresh : disk.at staging = none := by
    rw [hstaging, ← append_assoc, hleaf]
    exact host.suffix_fresh disk.files (root ++ parent) name
  have hapart : root ++ (parent ++ [name]) ≠ staging := by
    rw [hstaging, hleaf]
    simpa using (staging_ne name _).symm
  rw [spec_bind]
  refine (writePieces_spec (by rw [Disk.at_put, if_pos rfl])).mono (fun _ filled hfilled => ?_)
    fun _ _ hfalse => hfalse
  rw [houtcome, spec_bind]
  apply spec_get.mpr
  have hplace : filled.at (root ++ (parent ++ [name])) = none := by
    rw [hfilled, if_neg hapart, Disk.at_put, if_neg hapart, hfree]
  rw [hplace]
  apply spec_modify.mpr
  have hbytes : filled.at staging = some (.file content.bytes stagingMode) := by
    rw [hfilled, if_pos rfl]
    rfl
  refine h.step rfl hclear ?_ ?_
  · rw [hbytes]
    exact AList.lookup_insert _
  · intro path hpath
    have hlocation : root ++ path ≠ root ++ (parent ++ [name]) := fun heq =>
      hpath (append_cancel_left heq)
    rw [hbytes]
    refine (AList.lookup_insert_ne hlocation).trans ?_
    by_cases hother : root ++ path = staging
    · rw [hother, AList.lookup_erase, hfresh]
    · rw [AList.lookup_erase_ne hother]
      show filled.at (root ++ path) = disk.at (root ++ path)
      rw [hfilled, if_neg hother, Disk.at_put, if_neg hother]

theorem safe_part {relative part : String} (h : isSafeRelativePath relative = true)
    (hpart : part ∈ parts relative) : part ≠ "" ∧ part ≠ "." ∧ part ≠ ".." := by
  obtain ⟨hempty, hdot⟩ := Policy.ne_of_mem_parts_of_safe h hpart
  refine ⟨hempty, hdot, ?_⟩
  intro hparent
  rw [isSafeRelativePath, Policy.isSafeRelative, Bool.and_eq_true, all_eq_true] at h
  obtain ⟨chars, hchars, rfl⟩ := mem_map.mp hpart
  have hportable := h.2 chars hchars
  have hdots : chars = ['.', '.'] := String.ofList_inj.mp hparent
  simp [hdots, Policy.isPortableComponent] at hportable

variable {relative : String}

section

variable (h : isSafeRelativePath relative = true)

include h

theorem componentOf_of_safe :
    (parts relative).filterMap componentOf =
      (parts relative).map Component.normal := by
  rw [← filterMap_eq_map]
  apply filterMap_congr
  intro part hpart
  obtain ⟨hempty, hdot, hparent⟩ := safe_part h hpart
  rw [componentOf, if_neg (not_or.mpr ⟨hempty, hdot⟩), if_neg hparent]
  rfl

theorem components_of_safe :
    components relative = (parts relative).map Component.normal := by
  rw [components, componentOf_of_safe h]
  cases hparts : parts relative with
  | nil => exact absurd hparts (parts_ne_nil relative)
  | cons part rest =>
    obtain ⟨hempty, hdot, _⟩ := safe_part h (by rw [hparts]; exact mem_cons_self)
    split
    · next heq =>
      cases heq
      exact absurd rfl hempty
    · next heq =>
      cases heq
      exact absurd rfl hdot
    · rfl

theorem mapM_name_of_safe :
    (components relative).mapM Component.name? = some (parts relative) := by
  rw [components_of_safe h]
  generalize parts relative = names
  induction names with
  | nil => rfl
  | cons name names ih =>
    rw [map_cons, mapM_cons, ih]
    rfl

end

variable {content : Option (Bytes × Mode)} {path : List String} {leaf : String} {α : Type}

theorem withParent_of_safe (h : isSafeRelativePath relative = true)
    (hparts : parts relative = parent ++ [leaf]) (op : Location → String → Action α) :
    withParent host root relative op =
      (parent.foldlM (pinnedSubdir host) root >>= fun dir => op dir leaf) := by
  rw [withParent, mapM_name_of_safe h, hparts]
  simp

theorem exists_leaf (relative : String) :
    ∃ parent leaf, parts relative = parent ++ [leaf] :=
  ⟨_, _, (dropLast_append_getLast (parts_ne_nil relative)).symm⟩

theorem ordinary_of_safe (h : isSafeRelativePath relative = true) :
    ∀ part ∈ parts relative, Ordinary part := fun _ hpart =>
  ⟨(safe_part h hpart).2.2, (safe_part h hpart).2.1⟩

/-- The directory of an item is free when its place is. -/
theorem Clear.above {i : Item} (h : Clear i ⟨parent ++ [leaf], content⟩) : Clear i ⟨parent, none⟩ :=
  fun hfile hinit => h hfile (hinit.trans (prefix_append _ _))

/-- What is done at a leaf is done below the directories built for it. -/
theorem built_withParent {op : Location → String → Action α} {post : α → Disk → Prop}
    (h : Built root items disk) (hsafe : isSafeRelativePath relative = true)
    (hclear : ∀ i ∈ items, Clear i ⟨parts relative, content⟩)
    (hop : ∀ parent leaf disk', parts relative = parent ++ [leaf] → Ordinary leaf →
      Built root (items ++ [⟨parent, none⟩]) disk' →
      Spec (op (root ++ parent) leaf) disk' post fun _ _ => False) :
    Spec (withParent host root relative op) disk post fun _ _ => False := by
  obtain ⟨parent, leaf, hparts⟩ := exists_leaf relative
  have hordinary := ordinary_of_safe hsafe
  rw [withParent_of_safe host hsafe hparts, spec_bind]
  rw [hparts] at hclear hordinary
  have hparents := built_parents host h.atRoot
    (fun name hname => hordinary name (mem_append_left _ hname))
    (fun i hi => (hclear i hi).above)
  rw [append_nil, nil_append] at hparents
  refine hparents.mono (fun dir disk' hdir => ?_) fun _ _ hfalse => hfalse
  obtain ⟨rfl, hbuilt⟩ := hdir
  exact hop parent leaf disk' hparts (hordinary leaf (by simp)) hbuilt

theorem built_placeDirectory (h : Built root items disk)
    (hsafe : isSafeRelativePath relative = true)
    (hclear : ∀ i ∈ items, Clear i ⟨parts relative, none⟩) :
    Spec (placeDirectory host root relative) disk
      (fun _ disk' => Built root (items ++ [⟨parts relative, none⟩]) disk')
      fun _ _ => False := by
  refine built_withParent host h hsafe hclear fun parent leaf disk' hparts hleaf hbuilt => ?_
  rw [hparts] at hclear ⊢
  exact built_createDirLeaf host hbuilt hleaf hclear

theorem built_placeFile (host : Host) {relative : String} {mode : Mode} {content : Content}
    (houtcome : content.outcome = .ok ()) (h : Built root items disk)
    (hsafe : isSafeRelativePath relative = true)
    (hclear : ∀ i ∈ items, Clear i ⟨parts relative, some (content.bytes, mode)⟩ ∧
      Clear ⟨parts relative, some (content.bytes, mode)⟩ i) :
    Spec (placeFile host root relative mode content) disk
      (fun _ disk' =>
        Built root (items ++ [⟨parts relative, some (content.bytes, mode)⟩]) disk')
      fun _ _ => False := by
  refine built_withParent host h hsafe (fun i hi => (hclear i hi).1)
    fun parent leaf disk' hparts hleaf hbuilt => ?_
  rw [hparts] at hclear ⊢
  exact built_stageFile host houtcome hbuilt hleaf hclear

/-- As `Built`, with the final modes of the given directories. -/
structure Settled (root : Location) (items : List Item) (modes : List (String × Mode))
    (disk : Disk) : Prop where
  file : ∀ item ∈ items, ∀ bytes mode, item.content = some (bytes, mode) →
    disk.at (root ++ item.path) = some (.file bytes (sanitizeModeBits mode))
  restored : ∀ d ∈ modes,
    disk.at (root ++ parts d.1) = some (.directory (sanitizeModeBits d.2))
  directory : ∀ item ∈ items, ∀ path, path ≠ [] → path <+: item.path →
    item.content = none ∨ path ≠ item.path → (∀ d ∈ modes, parts d.1 ≠ path) →
    disk.at (root ++ path) = some (.directory packageBuildDirMode)
  absent : ∀ path, path ≠ [] → (∀ item ∈ items, ¬path <+: item.path) →
    disk.at (root ++ path) = none

theorem Built.settled (h : Built root items disk) : Settled root items [] disk where
  file := h.file
  restored := by simp
  directory item hitem path hpath hinit hwhich _ :=
    h.directory item hitem path hpath hinit hwhich
  absent := h.absent

theorem Settled.congr {modes modes' : List (String × Mode)} (h : Settled root items modes disk)
    (hmodes : ∀ d, d ∈ modes ↔ d ∈ modes') : Settled root items modes' disk where
  file := h.file
  restored d hd := h.restored d ((hmodes d).mpr hd)
  directory item hitem path hpath hinit hwhich hnone :=
    h.directory item hitem path hpath hinit hwhich fun d hd => hnone d ((hmodes d).mp hd)
  absent := h.absent

theorem open_directories {base : Location} (hnames : ∀ name ∈ names, Ordinary name)
    (hopen : ∀ path, path ≠ [] → path <+: names →
      disk.at (base ++ path) = some (.directory packageBuildDirMode)) :
    Spec (names.foldlM (pinnedSubdir host) base) disk
      (fun dir disk' => dir = base ++ names ∧ disk' = disk) fun _ _ => False := by
  induction names generalizing base with
  | nil =>
    rw [List.foldlM_nil, append_nil]
    exact spec_pure.mpr ⟨rfl, rfl⟩
  | cons name names ih =>
    have hfirst : disk.at (base ++ [name]) = some (.directory packageBuildDirMode) :=
      hopen [name] (by simp) (by simp)
    rw [foldlM_cons, spec_bind, pinnedSubdir, spec_bind]
    apply spec_get.mpr
    simp only [child_of_ordinary (hnames name (by simp)), hfirst, enters_build, if_true]
    apply spec_pure.mpr
    have hrest : ∀ path, path ≠ [] → path <+: names →
        disk.at (base ++ [name] ++ path) = some (.directory packageBuildDirMode) := by
      intro path _ hinit
      rw [append_assoc]
      exact hopen (name :: path) (by simp) ((prefix_cons_inj name).mpr hinit)
    have hwalk := ih (fun n hn => hnames n (by simp [hn])) hrest
    rwa [append_assoc] at hwalk

variable {modes : List (String × Mode)} {d : String × Mode}

/-- One more directory gets its mode while everything above it is still open. -/
theorem settled_step (h : Settled root items modes disk) (hsafe : isSafeRelativePath d.1 = true)
    (hitem : (⟨parts d.1, none⟩ : Item) ∈ items)
    (hdeep : ∀ e ∈ modes, (parts d.1).length ≤ (parts e.1).length)
    (hnew : ∀ e ∈ modes, parts e.1 ≠ parts d.1) :
    Spec (withParent host root d.1 (createDirLeaf host d.2)) disk
      (fun _ disk' => Settled root items (modes ++ [d]) disk') fun _ _ => False := by
  obtain ⟨parent, leaf, hparts⟩ := exists_leaf d.1
  have hordinary := ordinary_of_safe hsafe
  have hplace : disk.at (root ++ parts d.1) = some (.directory packageBuildDirMode) :=
    h.directory _ hitem _ (parts_ne_nil _) prefix_rfl (.inl rfl) hnew
  have habove : ∀ path, path ≠ [] → path <+: parent →
      disk.at (root ++ path) = some (.directory packageBuildDirMode) := by
    intro path hpath hinit
    have hbelow : path <+: parts d.1 := by
      rw [hparts]
      exact hinit.trans (prefix_append _ _)
    refine h.directory _ hitem path hpath hbelow (.inl rfl) fun e he heq => ?_
    have hlength := hdeep e he
    have hshort := hinit.length_le
    rw [heq, hparts, length_append, length_singleton] at hlength
    omega
  rw [withParent_of_safe host hsafe hparts, spec_bind]
  rw [hparts] at hordinary
  refine (open_directories host (fun name hname => hordinary name (mem_append_left _ hname))
    habove).mono (fun dir disk' hdir => ?_) fun _ _ hfalse => hfalse
  obtain ⟨rfl, rfl⟩ := hdir
  rw [createDirLeaf, spec_bind]
  apply spec_get.mpr
  simp only [child_of_ordinary (hordinary leaf (by simp)), append_assoc, ← hparts, hplace,
    enters_build, if_true]
  apply spec_modify.mpr
  have hsame : ∀ path, path ≠ parts d.1 →
      (disk'.put (root ++ parts d.1) (.directory (sanitizeModeBits d.2))
        (.changedMode (root ++ parts d.1))).at (root ++ path) = disk'.at (root ++ path) := by
    intro path hpath
    rw [Disk.at_put, if_neg fun heq => hpath (append_cancel_left heq)]
  constructor
  · intro item hi bytes mode hcontent
    have hfile := h.file item hi bytes mode hcontent
    rw [hsame item.path (fun heq => by rw [heq, hplace] at hfile; cases hfile), hfile]
  · intro e he
    rcases mem_append.mp he with he | he
    · rw [hsame _ (hnew e he)]
      exact h.restored e he
    · rw [mem_singleton.mp he, Disk.at_put, if_pos rfl]
  · intro item hi path hpath hinit hwhich hnone
    rw [hsame path (hnone d (by simp)).symm]
    exact h.directory item hi path hpath hinit hwhich fun e he =>
      hnone e (mem_append_left _ he)
  · intro path hpath hnone
    have habsent := h.absent path hpath hnone
    rw [hsame path (fun heq => by rw [heq, hplace] at habsent; cases habsent), habsent]

theorem settled_forM {rest : List (String × Mode)} (h : Settled root items modes disk)
    (hsafe : ∀ d ∈ rest, isSafeRelativePath d.1 = true)
    (hitems : ∀ d ∈ rest, (⟨parts d.1, none⟩ : Item) ∈ items)
    (hdeep : (modes ++ rest).Pairwise fun l r =>
      (parts r.1).length ≤ (parts l.1).length)
    (hnew : (modes ++ rest).Pairwise fun l r => parts l.1 ≠ parts r.1) :
    Spec (rest.forM fun d => withParent host root d.1 (createDirLeaf host d.2)) disk
      (fun _ disk' => Settled root items (modes ++ rest) disk') fun _ _ => False := by
  induction rest generalizing modes disk with
  | nil =>
    rw [append_nil]
    exact spec_pure.mpr h
  | cons d rest ih =>
    have hmem : d ∈ d :: rest := by simp
    have hstep := settled_step host h (hsafe d hmem) (hitems d hmem)
      (fun e he => (pairwise_append.mp hdeep).2.2 e he d hmem)
      (fun e he => (pairwise_append.mp hnew).2.2 e he d hmem)
    rw [append_cons] at hdeep hnew ⊢
    show Spec (withParent host root d.1 (createDirLeaf host d.2) >>= fun _ =>
      rest.forM fun d => withParent host root d.1 (createDirLeaf host d.2)) _ _ _
    rw [spec_bind]
    refine hstep.mono (fun _ disk' hsettled => ?_) fun _ _ hfalse => hfalse
    exact ih hsettled (fun e he => hsafe e (by simp [he])) (fun e he => hitems e (by simp [he]))
      hdeep hnew

theorem settled_restoreDirectoryModes (h : Built root items disk)
    (hsafe : ∀ d ∈ modes, isSafeRelativePath d.1 = true)
    (hitems : ∀ d ∈ modes, (⟨parts d.1, none⟩ : Item) ∈ items)
    (hnew : modes.Pairwise fun l r => parts l.1 ≠ parts r.1) :
    Spec (restoreDirectoryModes host root modes) disk
      (fun _ disk' => Settled root items modes disk') fun _ _ => False := by
  let deeper : String × Mode → String × Mode → Prop := fun l r =>
    (components r.1).length ≤ (components l.1).length
  have : Std.Total deeper := ⟨fun l r => Nat.le_total _ _⟩
  have : IsTrans (String × Mode) deeper := ⟨fun _ _ _ h h' => Nat.le_trans h' h⟩
  have hperm : (modes.insertionSort deeper).Perm modes := perm_insertionSort _ _
  have hsafe' : ∀ d ∈ modes.insertionSort deeper, isSafeRelativePath d.1 = true :=
    fun d hd => hsafe d (hperm.mem_iff.mp hd)
  have hdeep : (modes.insertionSort deeper).Pairwise fun l r =>
      (parts r.1).length ≤ (parts l.1).length := by
    refine (pairwise_insertionSort deeper modes).imp_of_mem fun {l r} hl hr hlr => ?_
    have hlr : (components r.1).length ≤ (components l.1).length := hlr
    rwa [components_of_safe (hsafe' l hl), components_of_safe (hsafe' r hr), length_map,
      length_map] at hlr
  have hdistinct := (hperm.pairwise_iff fun h => Ne.symm h).mpr hnew
  refine (settled_forM host h.settled hsafe' (fun d hd => hitems d (hperm.mem_iff.mp hd))
    hdeep hdistinct).mono (fun _ disk' hsettled => ?_) fun _ _ hfalse => hfalse
  exact hsettled.congr fun d => hperm.mem_iff

theorem clean_build : Mode.Clean packageBuildDirMode := by
  decide

theorem Settled.compare {built : Disk} (h : Settled root items modes disk)
    (hbuilt : Built root items built) (hpath : path ≠ []) :
    (built.at (root ++ path) = none ∧ disk.at (root ++ path) = none) ∨
    (∃ item ∈ items, ∃ bytes mode, item.path = path ∧ item.content = some (bytes, mode) ∧
      built.at (root ++ path) = some (.file bytes (sanitizeModeBits mode)) ∧
      disk.at (root ++ path) = some (.file bytes (sanitizeModeBits mode))) ∨
    (built.at (root ++ path) = some (.directory packageBuildDirMode) ∧
      ∃ mode, disk.at (root ++ path) = some (.directory mode) ∧ Mode.Clean mode) := by
  by_cases hsome : ∃ item ∈ items, path <+: item.path
  · right
    obtain ⟨item, hitem, hinit⟩ := hsome
    by_cases hdirectory : item.content = none ∨ path ≠ item.path
    · right
      refine ⟨hbuilt.directory item hitem path hpath hinit hdirectory, ?_⟩
      by_cases hmode : ∃ d ∈ modes, parts d.1 = path
      · obtain ⟨d, hd, rfl⟩ := hmode
        exact ⟨_, h.restored d hd, clean_sanitizeModeBits d.2⟩
      · have hnone : ∀ d ∈ modes, parts d.1 ≠ path := fun d hd heq => hmode ⟨d, hd, heq⟩
        exact ⟨_, h.directory item hitem path hpath hinit hdirectory hnone, clean_build⟩
    · left
      rw [not_or, not_not] at hdirectory
      obtain ⟨hcontent, rfl⟩ := hdirectory
      obtain ⟨⟨bytes, mode⟩, hcontent⟩ := Option.ne_none_iff_exists'.mp hcontent
      exact ⟨item, hitem, bytes, mode, rfl, hcontent, hbuilt.file item hitem bytes mode hcontent,
        h.file item hitem bytes mode hcontent⟩
  · left
    have hnone : ∀ item ∈ items, ¬path <+: item.path := fun item hitem hinit =>
      hsome ⟨item, hitem, hinit⟩
    exact ⟨hbuilt.absent path hpath hnone, h.absent path hpath hnone⟩

theorem Built.exists_item (h : Built root items disk) (hpath : path ≠ []) {node : Node}
    (hnode : disk.at (root ++ path) = some node) :
    ∃ item ∈ items, path <+: item.path := by
  by_contra hnone
  have habsent := h.absent path hpath fun item hitem hinit => hnone ⟨item, hitem, hinit⟩
  rw [habsent] at hnode
  cases hnode

end Package

end Qcg
