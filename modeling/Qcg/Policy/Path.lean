import Qcg.Library.Lexicographic

/-!
# Portable relative paths

The syntax check that every workspace path of an event passes: nonempty slash
components without drive colons, backslashes, controls, trailing dots or spaces,
reserved device names or wildcard characters. A set of such paths can stand in one
tree when no two of them are equivalent names and none uses a file as a directory.
-/

namespace Qcg

open List

namespace Policy

def windowsReservedStems : List String :=
  ["CON", "PRN", "AUX", "NUL", "CONIN$", "CONOUT$", "COM1", "COM2", "COM3", "COM4", "COM5",
    "COM6", "COM7", "COM8", "COM9", "LPT1", "LPT2", "LPT3", "LPT4", "LPT5", "LPT6", "LPT7",
    "LPT8", "LPT9", "COM¹", "COM²", "COM³", "LPT¹", "LPT²", "LPT³"]

def eqIgnoreAsciiCase (s t : String) : Bool :=
  s.toList.map Char.toLower = t.toList.map Char.toLower

def isPortableComponent (part : List Char) (wildcardsAllowed : Bool) : Bool :=
  if part.isEmpty || part = ['.'] || part = ['.', '.'] || part.contains ':' ||
      part.getLast? = some '.' || part.getLast? = some ' ' ||
      part.any (fun c => c.toNat < 0x20 || c.toNat = 0x7f) ||
      part.any (fun c => ['<', '>', '"', '|'].contains c) ||
      (!wildcardsAllowed && part.any (fun c => ['?', '*'].contains c)) then
    false
  else
    let stem := (part.splitOn '.').headD part
    !windowsReservedStems.any fun reserved => eqIgnoreAsciiCase (String.ofList stem) reserved

def isSafeRelative (path : String) (wildcardsAllowed : Bool) : Bool :=
  !path.toList.contains '\\' &&
    (path.toList.splitOn '/').all fun part => isPortableComponent part wildcardsAllowed

/-- Whether a path is a portable concrete relative path. -/
def isSafeRelativePath (path : String) : Bool :=
  isSafeRelative path false

def isSafePathComponent (path : String) : Bool :=
  isSafeRelativePath path && !path.toList.contains '/'

def parts (path : String) : List String :=
  (path.toList.splitOn '/').map String.ofList

theorem parts_injective : Function.Injective parts := by
  intro p q h
  have hlists : p.toList.splitOn '/' = q.toList.splitOn '/' :=
    map_injective_iff.mpr (fun _ _ => String.ofList_inj.mp) h
  have hchars : p.toList = q.toList := by
    rw [← @List.intercalate_splitOn Char p.toList _ _ '/', hlists, intercalate_splitOn]
  exact String.toList_inj.mp hchars

theorem parts_ne_nil (path : String) : parts path ≠ [] := by
  simp [parts, List.splitOn]

theorem notMem_of_mem_splitOn {α : Type} [DecidableEq α] {a : α} {piece l : List α}
    (h : piece ∈ l.splitOn a) : a ∉ piece := by
  generalize hn : l.length = n
  induction n using Nat.strongRecOn generalizing l with
  | ind n ih =>
    by_cases ha : a ∈ l
    · obtain ⟨front, rest, rfl, hfront⟩ := eq_append_cons_of_mem ha
      rw [splitOn_append_cons_self_of_not_mem hfront, mem_cons] at h
      rcases h with rfl | h
      · exact hfront
      · exact ih rest.length (by simp at hn; omega) h rfl
    · rw [splitOn_eq_singleton ha, mem_singleton] at h
      rwa [h]

variable {path part : String}

theorem slash_notMem_part (h : part ∈ parts path) : '/' ∉ part.toList := by
  obtain ⟨chars, hchars, rfl⟩ := mem_map.mp h
  rw [String.toList_ofList]
  exact notMem_of_mem_splitOn hchars

def portableRelativePath (names : List String) : String :=
  String.intercalate "/" names

theorem parts_portableRelativePath {names : List String} (hne : names ≠ [])
    (hslash : ∀ name ∈ names, '/' ∉ name.toList) : parts (portableRelativePath names) = names := by
  have hlists : (portableRelativePath names).toList.splitOn '/' = names.map String.toList := by
    rw [portableRelativePath, String.toList_intercalate]
    apply splitOn_intercalate
    · intro chars hchars
      obtain ⟨name, hname, rfl⟩ := mem_map.mp hchars
      exact hslash name hname
    · simpa using hne
  rw [parts, hlists, map_map]
  have hid : String.ofList ∘ String.toList = id := funext fun _ => String.ofList_toList
  rw [hid, map_id]

theorem ne_of_mem_parts_of_safe (h : isSafeRelativePath path = true) (hpart : part ∈ parts path) :
    part ≠ "" ∧ part ≠ "." := by
  rw [isSafeRelativePath, isSafeRelative, Bool.and_eq_true, all_eq_true] at h
  obtain ⟨chars, hchars, rfl⟩ := mem_map.mp hpart
  have hportable := h.2 chars hchars
  constructor
  · intro hempty
    have hnil : chars = [] := String.ofList_inj.mp hempty
    simp [hnil, isPortableComponent] at hportable
  · intro hdot
    have hdot : chars = ['.'] := String.ofList_inj.mp hdot
    simp [hdot, isPortableComponent] at hportable

/-- A path with the key under which equivalent spellings collide. -/
structure PathEntry where
  key : String
  path : String
  isDir : Bool
deriving DecidableEq

/-- Two entries spell a directory that they share differently. -/
def PathEntry.alias (l r : PathEntry) : Bool :=
  let pairs := ((parts l.key).zip (parts l.path)).zip ((parts r.key).zip (parts r.path))
  (pairs.takeWhile fun pair => pair.1.1 = pair.2.1).any fun pair => pair.1.2 ≠ pair.2.2

/-- The keys of the directories above an entry. -/
def PathEntry.parentKeys (entry : PathEntry) : List (List String) :=
  (parts entry.key).inits.tail.dropLast

/-- The order of texts by their code points, which is that of their encodings. -/
def textLe (s t : String) : Bool :=
  Lexicographic.lex (fun c d => decide (c.toNat ≤ d.toNat)) s.toList t.toList

def PathEntry.le (l r : PathEntry) : Bool :=
  Lexicographic.lex textLe (parts l.key) (parts r.key)

/-- Refuses unsafe paths, equivalent names and files that are used as directories; in a tree,
also directories with two spellings. The collision key is a parameter. -/
def validatePathSetInner (collisionKey : String → String) (entries : List (String × Bool))
    (tree : Bool) : Except String Unit :=
  let paths := entries.map fun entry => PathEntry.mk (collisionKey entry.1) entry.1 entry.2
  if paths.any fun entry => !isSafeRelativePath entry.path then
    .error "unsafe or colliding path set"
  else
    let sorted := paths.insertionSort fun l r => l.le r = true
    if (sorted.zip sorted.tail).any fun pair =>
        pair.1.key = pair.2.key || (tree && pair.1.alias pair.2) then
      .error "unsafe or colliding path set"
    else if sorted.any fun entry => entry.parentKeys.any fun parent =>
        sorted.any fun other => parts other.key = parent && !other.isDir then
      .error "path set uses a file as a directory"
    else .ok ()

def validatePathTreeSet (collisionKey : String → String) (entries : List (String × Bool)) :
    Except String Unit :=
  validatePathSetInner collisionKey entries true

end Policy

end Qcg
