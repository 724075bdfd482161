import Qcg.Library.Json
import Qcg.Library.Encoding
import Std.Data.String.ToInt

/-!
# The compact text of JSON values

What the usual Rust library writes: no spaces, members in the order in which they are kept,
quotation marks, backslashes and control letters of strings escaped. Distinct values have
distinct texts, and no text holds a control letter.
-/

namespace Json

open List

open Encoding

def escapeChar (c : Char) : List Char :=
  if c = '"' then ['\\', '"']
  else if c = '\\' then ['\\', '\\']
  else if c = '\x08' then ['\\', 'b']
  else if c = '\t' then ['\\', 't']
  else if c = '\n' then ['\\', 'n']
  else if c = '\x0c' then ['\\', 'f']
  else if c = '\r' then ['\\', 'r']
  else if c.toNat < 0x20 then
    ['\\', 'u', '0', '0', Nat.digitChar (c.toNat / 16), Nat.digitChar (c.toNat % 16)]
  else [c]

def quotedText (s : String) : List Char :=
  s.toList.flatMap escapeChar ++ ['"']

namespace Value

mutual

def text : Value → List Char
  | null => ['n', 'u', 'l', 'l']
  | bool true => ['t', 'r', 'u', 'e']
  | bool false => ['f', 'a', 'l', 's', 'e']
  | num n => n.repr.toList
  | str s => '"' :: quotedText s
  | arr [] => ['[', ']']
  | arr (item :: items) => '[' :: (item.text ++ itemsText items)
  | obj [] => ['\x7b', '\x7d']
  | obj ((key, value) :: members) =>
    '\x7b' :: '"' :: (quotedText key ++ ':' :: (value.text ++ membersText members))

def itemsText : List Value → List Char
  | [] => [']']
  | item :: items => ',' :: (item.text ++ itemsText items)

def membersText : Members → List Char
  | [] => ['\x7d']
  | (key, value) :: members =>
    ',' :: '"' :: (quotedText key ++ ':' :: (value.text ++ membersText members))

end

/-- `serde_json::to_vec`. -/
def toVec (v : Value) : List UInt8 :=
  utf8 (String.ofList v.text)

end Value

def unescape : Char → Char
  | 'b' => '\x08'
  | 't' => '\t'
  | 'n' => '\n'
  | 'f' => '\x0c'
  | 'r' => '\r'
  | c => c

def hexValue (c : Char) : Nat :=
  if c.isDigit then c.toNat - 48 else c.toNat - 87

def readChar : List Char → Option (Char × List Char)
  | '\\' :: 'u' :: _ :: _ :: high :: low :: rest =>
    some (Char.ofNat (16 * hexValue high + hexValue low), rest)
  | '\\' :: c :: rest => some (unescape c, rest)
  | c :: rest => some (c, rest)
  | [] => none

variable {r : List Char} {c : Char}

theorem readChar_plain (h : c ≠ '\\') (rest : List Char) :
    readChar (c :: rest) = some (c, rest) := by
  unfold readChar
  split <;> simp_all

theorem hexValue_control {n : Nat} (h : n < 0x20) :
    16 * hexValue (Nat.digitChar (n / 16)) + hexValue (Nat.digitChar (n % 16)) = n := by
  revert n
  decide

theorem readChar_escapeChar (c : Char) (rest : List Char) :
    readChar (escapeChar c ++ rest) = some (c, rest) := by
  unfold escapeChar
  split_ifs with h1 h2 h3 h4 h5 h6 h7 h8
  · subst h1; rfl
  · subst h2; rfl
  · subst h3; rfl
  · subst h4; rfl
  · subst h5; rfl
  · subst h6; rfl
  · subst h7; rfl
  · show some (Char.ofNat _, rest) = _
    rw [hexValue_control h8, Char.ofNat_toNat]
  · exact readChar_plain h2 rest

theorem delimited_escapeChar : Delimited (fun _ => True) escapeChar :=
  delimited_of_reader fun c rest _ => readChar_escapeChar c rest

theorem head_escapeChar (c : Char) : ∃ d rest, escapeChar c = d :: rest ∧ d ≠ '"' := by
  unfold escapeChar
  split_ifs with h1
  all_goals first | exact ⟨_, _, rfl, by decide⟩ | exact ⟨_, _, rfl, h1⟩

theorem quotedText_inj {s t : String} {r' : List Char}
    (h : quotedText s ++ r = quotedText t ++ r') : s = t ∧ r = r' := by
  simp only [quotedText, append_assoc, singleton_append] at h
  obtain ⟨hchars, hrest⟩ := delimited_escapeChar.flatMap_until (fun c _ => head_escapeChar c)
    (fun _ _ => trivial) (fun _ _ => trivial) h
  exact ⟨String.toList_inj.mp hchars, hrest⟩

def isNumberChar (c : Char) : Bool :=
  c = '-' || c.isDigit

variable {s : List Char} {n : Int}

theorem isNumberChar_of_mem_repr (h : c ∈ n.repr.toList) : isNumberChar c = true := by
  have hdigits : ∀ m : Nat, c ∈ m.repr.toList → isNumberChar c = true := by
    intro m hm
    rw [Nat.repr, String.toList_ofList] at hm
    simp [isNumberChar, Nat.isDigit_of_mem_toDigits (by decide) (by decide) hm]
  cases n with
  | ofNat m => exact hdigits m h
  | negSucc m =>
    have hmem : c ∈ ("-" ++ (m + 1).repr).toList := h
    rw [String.toList_append, mem_append] at hmem
    rcases hmem with hmem | hmem
    · have hminus : c = '-' := by simpa using hmem
      rw [hminus]
      rfl
    · exact hdigits _ hmem

/-- What may follow a value: not another letter of a number. -/
def Stops (r : List Char) : Prop :=
  ∀ c ∈ r.head?, isNumberChar c = false

theorem stops_nil : Stops [] := by
  simp [Stops]

theorem stops_cons (h : isNumberChar c = false) : Stops (c :: r) := by
  simpa [Stops] using h

theorem repr_inj_of_stops {m : Int} (hr : Stops r) (hs : Stops s)
    (h : m.repr.toList ++ r = n.repr.toList ++ s) : m = n ∧ r = s := by
  obtain ⟨htext, hrest⟩ := append_inj_of_run (fun _ => isNumberChar_of_mem_repr)
    (fun _ => isNumberChar_of_mem_repr) hr hs h
  exact ⟨Int.repr_inj.mp (String.toList_inj.mp htext), hrest⟩

theorem repr_ne_nil (n : Int) : n.repr.toList ≠ [] := by
  cases n with
  | ofNat m =>
    show m.repr.toList ≠ []
    rw [Nat.repr, String.toList_ofList]
    exact Nat.toDigits_ne_nil
  | negSucc m =>
    show ("-" ++ (m + 1).repr).toList ≠ []
    simp

theorem repr_eq_cons (n : Int) : ∃ c rest, n.repr.toList = c :: rest ∧ isNumberChar c = true := by
  cases htext : n.repr.toList with
  | nil => exact absurd htext (repr_ne_nil n)
  | cons c rest =>
    have hmem : c ∈ n.repr.toList := by simp [htext]
    exact ⟨c, rest, rfl, isNumberChar_of_mem_repr hmem⟩

namespace Value

theorem stops_itemsText (items : List Value) (r : List Char) : Stops (itemsText items ++ r) := by
  cases items with
  | nil => exact stops_cons rfl
  | cons item items => exact stops_cons rfl

theorem stops_membersText (members : Members) (r : List Char) :
    Stops (membersText members ++ r) := by
  cases members with
  | nil => exact stops_cons rfl
  | cons member members => exact stops_cons rfl

/-- The first letter of a text tells the kind of the value. -/
def mark : Value → Char
  | null => 'n'
  | bool true => 't'
  | bool false => 'f'
  | num _ => '0'
  | str _ => '"'
  | arr _ => '['
  | obj _ => '\x7b'

def markOf (c : Char) : Char :=
  if isNumberChar c then '0' else c

variable (v : Value)

theorem mark_of_text : ∃ c rest, v.text = c :: rest ∧ markOf c = v.mark := by
  cases v with
  | null => exact ⟨_, _, rfl, rfl⟩
  | bool b => cases b <;> exact ⟨_, _, rfl, rfl⟩
  | num n =>
    obtain ⟨c, rest, htext, hc⟩ := repr_eq_cons n
    exact ⟨c, rest, htext, by rw [markOf, if_pos hc, mark]⟩
  | str s => exact ⟨_, _, rfl, rfl⟩
  | arr items => cases items <;> exact ⟨_, _, rfl, rfl⟩
  | obj members => cases members <;> exact ⟨_, _, rfl, rfl⟩

theorem mark_eq {v w : Value} (h : v.text ++ r = w.text ++ s) : v.mark = w.mark := by
  obtain ⟨c, rest, hv, hmark⟩ := v.mark_of_text
  obtain ⟨d, rest', hw, hmark'⟩ := w.mark_of_text
  rw [hv, hw, cons_append, cons_append, List.cons.injEq] at h
  rw [← hmark, ← hmark', h.1]

theorem mark_ne_close : markOf ']' ≠ v.mark := by
  cases v with
  | bool b => cases b <;> decide
  | _ => simp [mark, show markOf ']' = ']' from rfl]

mutual

theorem text_inj : (v w : Value) → ∀ {r s : List Char}, Stops r → Stops s →
    v.text ++ r = w.text ++ s → v = w ∧ r = s
  | null, w, r, s, _, _, h => by
    have hmark := mark_eq h
    cases w with
    | null => simpa [text] using h
    | bool b => cases b <;> cases hmark
    | _ => cases hmark
  | bool b, w, r, s, _, _, h => by
    have hmark := mark_eq h
    cases w with
    | bool b' => cases b <;> cases b' <;> simp_all [text]
    | _ => cases b <;> cases hmark
  | num n, w, r, s, hr, hs, h => by
    have hmark := mark_eq h
    cases w with
    | num n' =>
      simp only [text] at h
      obtain ⟨rfl, hrest⟩ := repr_inj_of_stops hr hs h
      exact ⟨rfl, hrest⟩
    | bool b => cases b <;> cases hmark
    | _ => cases hmark
  | str t, w, r, s, _, _, h => by
    have hmark := mark_eq h
    cases w with
    | str t' =>
      simp only [text, cons_append, List.cons.injEq, true_and] at h
      obtain ⟨rfl, hrest⟩ := quotedText_inj h
      exact ⟨rfl, hrest⟩
    | bool b => cases b <;> cases hmark
    | _ => cases hmark
  | arr items, w, r, s, _, _, h => by
    have hmark := mark_eq h
    cases w with
    | arr items' =>
      cases items with
      | nil =>
        cases items' with
        | nil => simpa [text] using h
        | cons item' items' =>
          obtain ⟨c, rest, htext, hc⟩ := item'.mark_of_text
          simp only [text, htext, cons_append, nil_append, List.cons.injEq,
            true_and] at h
          exact absurd (h.1 ▸ hc) (mark_ne_close item')
      | cons item items =>
        cases items' with
        | nil =>
          obtain ⟨c, rest, htext, hc⟩ := item.mark_of_text
          simp only [text, htext, cons_append, nil_append, List.cons.injEq,
            true_and] at h
          exact absurd (h.1 ▸ hc) (mark_ne_close item)
        | cons item' items' =>
          simp only [text, cons_append, List.cons.injEq, true_and] at h
          obtain ⟨hitems, hrest⟩ :=
            itemsText_inj (item :: items) (item' :: items') (congrArg (',' :: ·) h)
          exact ⟨congrArg arr hitems, hrest⟩
    | bool b => cases b <;> cases hmark
    | _ => cases hmark
  | obj members, w, r, s, _, _, h => by
    have hmark := mark_eq h
    cases w with
    | obj members' =>
      cases members with
      | nil =>
        cases members' with
        | nil => simpa [text] using h
        | cons member' members' => simp [text] at h
      | cons member members =>
        cases members' with
        | nil => simp [text] at h
        | cons member' members' =>
          simp only [text, cons_append, List.cons.injEq, true_and] at h
          obtain ⟨hmembers, hrest⟩ := membersText_inj (member :: members) (member' :: members')
            (congrArg (fun text => ',' :: '"' :: text) h)
          exact ⟨congrArg obj hmembers, hrest⟩
    | bool b => cases b <;> cases hmark
    | _ => cases hmark

theorem itemsText_inj : (items items' : List Value) → ∀ {r s : List Char},
    itemsText items ++ r = itemsText items' ++ s → items = items' ∧ r = s
  | [], items', r, s, h => by
    cases items' with
    | nil => simpa [itemsText] using h
    | cons item' items' => simp [itemsText] at h
  | item :: items, items', r, s, h => by
    cases items' with
    | nil => simp [itemsText] at h
    | cons item' items' =>
      simp only [itemsText, cons_append, append_assoc, List.cons.injEq, true_and] at h
      obtain ⟨rfl, htail⟩ := text_inj item item' (stops_itemsText _ _) (stops_itemsText _ _) h
      obtain ⟨rfl, hrest⟩ := itemsText_inj items items' htail
      exact ⟨rfl, hrest⟩

theorem membersText_inj : (members members' : Members) → ∀ {r s : List Char},
    membersText members ++ r = membersText members' ++ s → members = members' ∧ r = s
  | [], members', r, s, h => by
    cases members' with
    | nil => simpa [membersText] using h
    | cons member' members' => simp [membersText] at h
  | (key, value) :: members, members', r, s, h => by
    cases members' with
    | nil => simp [membersText] at h
    | cons member' members' =>
      obtain ⟨key', value'⟩ := member'
      simp only [membersText, cons_append, append_assoc, List.cons.injEq, true_and] at h
      obtain ⟨rfl, hvalue⟩ := quotedText_inj h
      simp only [List.cons.injEq, true_and] at hvalue
      obtain ⟨rfl, htail⟩ :=
        text_inj value value' (stops_membersText _ _) (stops_membersText _ _) hvalue
      obtain ⟨rfl, hrest⟩ := membersText_inj members members' htail
      exact ⟨rfl, hrest⟩

end

theorem toVec_injective : Function.Injective toVec := by
  intro v w h
  have htext : v.text = w.text := String.ofList_inj.mp (utf8_injective h)
  exact (text_inj v w stops_nil stops_nil (congrArg (· ++ []) htext)).1

theorem nul_notMem_escapeChar (c : Char) : '\x00' ∉ escapeChar c := by
  unfold escapeChar
  split_ifs with h1 h2 h3 h4 h5 h6 h7 h8
  all_goals try decide
  · have hdigit : ∀ n : Nat, n < 16 → '\x00' ≠ Nat.digitChar n := by decide
    simp only [mem_cons, not_mem_nil, or_false, not_or]
    exact ⟨by decide, by decide, by decide, by decide, hdigit _ (by omega), hdigit _ (by omega)⟩
  · rw [mem_singleton]
    rintro rfl
    exact h8 (by decide)

theorem nul_notMem_quotedText (s : String) : '\x00' ∉ quotedText s := by
  rw [quotedText, mem_append, mem_flatMap]
  rintro (⟨c, _, hc⟩ | hmem)
  · exact nul_notMem_escapeChar c hc
  · exact absurd hmem (by decide)

theorem nul_notMem_repr (n : Int) : '\x00' ∉ n.repr.toList :=
  fun h => absurd (isNumberChar_of_mem_repr h) (by decide)

mutual

theorem nul_notMem_text : (v : Value) → '\x00' ∉ v.text
  | null => by decide
  | bool b => by cases b <;> decide
  | num n => by
    rw [text]
    exact nul_notMem_repr n
  | str s => by
    rw [text, mem_cons, not_or]
    exact ⟨by decide, nul_notMem_quotedText s⟩
  | arr [] => by decide
  | arr (item :: items) => by
    simp only [text, mem_cons, mem_append, not_or]
    exact ⟨by decide, nul_notMem_text item, nul_notMem_itemsText items⟩
  | obj [] => by decide
  | obj ((key, value) :: members) => by
    simp only [text, mem_cons, mem_append, not_or]
    exact ⟨by decide, by decide, nul_notMem_quotedText key, by decide, nul_notMem_text value,
      nul_notMem_membersText members⟩

theorem nul_notMem_itemsText : (items : List Value) → '\x00' ∉ itemsText items
  | [] => by decide
  | item :: items => by
    simp only [itemsText, mem_cons, mem_append, not_or]
    exact ⟨by decide, nul_notMem_text item, nul_notMem_itemsText items⟩

theorem nul_notMem_membersText : (members : Members) → '\x00' ∉ membersText members
  | [] => by decide
  | (key, value) :: members => by
    simp only [membersText, mem_cons, mem_append, not_or]
    exact ⟨by decide, by decide, nul_notMem_quotedText key, by decide, nul_notMem_text value,
      nul_notMem_membersText members⟩

end

theorem zero_notMem_toVec : 0 ∉ v.toVec := by
  apply zero_notMem_utf8
  rw [String.toList_ofList]
  exact nul_notMem_text v

theorem toVec_ne_nil : v.toVec ≠ [] := by
  intro h
  have hempty : String.ofList v.text = "" := utf8_injective (h.trans (by decide))
  obtain ⟨c, rest, htext, _⟩ := v.mark_of_text
  rw [htext] at hempty
  exact absurd (congrArg String.toList hempty) (by simp)

end Value

end Json
