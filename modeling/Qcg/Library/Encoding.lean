import Mathlib.Algebra.Ring.Nat
import Mathlib.Data.List.Basic
import Mathlib.Data.Set.Function

/-!
# Encodings that can be read back

An encoding is delimited when its end can be found from the left: two texts that begin with
encoded values and are equal begin with the same value and go on alike. Fixed-width fields and
terminated fields are delimited, and sequences of delimited fields are again.
-/

namespace Encoding

open List

variable {α β γ : Type}

/-- The values of `P` can be read off the front of a text. -/
def Delimited (P : α → Prop) (enc : α → List γ) : Prop :=
  ∀ ⦃a b : α⦄ ⦃r s : List γ⦄, P a → P b → enc a ++ r = enc b ++ s → a = b ∧ r = s

variable {P : α → Prop} {enc : α → List γ} {c : Char} {n : Nat}

theorem delimited_of_length (hlength : ∀ a, P a → (enc a).length = n)
    (hinj : ∀ a b, P a → P b → enc a = enc b → a = b) : Delimited P enc := by
  intro a b r s ha hb heq
  obtain ⟨hfield, hrest⟩ := append_inj heq ((hlength a ha).trans (hlength b hb).symm)
  exact ⟨hinj a b ha hb hfield, hrest⟩

variable {x y r s : List γ} {t : γ}

/-- Texts are split at the first occurrence of a letter. -/
theorem first_inj (hx : t ∉ x) (hy : t ∉ y) (heq : x ++ t :: r = y ++ t :: s) : x = y ∧ r = s := by
  induction x generalizing y with
  | nil =>
    cases y with
    | nil => simpa using heq
    | cons c y =>
      simp only [nil_append, cons_append, List.cons.injEq] at heq
      simp [heq.1] at hy
  | cons c x ih =>
    cases y with
    | nil =>
      simp only [nil_append, cons_append, List.cons.injEq] at heq
      simp [heq.1] at hx
    | cons d y =>
      simp only [cons_append, List.cons.injEq] at heq
      rw [mem_cons, not_or] at hx hy
      obtain ⟨hrest, htail⟩ := ih hx.2 hy.2 heq.2
      exact ⟨by rw [heq.1, hrest], htail⟩

/-- Texts are split at the last occurrence of a letter. -/
theorem last_inj (hr : t ∉ r) (hs : t ∉ s) (heq : x ++ t :: r = y ++ t :: s) : x = y ∧ r = s := by
  have hback : r.reverse ++ t :: x.reverse = s.reverse ++ t :: y.reverse := by
    simpa using congrArg List.reverse heq
  obtain ⟨hr', hx'⟩ := first_inj (by simpa using hr) (by simpa using hs) hback
  exact ⟨reverse_inj.mp hx', reverse_inj.mp hr'⟩

theorem delimited_of_terminator (hfree : ∀ a, P a → t ∉ enc a)
    (hinj : ∀ a b, P a → P b → enc a = enc b → a = b) : Delimited P fun a => enc a ++ [t] := by
  intro a b r s ha hb heq
  rw [append_assoc, append_assoc] at heq
  obtain ⟨hfield, hrest⟩ := first_inj (hfree a ha) (hfree b hb) heq
  exact ⟨hinj a b ha hb hfield, hrest⟩

/-- A field that a reader finds again. -/
theorem delimited_of_reader {read : List γ → Option (α × List γ)}
    (h : ∀ a r, P a → read (enc a ++ r) = some (a, r)) : Delimited P enc := by
  intro a b r s ha hb heq
  have hpair : some (a, r) = some (b, s) := by rw [← h a r ha, heq, h b s hb]
  simpa using hpair

/-- A run of letters that ends where another kind of letter follows. -/
theorem append_inj_of_run {p : γ → Bool} (hx : ∀ c ∈ x, p c = true)
    (hy : ∀ c ∈ y, p c = true) (hr : ∀ c ∈ r.head?, p c = false)
    (hs : ∀ c ∈ s.head?, p c = false) (heq : x ++ r = y ++ s) : x = y ∧ r = s := by
  have hrun : ∀ z t : List γ, (∀ c ∈ z, p c = true) → (∀ c ∈ t.head?, p c = false) →
      (z ++ t).takeWhile p = z := by
    intro z t hz ht
    rw [takeWhile_append_of_pos hz]
    cases t with
    | nil => simp
    | cons c t => simp [ht c rfl]
  have hfield : x = y := by rw [← hrun x r hx hr, heq, hrun y s hy hs]
  subst hfield
  exact ⟨rfl, append_cancel_left heq⟩

section

variable (h : Delimited P enc)

include h

/-- A field whose encoding may depend on the field before it. -/
theorem Delimited.pair {Q : α → β → Prop} {next : α → β → List γ}
    (hnext : ∀ a, P a → Delimited (Q a) (next a)) :
    Delimited (fun p : α × β => P p.1 ∧ Q p.1 p.2) fun p => enc p.1 ++ next p.1 p.2 := by
  rintro ⟨a, x⟩ ⟨b, y⟩ r s ⟨ha, hx⟩ ⟨hb, hy⟩ heq
  simp only [append_assoc] at heq
  obtain ⟨rfl, htail⟩ := h ha hb heq
  obtain ⟨rfl, hrest⟩ := hnext a ha hx hy htail
  exact ⟨rfl, hrest⟩

variable {l m : List α}

/-- As many fields as are known to be there. -/
theorem Delimited.flatMap (hl : ∀ a ∈ l, P a) (hm : ∀ a ∈ m, P a) (hlength : l.length = m.length)
    (heq : l.flatMap enc ++ r = m.flatMap enc ++ s) : l = m ∧ r = s := by
  induction l generalizing m with
  | nil =>
    obtain rfl := length_eq_zero_iff.mp hlength.symm
    exact ⟨rfl, heq⟩
  | cons a l ih =>
    cases m with
    | nil => cases hlength
    | cons b m =>
      simp only [flatMap_cons, append_assoc] at heq
      simp only [forall_mem_cons] at hl hm
      obtain ⟨rfl, htail⟩ := h hl.1 hm.1 heq
      obtain ⟨rfl, hrest⟩ := ih hl.2 hm.2 (Nat.succ.inj hlength) htail
      exact ⟨rfl, hrest⟩

/-- Fields up to a rest that begins with none. -/
theorem Delimited.flatMap_rest (hr : ∀ a, P a → ∀ more, r ≠ enc a ++ more)
    (hs : ∀ a, P a → ∀ more, s ≠ enc a ++ more) (hl : ∀ a ∈ l, P a) (hm : ∀ a ∈ m, P a)
    (heq : l.flatMap enc ++ r = m.flatMap enc ++ s) : l = m ∧ r = s := by
  induction l generalizing m with
  | nil =>
    cases m with
    | nil => exact ⟨rfl, heq⟩
    | cons b m =>
      rw [flatMap_cons, append_assoc] at heq
      exact absurd heq (hr b (hm b mem_cons_self) _)
  | cons a l ih =>
    rw [flatMap_cons, append_assoc] at heq
    simp only [forall_mem_cons] at hl
    cases m with
    | nil => exact absurd heq.symm (hs a hl.1 _)
    | cons b m =>
      rw [flatMap_cons, append_assoc] at heq
      simp only [forall_mem_cons] at hm
      obtain ⟨rfl, htail⟩ := h hl.1 hm.1 heq
      obtain ⟨rfl, hrest⟩ := ih hl.2 hm.2 htail
      exact ⟨rfl, hrest⟩

/-- Fields up to a letter with which no field begins. -/
theorem Delimited.flatMap_until (hhead : ∀ a, P a → ∃ c rest, enc a = c :: rest ∧ c ≠ t)
    (hl : ∀ a ∈ l, P a) (hm : ∀ a ∈ m, P a)
    (heq : l.flatMap enc ++ t :: r = m.flatMap enc ++ t :: s) : l = m ∧ r = s := by
  have hrest : ∀ (r : List γ) a, P a → ∀ more, t :: r ≠ enc a ++ more := by
    intro r a ha more hmore
    obtain ⟨c, rest, hc, hne⟩ := hhead a ha
    rw [hc] at hmore
    exact hne (List.cons.inj hmore).1.symm
  exact (h.flatMap_rest (hrest r) (hrest s) hl hm heq).imp_right fun heq => (List.cons.inj heq).2

/-- Fields up to the end of the text. -/
theorem Delimited.flatMap_inj (hne : ∀ a, P a → enc a ≠ [])
    (hl : ∀ a ∈ l, P a) (hm : ∀ a ∈ m, P a) (heq : l.flatMap enc = m.flatMap enc) : l = m := by
  have hrest : ∀ a, P a → ∀ more, [] ≠ enc a ++ more := by
    intro a ha more hmore
    exact hne a ha (append_eq_nil_iff.mp hmore.symm).1
  exact (h.flatMap_rest hrest hrest hl hm (by rw [heq])).1

end

/-- `as_bytes`. -/
def utf8 (s : String) : List UInt8 :=
  s.toByteArray.data.toList

theorem utf8_injective : Function.Injective utf8 := by
  intro s t h
  apply String.toByteArray_inj.mp
  apply ByteArray.ext
  exact Array.toList_inj.mp h

theorem utf8_eq (s : String) : utf8 s = s.toList.flatMap String.utf8EncodeChar := by
  conv_lhs => rw [← @String.ofList_toList s]
  rw [utf8, String.toByteArray_ofList, List.utf8Encode]
  simp

theorem zero_notMem_utf8EncodeChar (h : c ≠ '\x00') : 0 ∉ String.utf8EncodeChar c := by
  have hpos : c.val.toNat ≠ 0 := by
    intro hzero
    apply h
    apply Char.ext
    exact UInt32.toNat_inj.mp hzero
  have hbyte : ∀ n : Nat, n % 256 ≠ 0 → (0 : UInt8) ≠ UInt8.ofNat n := by
    intro n hn heq
    have hnat := congrArg UInt8.toNat heq
    simp at hnat
    omega
  rw [String.utf8EncodeChar.eq_1]
  split_ifs with h1 h2 h3
  · simpa using hbyte c.val.toNat (by omega)
  · simp only [mem_cons, not_mem_nil, or_false, not_or]
    exact ⟨hbyte _ (by omega), hbyte _ (by omega)⟩
  · simp only [mem_cons, not_mem_nil, or_false, not_or]
    exact ⟨hbyte _ (by omega), hbyte _ (by omega), hbyte _ (by omega)⟩
  · simp only [mem_cons, not_mem_nil, or_false, not_or]
    exact ⟨hbyte _ (by omega), hbyte _ (by omega), hbyte _ (by omega), hbyte _ (by omega)⟩

/-- A text without the letter zero has no zero byte. -/
theorem zero_notMem_utf8 {s : String} (h : '\x00' ∉ s.toList) : 0 ∉ utf8 s := by
  rw [utf8_eq, mem_flatMap]
  rintro ⟨c, hc, hzero⟩
  apply zero_notMem_utf8EncodeChar _ hzero
  rintro rfl
  exact h hc

/-- A letter for each byte, beyond the ASCII letters. -/
def spell (byte : UInt8) : Char :=
  Char.ofNat (byte.toNat + 256)

theorem toNat_spell (byte : UInt8) : (spell byte).toNat = byte.toNat + 256 := by
  have hlt := byte.toNat_lt
  have hvalid : (byte.toNat + 256).isValidChar := .inl (by omega)
  rw [spell, Char.ofNat, dif_pos hvalid]
  rfl

/-- Any bytes as a text. -/
def spelled (bytes : List UInt8) : String :=
  String.ofList (bytes.map spell)

theorem spelled_injective : Function.Injective spelled := by
  intro l r h
  apply map_injective_iff.mpr _ (String.ofList_inj.mp h)
  intro a b hab
  have hcodes : a.toNat + 256 = b.toNat + 256 := by rw [← toNat_spell, hab, toNat_spell]
  exact UInt8.toNat_inj.mp (by omega)

theorem notMem_spelled (h : c.toNat < 256) (bytes : List UInt8) : c ∉ (spelled bytes).toList := by
  rw [spelled, String.toList_ofList, mem_map]
  rintro ⟨byte, _, rfl⟩
  rw [toNat_spell] at h
  omega

/-- `to_le_bytes` of a number of the given width. -/
def leBytes : Nat → Nat → List UInt8
  | 0, _ => []
  | width + 1, n => UInt8.ofNat n :: leBytes width (n / 256)

theorem length_leBytes (width n : Nat) : (leBytes width n).length = width := by
  induction width generalizing n with
  | zero => rfl
  | succ width ih => rw [leBytes, length_cons, ih]

theorem leBytes_inj {width m : Nat} (hm : m < 256 ^ width) (hn : n < 256 ^ width)
    (h : leBytes width m = leBytes width n) : m = n := by
  induction width generalizing m n with
  | zero =>
    rw [Nat.pow_zero] at hm hn
    omega
  | succ width ih =>
    simp only [leBytes, List.cons.injEq] at h
    have hlow : m % 256 = n % 256 := by
      have hbytes := congrArg UInt8.toNat h.1
      simpa using hbytes
    have hhigh : m / 256 = n / 256 := by
      rw [Nat.pow_succ] at hm hn
      exact ih (Nat.div_lt_of_lt_mul (by omega)) (Nat.div_lt_of_lt_mul (by omega)) h.2
    omega

theorem delimited_leBytes (width : Nat) : Delimited (· < 256 ^ width) (leBytes width) :=
  delimited_of_length (fun n _ => length_leBytes width n) fun _ _ => leBytes_inj

theorem delimited_counted (width : Nat) :
    Delimited (fun bytes : List UInt8 => bytes.length < 256 ^ width)
      fun bytes => leBytes width bytes.length ++ bytes := by
  intro a b r s ha hb heq
  simp only [append_assoc] at heq
  obtain ⟨hlength, htail⟩ := delimited_leBytes width ha hb heq
  exact append_inj htail hlength

end Encoding
