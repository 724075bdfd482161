import Mathlib.Algebra.Ring.Int.Defs
import Mathlib.Algebra.Ring.Nat
import Qcg.Library.Checked

/-!
# The number tokens of a JSON text

The guard that runs over a raw text before it is converted: a flat scan that skips
strings and checks each number token. The grammar of JSON is stated beside it, with
the number tokens of a text, and the guard accepts a text exactly when each of its
tokens is a representable integer or a finite float.
-/

namespace Qcg

namespace NumberToken

open List

/-- The number that decimal digits denote. -/
def decimal (digits : List Char) : Nat :=
  digits.foldl (fun n c => 10 * n + (c.toNat - '0'.toNat)) 0

def IsDigits (text : List Char) : Prop :=
  text ≠ [] ∧ ∀ c ∈ text, c.isDigit = true

instance (text : List Char) : Decidable (IsDigits text) :=
  inferInstanceAs (Decidable (_ ∧ _))

/-- Whether `str::parse::<i64>` succeeds. -/
def parsesI64 : List Char → Bool
  | '-' :: digits => IsDigits digits ∧ decimal digits ≤ 2 ^ 63
  | '+' :: digits => IsDigits digits ∧ decimal digits < 2 ^ 63
  | digits => IsDigits digits ∧ decimal digits < 2 ^ 63

/-- Whether `str::parse::<u64>` succeeds: here a minus is no sign. -/
def parsesU64 : List Char → Bool
  | '+' :: digits => IsDigits digits ∧ decimal digits < 2 ^ 64
  | digits => IsDigits digits ∧ decimal digits < 2 ^ 64

def jsonNumberRangeMsg : String :=
  "numbers must be integers in [-2^63, 2^64-1] or finite floats"

-- whether a lexeme reads as a finite `f64`
variable (finite : List Char → Bool)

def isMark (c : Char) : Bool :=
  ['.', 'e', 'E'].contains c

def validateNumberLexeme (lexeme : List Char) : Except String Unit :=
  let supported := if lexeme.any isMark then finite lexeme
    else parsesI64 lexeme || parsesU64 lexeme
  if supported then .ok () else .error jsonNumberRangeMsg

def inLexeme (c : Char) : Bool :=
  c.isDigit || isMark c || ['+', '-'].contains c

def scan (inString escaped : Bool) : List Char → Except String Unit
  | [] => .ok ()
  | c :: rest =>
    if inString then
      if escaped then scan true false rest
      else if c = '\\' then scan true true rest
      else if c = '"' then scan false false rest
      else scan true false rest
    else if c = '"' then scan true escaped rest
    else if c = '-' || c.isDigit then do
      validateNumberLexeme finite (c :: rest.takeWhile inLexeme)
      scan false escaped (rest.dropWhile inLexeme)
    else scan false escaped rest
termination_by text => text.length
decreasing_by
  all_goals simp only [length_cons]
  all_goals first | omega | exact Nat.lt_succ_of_le (dropWhile_suffix _).length_le

def validateJsonNumberTokens (raw : List Char) : Except String Unit :=
  scan finite false false raw

/-- A number of the grammar; a fraction or exponent that is absent is empty. -/
structure Number where
  negative : Bool
  digits : List Char
  fraction : List Char
  exponent : List Char
  digits_wf : IsDigits digits ∧ (digits.head? = some '0' → digits = ['0'])
  fraction_wf : fraction = [] ∨ ∃ ds, fraction = '.' :: ds ∧ IsDigits ds
  exponent_wf : exponent = [] ∨ ∃ mark sign ds, exponent = mark :: (sign ++ ds) ∧
    mark ∈ ['e', 'E'] ∧ sign ∈ [[], ['+'], ['-']] ∧ IsDigits ds

namespace Number

variable (n : Number)

def sign : List Char :=
  if n.negative then ['-'] else []

def text : List Char :=
  n.sign ++ (n.digits ++ (n.fraction ++ n.exponent))

def value : Int :=
  if n.negative then -decimal n.digits else decimal n.digits

def Supported : Prop :=
  if n.fraction = [] ∧ n.exponent = [] then -2 ^ 63 ≤ n.value ∧ n.value ≤ 2 ^ 64 - 1
  else finite n.text = true

end Number

def blanks : List Char :=
  [' ', '\t', '\n', '\r']

def IsBlank (text : List Char) : Prop :=
  ∀ c ∈ text, c ∈ blanks

def isHex (c : Char) : Bool :=
  c.isDigit || ('a' ≤ c && c ≤ 'f') || ('A' ≤ c && c ≤ 'F')

/-- What may stand between the quotes of a string. -/
inductive Body : List Char → Prop
  | nil : Body []
  | plain {c s} : c ≠ '"' → c ≠ '\\' → 32 ≤ c.toNat → Body s → Body (c :: s)
  | escape {c s} : c ∈ ['"', '\\', '/', 'b', 'f', 'n', 'r', 't'] → Body s → Body ('\\' :: c :: s)
  -- the four digits are themselves characters of the body
  | unicode {s} : 4 ≤ s.length → (∀ c ∈ s.take 4, isHex c = true) → Body s → Body ('\\' :: 'u' :: s)

inductive Kind where
  | value
  | items (members : Bool)

def opening (members : Bool) : Char :=
  if members then '\x7b' else '['

def closing (members : Bool) : Char :=
  if members then '\x7d' else ']'

def words : List (List Char) :=
  ["true", "false", "null"].map String.toList

/-- The texts of each kind, with their number tokens from left to right. -/
inductive Parses : Kind → List Char → List Number → Prop
  | word {t} : t ∈ words → Parses .value t []
  | number (n : Number) : Parses .value n.text [n]
  | string {s} : Body s → Parses .value ('"' :: (s ++ ['"'])) []
  | empty (members) {w} : IsBlank w →
      Parses .value (opening members :: (w ++ [closing members])) []
  | bracketed {members t ns} : Parses (.items members) t ns →
      Parses .value (opening members :: (t ++ [closing members])) ns
  | padded {w t w' ns} : IsBlank w → Parses .value t ns → IsBlank w' →
      Parses .value (w ++ (t ++ w')) ns
  | item {t ns} : Parses .value t ns → Parses (.items false) t ns
  | member {w s w' t ns} : IsBlank w → Body s → IsBlank w' → Parses .value t ns →
      Parses (.items true) (w ++ ('"' :: (s ++ '"' :: (w' ++ ':' :: t)))) ns
  | more {members t t' ns ns'} : Parses (.items members) t ns → Parses (.items members) t' ns' →
      Parses (.items members) (t ++ ',' :: t') (ns ++ ns')

structure Text where
  chars : List Char
  numbers : List Number
  parses : Parses .value chars numbers

variable {finite} {n : Number} {rest : List Char}

theorem IsDigits.inLexeme {ds : List Char} (h : IsDigits ds) : ∀ c ∈ ds, inLexeme c = true := by
  intro c hc
  simp [NumberToken.inLexeme, h.2 c hc]

theorem IsDigits.isMark {ds : List Char} (h : IsDigits ds) : ∀ c ∈ ds, ¬isMark c = true := by
  intro c hc hmark
  have hdigit := h.2 c hc
  simp only [NumberToken.isMark, contains_cons, contains_nil, Bool.or_false, Bool.or_eq_true,
    beq_iff_eq] at hmark
  rcases hmark with rfl | rfl | rfl <;> exact absurd hdigit (by decide)

theorem text_inLexeme : ∀ c ∈ n.text, inLexeme c = true := by
  have hsign : ∀ c ∈ n.sign, inLexeme c = true := by
    cases h : n.negative <;> simp [Number.sign, h, inLexeme]
  have hfraction : ∀ c ∈ n.fraction, inLexeme c = true := by
    rcases n.fraction_wf with h | ⟨ds, h, hds⟩ <;> rw [h]
    · nofun
    · exact forall_mem_cons.mpr ⟨rfl, hds.inLexeme⟩
  have hexponent : ∀ c ∈ n.exponent, inLexeme c = true := by
    rcases n.exponent_wf with h | ⟨mark, sign, ds, h, hmark, hsign, hds⟩ <;> rw [h]
    · nofun
    · simp only [mem_cons, not_mem_nil, or_false] at hmark hsign
      rw [forall_mem_cons, forall_mem_append]
      refine ⟨?_, ?_, hds.inLexeme⟩
      · rcases hmark with rfl | rfl <;> rfl
      · rcases hsign with rfl | rfl | rfl <;> simp [inLexeme]
  simp only [Number.text, forall_mem_append]
  exact ⟨hsign, n.digits_wf.1.inLexeme, hfraction, hexponent⟩

theorem any_mark : n.text.any isMark = true ↔ ¬(n.fraction = [] ∧ n.exponent = []) := by
  have hsign : n.sign.any isMark = false := by
    cases h : n.negative <;> simp [Number.sign, h, isMark]
  have hdigits : n.digits.any isMark = false := any_eq_false.mpr n.digits_wf.1.isMark
  rw [Number.text, any_append, any_append, any_append, hsign, hdigits]
  rcases n.fraction_wf with hf | ⟨ds, hf, _⟩
  · rcases n.exponent_wf with he | ⟨mark, sign, ds, he, hmark, _⟩
    · simp [hf, he]
    · simp only [mem_cons, not_mem_nil, or_false] at hmark
      rcases hmark with rfl | rfl <;> simp [hf, he, isMark]
  · simp [hf, isMark]

/-- An integer is read by one of the two integer types exactly when it is in their range. -/
theorem parses_integer (hfraction : n.fraction = []) (hexponent : n.exponent = []) :
    (parsesI64 n.text || parsesU64 n.text) = true ↔ -2 ^ 63 ≤ n.value ∧ n.value ≤ 2 ^ 64 - 1 := by
  have hdigits := n.digits_wf.1
  cases hsign : n.negative with
  | true =>
    have hminus : ¬IsDigits ('-' :: n.digits) := fun h => absurd (h.2 '-' (by simp)) (by decide)
    have hparse : (parsesI64 n.text || parsesU64 n.text) = true ↔ decimal n.digits ≤ 2 ^ 63 := by
      simp [Number.text, Number.sign, hsign, hfraction, hexponent, parsesI64, parsesU64, hdigits,
        hminus]
    rw [hparse, Number.value, if_pos hsign]
    omega
  | false =>
    have htext : n.text = n.digits := by simp [Number.text, Number.sign, hsign, hfraction,
      hexponent]
    obtain ⟨c, ds, hcons⟩ := exists_cons_of_ne_nil hdigits.1
    have hc : c.isDigit = true := hdigits.2 c (by simp [hcons])
    have hminus : c ≠ '-' := by rintro rfl; exact absurd hc (by decide)
    have hplus : c ≠ '+' := by rintro rfl; exact absurd hc (by decide)
    rw [hcons] at hdigits
    simp [htext, Number.value, hsign, hcons, parsesI64, parsesU64, hminus, hplus, hdigits]
    omega

theorem validateNumberLexeme_eq_ok :
    validateNumberLexeme finite n.text = .ok () ↔ n.Supported finite := by
  simp only [validateNumberLexeme, ite_eq_left_iff, reduceCtorEq, imp_false, not_not,
    Number.Supported]
  by_cases h : n.fraction = [] ∧ n.exponent = []
  · rw [if_neg (mt any_mark.mp (not_not.mpr h)), if_pos h, parses_integer h.1 h.2]
  · rw [if_pos (any_mark.mpr h), if_neg h]

/-- The text does not go on with a character of a number. -/
def Stops (rest : List Char) : Prop :=
  ∀ c ∈ rest.head?, inLexeme c = false

def Accepts (finite : List Char → Bool) (text : List Char) : Prop :=
  scan finite false false text = .ok ()

def isPlain (c : Char) : Bool :=
  c ≠ '"' && c ≠ '-' && !c.isDigit

theorem accepts_cons {c : Char} (h : isPlain c = true) :
    Accepts finite (c :: rest) ↔ Accepts finite rest := by
  simp only [isPlain, Bool.and_eq_true, decide_eq_true_eq, Bool.not_eq_true'] at h
  rw [Accepts, scan]
  simp [h.1.1, h.1.2, h.2, Accepts]

theorem accepts_append {text : List Char} (h : ∀ c ∈ text, isPlain c = true) :
    Accepts finite (text ++ rest) ↔ Accepts finite rest := by
  induction text with
  | nil => rfl
  | cons c text ih =>
    rw [forall_mem_cons] at h
    rw [cons_append, accepts_cons h.1, ih h.2]

theorem plain_of_blank {c : Char} (h : c ∈ blanks) : isPlain c = true ∧ inLexeme c = false := by
  have hall : blanks.all (fun c => isPlain c && !inLexeme c) = true := by decide
  simpa using all_eq_true.mp hall c h

theorem accepts_blank {w : List Char} (h : IsBlank w) :
    Accepts finite (w ++ rest) ↔ Accepts finite rest :=
  accepts_append fun c hc => (plain_of_blank (h c hc)).1

theorem scan_body {s : List Char} (h : Body s) :
    scan finite true false (s ++ '"' :: rest) = scan finite false false rest := by
  induction h with
  | nil =>
    rw [nil_append, scan]
    simp
  | @plain c s hquote hslash _ _ ih =>
    rw [cons_append, scan]
    simp [hquote, hslash, ih]
  | escape _ _ ih => simp [scan, ih]
  | unicode _ _ _ ih => simp [scan, ih]

theorem accepts_quoted {s : List Char} (h : Body s) :
    Accepts finite ('"' :: (s ++ '"' :: rest)) ↔ Accepts finite rest := by
  rw [Accepts, scan]
  simp [scan_body h, Accepts]

theorem accepts_number (hrest : Stops rest) :
    Accepts finite (n.text ++ rest) ↔ n.Supported finite ∧ Accepts finite rest := by
  have hall := @text_inLexeme n
  rw [← validateNumberLexeme_eq_ok]
  obtain ⟨c, tail, htext, hstart⟩ : ∃ c tail, n.text = c :: tail ∧
    (c = '-' ∨ c.isDigit = true) := by
    obtain ⟨d, ds, hcons⟩ := exists_cons_of_ne_nil n.digits_wf.1.1
    cases hsign : n.negative with
    | true =>
      refine ⟨'-', n.digits ++ (n.fraction ++ n.exponent), ?_, .inl rfl⟩
      simp [Number.text, Number.sign, hsign]
    | false =>
      refine ⟨d, ds ++ (n.fraction ++ n.exponent), ?_, .inr (n.digits_wf.1.2 d (by simp [hcons]))⟩
      simp [Number.text, Number.sign, hsign, hcons]
  rw [htext, forall_mem_cons] at hall
  have htake : rest.takeWhile inLexeme = [] ∧ rest.dropWhile inLexeme = rest := by
    cases rest with
    | nil => exact ⟨rfl, rfl⟩
    | cons d rest =>
      have hd : inLexeme d = false := hrest d rfl
      simp [hd]
  have hquote : c ≠ '"' := by
    rintro rfl
    exact absurd hstart (by decide)
  rw [htext, Accepts, cons_append, scan]
  simp only [hquote, hstart, Bool.false_eq_true, if_false, Bool.or_eq_true, decide_eq_true_eq,
    if_true, takeWhile_append_of_pos hall.2, dropWhile_append_of_pos hall.2, htake, append_nil]
  rw [Except.unit_bind_eq_ok, Accepts]

theorem plain_bracket (members : Bool) : isPlain (opening members) = true ∧
    isPlain (closing members) = true ∧ inLexeme (closing members) = false := by
  cases members <;> exact ⟨rfl, rfl, rfl⟩

theorem stops_blank {w : List Char} (h : IsBlank w) (hrest : Stops rest) : Stops (w ++ rest) := by
  cases w with
  | nil => exact hrest
  | cons c w =>
    rintro _ ⟨⟩
    exact (plain_of_blank (h c mem_cons_self)).2

theorem accepts_parses {kind : Kind} {t : List Char} {ns : List Number} (h : Parses kind t ns)
    (hrest : Stops rest) :
    Accepts finite (t ++ rest) ↔ (∀ n ∈ ns, n.Supported finite) ∧ Accepts finite rest := by
  have hcomma : isPlain ',' = true := rfl
  have hcolon : isPlain ':' = true := rfl
  induction h generalizing rest with
  | word ht =>
    have hwords : words.all (·.all isPlain) = true := by decide
    rw [accepts_append (all_eq_true.mp (all_eq_true.mp hwords _ ht))]
    simp
  | number n => simp [accepts_number hrest]
  | string hs => simp [accepts_quoted hs]
  | empty members hw =>
    obtain ⟨hopening, hclosing, _⟩ := plain_bracket members
    simp [accepts_cons hopening, accepts_blank hw, accepts_cons hclosing]
  | @bracketed members t ns _ ih =>
    obtain ⟨hopening, hclosing, hstop⟩ := plain_bracket members
    have hstops : Stops (closing members :: rest) := by
      rintro _ ⟨⟩
      exact hstop
    simp [accepts_cons hopening, ih hstops, accepts_cons hclosing]
  | padded hw _ hw' ih =>
    simp [accepts_blank hw, ih (stops_blank hw' hrest), accepts_blank hw']
  | item _ ih => exact ih hrest
  | member hw hs hw' _ ih =>
    simp [accepts_blank hw, accepts_quoted hs, accepts_blank hw', accepts_cons hcolon, ih hrest]
  | @more members t t' ns ns' _ _ ih ih' =>
    have hstops : Stops (',' :: (t' ++ rest)) := by
      rintro _ ⟨⟩
      rfl
    simp only [append_assoc, cons_append, ih hstops, accepts_cons hcomma, ih' hrest,
      forall_mem_append, and_assoc]

/-- The guard accepts a text exactly when it supports each of the number tokens. -/
theorem guard_accepts_iff_supported (finite : List Char → Bool) (t : Text) :
    validateJsonNumberTokens finite t.chars = .ok () ↔ ∀ n ∈ t.numbers, n.Supported finite := by
  have hend : Stops [] := nofun
  have h := @accepts_parses finite _ _ _ _ t.parses hend
  rw [append_nil] at h
  rw [validateJsonNumberTokens, ← Accepts, h]
  simp [Accepts, scan]

theorem isDigits_of_all {text : List Char} (hne : text ≠ [])
    (h : text.all Char.isDigit = true) : IsDigits text :=
  ⟨hne, all_eq_true.mp h⟩

/-- The token `-1.5e3`. -/
def minusThousands : Number where
  negative := true
  digits := ['1']
  fraction := ['.', '5']
  exponent := ['e', '3']
  digits_wf := ⟨isDigits_of_all (by simp) rfl, by simp⟩
  fraction_wf := .inr ⟨['5'], rfl, isDigits_of_all (by simp) rfl⟩
  exponent_wf := .inr ⟨'e', [], ['3'], rfl, by simp, by simp, isDigits_of_all (by simp) rfl⟩

/-- The token `18446744073709551615`. -/
def largestUnsigned : Number where
  negative := false
  digits := "18446744073709551615".toList
  fraction := []
  exponent := []
  digits_wf := ⟨isDigits_of_all (by simp) rfl, by simp⟩
  fraction_wf := .inl rfl
  exponent_wf := .inl rfl

/-- An array of both under a key with an escaped quote and a digit. -/
def nestedText : Text where
  chars := "\x7b\"a\\\"9\":[-1.5e3 , 18446744073709551615]\x7d".toList
  numbers := [minusThousands, largestUnsigned]
  parses := by
    have hkey : Body ['a', '\\', '"', '9'] :=
      .plain (by decide) (by decide) (by decide) (.escape (by decide)
        (.plain (by decide) (by decide) (by decide) .nil))
    have hnone : IsBlank [] := by simp [IsBlank]
    have hspace : IsBlank [' '] := by simp [IsBlank, blanks]
    have harray := Parses.more (.item (.padded hnone (.number minusThousands) hspace))
      (.item (.padded hspace (.number largestUnsigned) hnone))
    exact Parses.bracketed (Parses.member hnone hkey hnone (.bracketed harray))

/-- Digits in a key are not a token, and the largest unsigned integer is supported. -/
theorem guard_accepts_iff_supported_nested :
    validateJsonNumberTokens (fun _ => true) nestedText.chars = .ok () := by
  have hlargest : largestUnsigned.Supported fun _ => true := by
    unfold Number.Supported
    decide +kernel
  refine (guard_accepts_iff_supported _ nestedText).mpr ?_
  exact forall_mem_cons.mpr ⟨rfl, forall_mem_cons.mpr ⟨hlargest, nofun⟩⟩

end NumberToken

end Qcg
