import Qcg.Contract.ExprCall
import Qcg.Contract.Inputs

/-!
# The lexer of the expression language

`tokenize` over the characters of a source, one token at a time, and what a token becomes when a
delimiter follows it.
-/

namespace Qcg.Expr

open List

inductive Operator where
  | not
  | binary (operator : BinaryOperator)
  deriving DecidableEq, Repr

inductive Token where
  | identifier (name : String)
  | string (s : String)
  | number (n : Number)
  | bool (b : Bool)
  | null
  | operator (operator : Operator)
  | leftParen
  | rightParen
  | leftBracket
  | rightBracket
  | comma
  | endOfInput

/-- A message about a token ends with that token. -/
inductive ExprError where
  | inputTooLarge (bytes limit : Nat)
  | tooManyTokens (limit : Nat)
  | tooDeep (limit : Nat)
  | tooManyNodes (limit : Nat)
  | syntaxError (text : String) (found : Option Token)

/-- A refusal because of the size of the source. -/
def ExprError.IsLimit : ExprError → Prop
  | .syntaxError _ _ => False
  | _ => True

def maxExpressionBytes : Nat :=
  64 * 1024

/-- The end of the input counts as a token. -/
def maxExpressionTokens : Nat :=
  4096

/-- How the standard library and `serde_json` read a number; a double that is not finite is
`some none`. -/
structure NumberReader where
  fromStr : String → Option Number
  parseF64 : String → Option (Option Binary64)

section Lexer

variable (reader : NumberReader)

def parseFloatLiteral (literal : String) : Except ExprError Number :=
  match reader.parseF64 literal with
  | none => .error (.syntaxError ("invalid number literal `" ++ literal ++ "`") none)
  | some none => .error (.syntaxError "number literal is not finite" none)
  | some (some x) => .ok (.float x)

def parseNumberLiteral (literal : String) : Except ExprError Number :=
  if literal.toList.any fun c => c = '.' || c = 'e' || c = 'E' then
    parseFloatLiteral reader literal
  else
    match reader.fromStr literal with
    | some (.int n low high) => .ok (.int n low high)
    | some (.float _) =>
      .error (.syntaxError ("integer literal `" ++ literal ++ "` is out of range") none)
    | none => parseFloatLiteral reader literal

def unescape : Char → Option Char
  | 'n' => some '\n'
  | 'r' => some '\r'
  | 't' => some '\t'
  | '\\' => some '\\'
  | '\'' => some '\''
  | '"' => some '"'
  | _ => none

def scanString (quote : Char) (value : List Char) :
    List Char → Except ExprError (List Char × List Char)
  | [] => .error (.syntaxError "unterminated string literal" none)
  | current :: rest =>
    if current = quote then .ok (value, rest)
    else if current = '\\' then
      match rest with
      | [] => .error (.syntaxError "unterminated string escape" none)
      | escaped :: rest =>
        match unescape escaped with
        | some c => scanString quote (value ++ [c]) rest
        | none =>
          .error (.syntaxError ("unsupported string escape `\\" ++ escaped.toString ++ "`") none)
    else scanString quote (value ++ [current]) rest

def startsNumber (c : Char) (rest : List Char) : Bool :=
  c.isDigit || (c = '.' && rest.head?.any Char.isDigit)

def isNumberChar (c : Char) : Bool :=
  c.isDigit || c = '.' || c = 'e' || c = 'E' || c = '+' || c = '-'

/-- The rest of a number literal; a sign belongs to it only after an exponent mark. -/
def numberRun (previous : Char) : List Char → List Char × List Char
  | [] => ([], [])
  | c :: rest =>
    if isNumberChar c &&
        !((c = '+' || c = '-') && !(previous = 'e' || previous = 'E')) then
      let run := numberRun c rest
      (c :: run.1, run.2)
    else ([], c :: rest)

def startsIdentifier (c : Char) : Bool :=
  c.isAlpha || c = '_'

def isPlainIdentifier (c : Char) : Bool :=
  c.isAlphanum || c = '_' || c = '.' || c = '-'

/-- The text starts with the field name, and the name ends there. -/
def fieldAt : List Char → List Char → Bool
  | [], rest => rest.head?.all fun next => !next.isAlphanum && next ≠ '_'
  | _ :: _, [] => false
  | a :: field, b :: rest => a == b && fieldAt field rest

def isOutcomeField (rest : List Char) : Bool :=
  ["output", "status", "reason"].any fun field => fieldAt field.toList rest

def stepsDot : List Char :=
  ['s', 't', 'e', 'p', 's', '.']

/-- Whether the identifier goes on with this character. In a step path brackets, `@` and, before
the outcome field, slashes belong to it. -/
def continuesIdentifier (stepPath outcomeField : Bool) (c : Char) : Bool :=
  isPlainIdentifier c || (stepPath && (c = '@' || c = '[' || c = ']')) ||
    (stepPath && c = '/' && !outcomeField)

/-- The rest of an identifier of which `taken` has been read. -/
def identifierRun (taken : List Char) (stepPath outcomeField : Bool) :
    List Char → List Char × List Char
  | [] => (taken, [])
  | c :: rest =>
    if continuesIdentifier stepPath outcomeField c then
      identifierRun (taken ++ [c]) (stepPath || taken ++ [c] == stepsDot)
        (outcomeField || (c = '.' && stepPath && isOutcomeField rest)) rest
    else (taken, c :: rest)

def identifierToken (name : String) : Token :=
  if name = "true" then .bool true
  else if name = "false" then .bool false
  else if name = "null" then .null
  else .identifier name

def pairOperator (c next : Char) : Option BinaryOperator :=
  match c, next with
  | '|', '|' => some .or
  | '&', '&' => some .and
  | '=', '=' => some .eq
  | '!', '=' => some .ne
  | '>', '=' => some .ge
  | '<', '=' => some .le
  | _, _ => none

def singleToken : Char → Option Token
  | '!' => some (.operator .not)
  | '>' => some (.operator (.binary .gt))
  | '<' => some (.operator (.binary .lt))
  | '+' => some (.operator (.binary .add))
  | '-' => some (.operator (.binary .sub))
  | '*' => some (.operator (.binary .mul))
  | '/' => some (.operator (.binary .div))
  | '%' => some (.operator (.binary .rem))
  | '(' => some .leftParen
  | ')' => some .rightParen
  | '[' => some .leftBracket
  | ']' => some .rightBracket
  | ',' => some .comma
  | _ => none

def scanSymbol (index : Nat) (c : Char) (rest : List Char) :
    Except ExprError (Token × List Char) :=
  match rest.head?.bind (pairOperator c) with
  | some operator => .ok (.operator (.binary operator), rest.tail)
  | none =>
    match singleToken c with
    | some token => .ok (token, rest)
    | none =>
      .error (.syntaxError
        ("unexpected character `" ++ c.toString ++ "` at position " ++ toString index) none)

def scanNumber (c : Char) (rest : List Char) : Except ExprError (Token × List Char) :=
  let run := numberRun c rest
  match parseNumberLiteral reader (String.ofList (c :: run.1)) with
  | .ok n => .ok (.number n, run.2)
  | .error e => .error e

def scanIdentifier (c : Char) (rest : List Char) : Token × List Char :=
  let run := identifierRun [c] false false rest
  (identifierToken (String.ofList run.1), run.2)

/-- One turn of the loop of `tokenize` at a character that is not white space. -/
def scanToken (index : Nat) (c : Char) (rest : List Char) :
    Except ExprError (Token × List Char) :=
  if c = '\'' ∨ c = '"' then
    match scanString c [] rest with
    | .ok (value, rest) => .ok (.string (String.ofList value), rest)
    | .error e => .error e
  else if startsNumber c rest then scanNumber reader c rest
  else if startsIdentifier c then .ok (scanIdentifier c rest)
  else scanSymbol index c rest

def pushToken (tokens : List Token) (token : Token) : Except ExprError (List Token) :=
  if tokens.length ≥ maxExpressionTokens then .error (.tooManyTokens maxExpressionTokens)
  else .ok (tokens ++ [token])

/-- The loop of `tokenize`; `fuel` bounds its turns, each of which reads a character. -/
def tokenizeLoop : (fuel index : Nat) → List Char → List Token → Except ExprError (List Token)
  | _, _, [], tokens => pushToken tokens .endOfInput
  | 0, _, _ :: _, tokens => pushToken tokens .endOfInput
  | fuel + 1, index, c :: rest, tokens =>
    if Splitting.isWhitespace c then tokenizeLoop fuel (index + 1) rest tokens
    else
      match scanToken reader index c rest with
      | .error e => .error e
      | .ok (token, remaining) =>
        match pushToken tokens token with
        | .error e => .error e
        | .ok tokens =>
          tokenizeLoop fuel (index + 1 + (rest.length - remaining.length)) remaining tokens

def byteLength (source : String) : Nat :=
  (source.toList.map Char.utf8Size).sum

def ensureExpressionBytes (source : String) : Except ExprError Unit :=
  if byteLength source > maxExpressionBytes then
    .error (.inputTooLarge (byteLength source) maxExpressionBytes)
  else .ok ()

def tokenize (source : String) : Except ExprError (List Token) :=
  match ensureExpressionBytes source with
  | .error e => .error e
  | .ok () => tokenizeLoop reader source.toList.length 0 source.toList []

/-! ### The tokens of a text -/

/-- A text that the loop reads to its end, with the tokens it gives. -/
inductive Lexes : List Char → List Token → Prop
  | nil : Lexes [] []
  | blank {c : Char} {rest : List Char} {tokens : List Token}
      (hc : Splitting.isWhitespace c = true) (hrest : Lexes rest tokens) : Lexes (c :: rest) tokens
  | token {c : Char} {rest remaining : List Char} {token : Token} {tokens : List Token}
      (hc : Splitting.isWhitespace c = false)
      (hscan : scanToken reader 0 c rest = .ok (token, remaining))
      (hrest : Lexes remaining tokens) : Lexes (c :: rest) (token :: tokens)

variable {rest remaining : List Char} {c : Char} {index : Nat} {token : Token}

theorem scanSymbol_eq_ok : scanSymbol index c rest = .ok (token, remaining) ↔
    (∃ operator, rest.head?.bind (pairOperator c) = some operator ∧
      token = .operator (.binary operator) ∧ remaining = rest.tail) ∨
    (rest.head?.bind (pairOperator c) = none ∧ singleToken c = some token ∧ remaining = rest) := by
  unfold scanSymbol
  cases rest.head?.bind (pairOperator c) with
  | some operator => simp [eq_comm]
  | none => cases singleToken c <;> simp [eq_comm]

theorem scanToken_ok (h : scanToken reader index c rest = .ok (token, remaining)) (other : Nat) :
    scanToken reader other c rest = .ok (token, remaining) := by
  unfold scanToken at h ⊢
  split_ifs at h ⊢ with hquote hnumber hidentifier
  · exact h
  · exact h
  · exact h
  · exact scanSymbol_eq_ok.mpr (scanSymbol_eq_ok.mp h)

variable {quote : Char} {found result : List Token} {outcomeField stepPath : Bool} {source : String}

theorem scanString_suffix {value result : List Char}
    (h : scanString quote value rest = .ok (result, remaining)) : remaining <:+ rest := by
  fun_induction scanString quote value rest with
  | case1 value => cases h
  | case2 value rest =>
    cases h
    exact suffix_cons _ _
  | case3 value hquote => cases h
  | case4 value escaped rest c hescaped hquote ih =>
    exact (ih h).trans ((suffix_cons _ _).trans (suffix_cons _ _))
  | case5 value escaped rest hescaped hquote => cases h
  | case6 value current rest hquote hescape ih => exact (ih h).trans (suffix_cons _ _)

theorem numberRun_append_eq (previous : Char) (rest : List Char) :
    (numberRun previous rest).1 ++ (numberRun previous rest).2 = rest := by
  induction rest generalizing previous with
  | nil => rfl
  | cons c rest ih =>
    rw [numberRun]
    split_ifs
    · rw [cons_append, ih c]
    · rfl

theorem exists_read_of_identifierRun {taken name : List Char}
    (h : identifierRun taken stepPath outcomeField rest = (name, remaining)) :
    ∃ read, name = taken ++ read ∧ rest = read ++ remaining := by
  induction rest generalizing taken stepPath outcomeField with
  | nil =>
    cases h
    exact ⟨[], by simp, rfl⟩
  | cons c rest ih =>
    rw [identifierRun] at h
    split_ifs at h
    · obtain ⟨read, rfl, rfl⟩ := ih h
      exact ⟨c :: read, by simp, rfl⟩
    · cases h
      exact ⟨[], by simp, rfl⟩

theorem scanNumber_eq_ok (h : scanNumber reader c rest = .ok (token, remaining)) :
    ∃ n, parseNumberLiteral reader (String.ofList (c :: (numberRun c rest).1)) = .ok n ∧
      token = .number n ∧ remaining = (numberRun c rest).2 := by
  unfold scanNumber at h
  cases hnumber : parseNumberLiteral reader (String.ofList (c :: (numberRun c rest).1)) with
  | error e => simp only [hnumber, reduceCtorEq] at h
  | ok n =>
    simp only [hnumber, Except.ok.injEq, Prod.mk.injEq] at h
    exact ⟨n, rfl, h.1.symm, h.2.symm⟩

theorem scanSymbol_suffix (h : scanSymbol index c rest = .ok (token, remaining)) :
    remaining <:+ rest := by
  rcases scanSymbol_eq_ok.mp h with ⟨_, -, -, rfl⟩ | ⟨-, -, rfl⟩
  · exact tail_suffix rest
  · exact suffix_rfl

theorem scanToken_suffix (h : scanToken reader index c rest = .ok (token, remaining)) :
    remaining <:+ rest := by
  unfold scanToken at h
  split_ifs at h with hquote hnumber hidentifier
  · cases hstring : scanString c [] rest with
    | error e => simp [hstring] at h
    | ok result =>
      obtain ⟨value, left⟩ := result
      simp only [hstring, Except.ok.injEq, Prod.mk.injEq] at h
      rw [← h.2]
      exact scanString_suffix hstring
  · obtain ⟨n, -, -, rfl⟩ := scanNumber_eq_ok reader h
    exact ⟨_, numberRun_append_eq c rest⟩
  · simp only [scanIdentifier, Except.ok.injEq, Prod.mk.injEq] at h
    obtain ⟨-, rfl⟩ := h
    obtain ⟨read, -, hread⟩ :=
      exists_read_of_identifierRun (rfl : identifierRun [c] false false rest = (_, _))
    exact ⟨read, hread.symm⟩
  · exact scanSymbol_suffix h

theorem pushToken_eq_ok {tokens : List Token} :
    pushToken tokens token = .ok result ↔
      tokens.length < maxExpressionTokens ∧ result = tokens ++ [token] := by
  unfold pushToken
  split_ifs with hfull
  · simp only [false_iff, not_and]
    omega
  · simp only [Except.ok.injEq, eq_comm, iff_and_self]
    omega

variable {text : List Char} {fuel : Nat}

theorem lexes_of_tokenizeLoop {tokens : List Token} (hfuel : text.length ≤ fuel)
    (h : tokenizeLoop reader fuel index text tokens = .ok result) :
    ∃ found, Lexes reader text found ∧ result = tokens ++ found ++ [.endOfInput] := by
  induction fuel generalizing index text tokens with
  | zero =>
    have hnil : text = [] := length_eq_zero_iff.mp (Nat.le_zero.mp hfuel)
    subst hnil
    obtain ⟨-, rfl⟩ := pushToken_eq_ok.mp h
    exact ⟨[], .nil, by simp⟩
  | succ fuel ih =>
    cases text with
    | nil =>
      obtain ⟨-, rfl⟩ := pushToken_eq_ok.mp h
      exact ⟨[], .nil, by simp⟩
    | cons c rest =>
      have hrest : rest.length ≤ fuel := by simpa using hfuel
      rw [tokenizeLoop] at h
      split_ifs at h with hblank
      · obtain ⟨found, hfound, rfl⟩ := ih hrest h
        exact ⟨found, .blank hblank hfound, rfl⟩
      · cases hscan : scanToken reader index c rest with
        | error e => simp [hscan] at h
        | ok scanned =>
          obtain ⟨token, remaining⟩ := scanned
          simp only [hscan] at h
          cases hpush : pushToken tokens token with
          | error e => simp [hpush] at h
          | ok pushed =>
            simp only [hpush] at h
            have hlength := (scanToken_suffix reader hscan).length_le
            obtain ⟨found, hfound, rfl⟩ := ih (hlength.trans hrest) h
            obtain ⟨-, rfl⟩ := pushToken_eq_ok.mp hpush
            refine ⟨token :: found, .token (by simpa using hblank)
              (scanToken_ok reader hscan 0) hfound, by simp⟩

variable {tokens : List Token}

theorem tokenizeLoop_of_lexes (h : Lexes reader text found) (hfuel : text.length ≤ fuel) :
    tokenizeLoop reader fuel index text tokens =
      if tokens.length + found.length < maxExpressionTokens then
        .ok (tokens ++ found ++ [.endOfInput])
      else .error (.tooManyTokens maxExpressionTokens) := by
  induction h generalizing fuel index tokens with
  | nil =>
    have hloop : tokenizeLoop reader fuel index [] tokens = pushToken tokens .endOfInput := by
      cases fuel <;> rfl
    rw [hloop, pushToken]
    by_cases hfull : tokens.length ≥ maxExpressionTokens
    · rw [if_pos hfull, if_neg (by simpa using hfull)]
    · rw [if_neg hfull, if_pos (by simpa using hfull)]
      simp
  | @blank c rest found hc hrest ih =>
    cases fuel with
    | zero => simp at hfuel
    | succ fuel =>
      rw [tokenizeLoop, if_pos hc]
      exact ih (by simpa using hfuel)
  | @token c rest remaining token found hc hscan hrest ih =>
    cases fuel with
    | zero => simp at hfuel
    | succ fuel =>
      have hlength := (scanToken_suffix reader hscan).length_le
      rw [tokenizeLoop, if_neg (by simp [hc]), scanToken_ok reader hscan index]
      simp only []
      by_cases hfull : tokens.length ≥ maxExpressionTokens
      · rw [pushToken, if_pos hfull, if_neg (by omega)]
      · rw [pushToken, if_neg hfull]
        simp only []
        rw [ih (hlength.trans (by simpa using hfuel))]
        simp only [length_append, length_cons, length_nil, append_assoc,
          cons_append, nil_append]
        congr 1
        simp only [eq_iff_iff]
        omega

theorem tokenize_of_lexes (h : Lexes reader source.toList found) :
    tokenize reader source = .ok (found ++ [.endOfInput]) ∨
      ∃ e, tokenize reader source = .error e ∧ e.IsLimit ∧
        ¬ (byteLength source ≤ maxExpressionBytes ∧ found.length < maxExpressionTokens) := by
  rw [tokenize, ensureExpressionBytes]
  split_ifs with hbytes
  · exact .inr ⟨_, rfl, trivial, fun hlimits => absurd hlimits.1 (by omega)⟩
  · simp only []
    rw [tokenizeLoop_of_lexes reader h le_rfl]
    split_ifs with htokens
    · exact .inl (by simp)
    · exact .inr ⟨_, rfl, trivial, fun hlimits => htokens (by simpa using hlimits.2)⟩

theorem lexes_of_tokenize (h : tokenize reader source = .ok tokens) :
    ∃ found, Lexes reader source.toList found ∧ tokens = found ++ [.endOfInput] := by
  rw [tokenize] at h
  cases hbytes : ensureExpressionBytes source with
  | error e => simp [hbytes] at h
  | ok _ =>
    simp only [hbytes] at h
    obtain ⟨found, hfound, rfl⟩ := lexes_of_tokenizeLoop reader le_rfl h
    exact ⟨found, hfound, by simp⟩

/-! ### A text before a delimiter -/

/-- The characters that stand after an operand. -/
def IsDelimiter (d : Char) : Prop :=
  d = ' ' ∨ d = ',' ∨ d = ')' ∨ d = ']'

variable {d : Char} {more : List Char}

section

variable (h : IsDelimiter d)

include h

theorem IsDelimiter.not_alphanum : d.isAlphanum = false := by
  rcases h with rfl | rfl | rfl | rfl <;> rfl

theorem IsDelimiter.ne_underscore : d ≠ '_' := by
  rcases h with rfl | rfl | rfl | rfl <;> decide

theorem IsDelimiter.not_digit : d.isDigit = false := by
  rcases h with rfl | rfl | rfl | rfl <;> rfl

theorem IsDelimiter.not_numberChar : isNumberChar d = false := by
  rcases h with rfl | rfl | rfl | rfl <;> rfl

theorem IsDelimiter.pairOperator (c : Char) : pairOperator c d = none := by
  rcases h with rfl | rfl | rfl | rfl <;> simp [Expr.pairOperator]

theorem IsDelimiter.continuesIdentifier (stepPath outcomeField : Bool) :
    continuesIdentifier stepPath outcomeField d = (stepPath && d == ']') := by
  rcases h with rfl | rfl | rfl | rfl <;> cases stepPath <;> cases outcomeField <;> rfl

end

theorem scanString_quote (quote : Char) (value rest : List Char) :
    scanString quote value (quote :: rest) = .ok (value, rest) := by
  rw [scanString.eq_def]
  simp

theorem scanString_escaped {escaped : Char} (value rest : List Char) (hquote : '\\' ≠ quote)
    (hescaped : unescape escaped = some c) :
    scanString quote value ('\\' :: escaped :: rest) = scanString quote (value ++ [c]) rest := by
  rw [scanString.eq_def]
  simp [hquote, hescaped]

theorem scanString_plain (value rest : List Char) (hquote : c ≠ quote) (hescape : c ≠ '\\') :
    scanString quote value (c :: rest) = scanString quote (value ++ [c]) rest := by
  rw [scanString.eq_def]
  simp [hquote, hescape]

theorem scanString_append {value result : List Char}
    (h : scanString quote value rest = .ok (result, remaining)) (more : List Char) :
    scanString quote value (rest ++ more) = .ok (result, remaining ++ more) := by
  fun_induction scanString quote value rest with
  | case1 value => cases h
  | case2 value rest =>
    cases h
    exact scanString_quote quote _ _
  | case3 value hquote => cases h
  | case4 value escaped rest c hescaped hquote ih =>
    rw [cons_append, cons_append, scanString_escaped value _ hquote hescaped]
    exact ih h
  | case5 value escaped rest hescaped hquote => cases h
  | case6 value current rest hquote hescape ih =>
    rw [cons_append, scanString_plain value _ hquote hescape]
    exact ih h

theorem numberRun_append (hd : IsDelimiter d) (previous : Char) (rest : List Char) :
    numberRun previous (rest ++ d :: more) =
      ((numberRun previous rest).1, (numberRun previous rest).2 ++ d :: more) := by
  induction rest generalizing previous with
  | nil => simp [numberRun, hd.not_numberChar]
  | cons c rest ih =>
    rw [cons_append, numberRun, numberRun]
    split_ifs
    · rw [ih c]
    · simp

theorem fieldAt_append (hd : IsDelimiter d) {field : List Char}
    (hfield : ∀ a ∈ field, a.isAlphanum = true) (rest : List Char) :
    fieldAt field (rest ++ d :: more) = fieldAt field rest := by
  induction field generalizing rest with
  | nil =>
    cases rest with
    | nil => simp [fieldAt, hd.not_alphanum, hd.ne_underscore]
    | cons b rest => simp [fieldAt]
  | cons a field ih =>
    cases rest with
    | nil =>
      have hne : a ≠ d := by
        rintro rfl
        have := hfield a mem_cons_self
        rw [hd.not_alphanum] at this
        cases this
      simp [fieldAt, hne]
    | cons b rest =>
      rw [cons_append, fieldAt, fieldAt,
        ih (fun x hx => hfield x (mem_cons_of_mem _ hx))]

theorem isOutcomeField_append (hd : IsDelimiter d) (rest : List Char) :
    isOutcomeField (rest ++ d :: more) = isOutcomeField rest := by
  have hfield : ∀ field ∈ ["output", "status", "reason"],
      ∀ a ∈ field.toList, a.isAlphanum = true := by
    have hall : (["output", "status", "reason"].all fun field =>
        field.toList.all Char.isAlphanum) = true := by decide
    intro field hfield a ha
    exact all_eq_true.mp (all_eq_true.mp hall field hfield) a ha
  simp only [isOutcomeField, any_cons, any_nil]
  rw [fieldAt_append hd (hfield "output" (by simp)), fieldAt_append hd (hfield "status" (by simp)),
    fieldAt_append hd (hfield "reason" (by simp))]

theorem stepsDot_isPrefixOf_concat (taken : List Char) (c : Char) :
    stepsDot.isPrefixOf (taken ++ [c]) =
      (stepsDot.isPrefixOf taken || taken ++ [c] == stepsDot) := by
  rw [Bool.eq_iff_iff, Bool.or_eq_true, isPrefixOf_iff_prefix, isPrefixOf_iff_prefix,
    beq_iff_eq, prefix_concat_iff, or_comm, eq_comm]

/-- A run that ends at its text ends before the delimiter too, unless a bracket follows a step
path. -/
theorem identifierRun_append (hd : IsDelimiter d) {taken rest name remaining : List Char}
    {outcomeField : Bool}
    (hrun : identifierRun taken (stepsDot.isPrefixOf taken) outcomeField rest = (name, remaining))
    (hstop : remaining = [] → d = ']' → stepsDot.isPrefixOf name = false) :
    identifierRun taken (stepsDot.isPrefixOf taken) outcomeField (rest ++ d :: more) =
      (name, remaining ++ d :: more) := by
  induction rest generalizing taken outcomeField with
  | nil =>
    simp only [identifierRun, Prod.mk.injEq] at hrun
    obtain ⟨rfl, rfl⟩ := hrun
    have hends : continuesIdentifier (stepsDot.isPrefixOf taken) outcomeField d = false := by
      rw [hd.continuesIdentifier]
      by_cases hbracket : d = ']'
      · simp [hstop rfl hbracket]
      · simp [hbracket]
    simp [identifierRun, hends]
  | cons c rest ih =>
    rw [identifierRun] at hrun
    rw [cons_append, identifierRun, isOutcomeField_append hd]
    split_ifs at hrun ⊢ with hcontinues
    · rw [← stepsDot_isPrefixOf_concat] at hrun ⊢
      exact ih hrun
    · cases hrun
      rfl

theorem identifierRun_bracket {taken rest name : List Char} {outcomeField : Bool}
    (hrun : identifierRun taken (stepsDot.isPrefixOf taken) outcomeField rest = (name, []))
    (hstep : stepsDot.isPrefixOf name = true) :
    identifierRun taken (stepsDot.isPrefixOf taken) outcomeField (rest ++ [']']) =
      (name ++ [']'], []) := by
  have hd : IsDelimiter ']' := .inr (.inr (.inr rfl))
  induction rest generalizing taken outcomeField with
  | nil =>
    simp only [identifierRun, Prod.mk.injEq, and_true] at hrun
    subst hrun
    rw [nil_append, identifierRun, hd.continuesIdentifier, hstep]
    simp [identifierRun]
  | cons c rest ih =>
    rw [identifierRun] at hrun
    rw [cons_append, identifierRun, isOutcomeField_append hd]
    split_ifs at hrun ⊢ with hcontinues
    · rw [← stepsDot_isPrefixOf_concat] at hrun ⊢
      exact ih hrun
    · cases hrun

theorem scanSymbol_append (hd : IsDelimiter d)
    (h : scanSymbol index c rest = .ok (token, remaining)) :
    scanSymbol index c (rest ++ d :: more) = .ok (token, remaining ++ d :: more) := by
  rw [scanSymbol_eq_ok] at h ⊢
  cases rest with
  | nil =>
    rcases h with ⟨_, hpair, -⟩ | ⟨-, hsingle, rfl⟩
    · cases hpair
    · exact .inr ⟨hd.pairOperator c, hsingle, rfl⟩
  | cons next rest =>
    rcases h with ⟨operator, hpair, rfl, rfl⟩ | ⟨hpair, hsingle, rfl⟩
    · exact .inl ⟨operator, hpair, rfl, rfl⟩
    · exact .inr ⟨hpair, hsingle, rfl⟩

theorem startsNumber_append (hd : IsDelimiter d) (c : Char) (rest : List Char) :
    startsNumber c (rest ++ d :: more) = startsNumber c rest := by
  cases rest with
  | nil => simp [startsNumber, hd.not_digit]
  | cons next rest => simp [startsNumber]

def IsStepPath (token : Token) : Prop :=
  ∃ name, token = .identifier name ∧ stepsDot.isPrefixOf name.toList = true

theorem identifierToken_of_stepPath {name : List Char} (h : stepsDot.isPrefixOf name = true) :
    identifierToken (String.ofList name) = .identifier (String.ofList name) := by
  have hne : ∀ word : String, stepsDot.isPrefixOf word.toList = false →
      String.ofList name ≠ word := by
    rintro word hword rfl
    rw [String.toList_ofList, h] at hword
    cases hword
  rw [identifierToken, if_neg (hne _ rfl), if_neg (hne _ rfl), if_neg (hne _ rfl)]

theorem stepsDot_isPrefixOf_singleton (c : Char) : stepsDot.isPrefixOf [c] = false := by
  simp [stepsDot, List.isPrefixOf]

theorem scanToken_append (hd : IsDelimiter d)
    (h : scanToken reader index c rest = .ok (token, remaining))
    (hstop : remaining = [] → d = ']' → ¬ IsStepPath token) :
    scanToken reader index c (rest ++ d :: more) = .ok (token, remaining ++ d :: more) := by
  unfold scanToken at h ⊢
  rw [startsNumber_append hd]
  split_ifs at h ⊢ with hquote hnumber hidentifier
  · cases hstring : scanString c [] rest with
    | error e => simp [hstring] at h
    | ok result =>
      obtain ⟨value, left⟩ := result
      simp only [hstring, Except.ok.injEq, Prod.mk.injEq] at h
      rw [scanString_append hstring]
      simp [← h.1, ← h.2]
  · obtain ⟨n, hn, rfl, rfl⟩ := scanNumber_eq_ok reader h
    rw [scanNumber, numberRun_append hd]
    simp only [hn]
  · simp only [scanIdentifier, Except.ok.injEq, Prod.mk.injEq] at h ⊢
    obtain ⟨rfl, rfl⟩ := h
    have hrun := @identifierRun_append d more hd [c] rest _ _ false
      (by rw [stepsDot_isPrefixOf_singleton]) (by
        intro hnil hbracket
        by_contra hstep
        rw [Bool.not_eq_false] at hstep
        refine hstop hnil hbracket ⟨_, identifierToken_of_stepPath hstep, ?_⟩
        rw [String.toList_ofList, hstep])
    rw [stepsDot_isPrefixOf_singleton] at hrun
    rw [hrun]
    exact ⟨rfl, rfl⟩
  · exact scanSymbol_append hd h

def EndsInStepPath (text : List Char) (tokens : List Token) : Prop :=
  ∃ name, tokens.getLast? = some (.identifier name) ∧
    stepsDot.isPrefixOf name.toList = true ∧ name.toList <:+ text

theorem EndsInStepPath.of_suffix (h : EndsInStepPath rest tokens) (hsuffix : rest <:+ text)
    (token : Token) :
    EndsInStepPath text (token :: tokens) ∧ EndsInStepPath text tokens := by
  obtain ⟨name, hlast, hstep, hname⟩ := h
  have hcons : (token :: tokens).getLast? = some (.identifier name) := by
    rw [List.getLast?_cons, hlast]
    rfl
  exact ⟨⟨name, hcons, hstep, hname.trans hsuffix⟩, ⟨name, hlast, hstep, hname.trans hsuffix⟩⟩

theorem Lexes.eq_nil (h : Lexes reader [] tokens) : tokens = [] := by
  cases h
  rfl

variable {name : String}

theorem scanToken_identifier
    (h : scanToken reader index c rest = .ok (.identifier name, remaining)) :
    ¬ (c = '\'' ∨ c = '"') ∧ startsNumber c rest = false ∧ startsIdentifier c = true ∧
      identifierRun [c] false false rest = (name.toList, remaining) ∧
      identifierToken name = .identifier name := by
  unfold scanToken at h
  split_ifs at h with hquote hnumber hidentifier
  · cases hstring : scanString c [] rest <;> simp [hstring] at h
  · obtain ⟨n, -, htoken, -⟩ := scanNumber_eq_ok reader h
    cases htoken
  · simp only [scanIdentifier, Except.ok.injEq, Prod.mk.injEq] at h
    obtain ⟨htoken, rfl⟩ := h
    have hname : name = String.ofList (identifierRun [c] false false rest).1 := by
      unfold identifierToken at htoken
      split_ifs at htoken
      exact (Token.identifier.inj htoken).symm
    rw [← hname] at htoken
    refine ⟨hquote, by simpa using hnumber, hidentifier, ?_, htoken⟩
    rw [hname, String.toList_ofList]
  · rcases scanSymbol_eq_ok.mp h with ⟨_, -, htoken, -⟩ | ⟨-, hsingle, -⟩
    · cases htoken
    · unfold singleToken at hsingle
      split at hsingle <;> cases hsingle

theorem scanToken_identifier_append
    (h : scanToken reader index c rest = .ok (.identifier name, remaining)) :
    name.toList ++ remaining = c :: rest := by
  obtain ⟨-, -, -, hrun, -⟩ := scanToken_identifier reader h
  obtain ⟨read, hname, hrest⟩ := exists_read_of_identifierRun hrun
  rw [hname, hrest]
  rfl

theorem scanToken_bracket (h : scanToken reader index c rest = .ok (.identifier name, []))
    (hstep : stepsDot.isPrefixOf name.toList = true) :
    scanToken reader index c (rest ++ [']']) = .ok (.identifier (name ++ "]"), []) := by
  have hd : IsDelimiter ']' := .inr (.inr (.inr rfl))
  obtain ⟨hquote, hnumber, hidentifier, hrun, -⟩ := scanToken_identifier reader h
  have hbracket := @identifierRun_bracket [c] rest _ false
    (by rw [stepsDot_isPrefixOf_singleton, hrun]) hstep
  rw [stepsDot_isPrefixOf_singleton] at hbracket
  have hlong : stepsDot.isPrefixOf (name.toList ++ [']']) = true := by
    rw [stepsDot_isPrefixOf_concat, hstep, Bool.true_or]
  rw [scanToken, if_neg hquote, startsNumber_append hd, hnumber, if_neg (by simp),
    if_pos hidentifier, scanIdentifier, hbracket, identifierToken_of_stepPath hlong]
  simp only [Except.ok.injEq, Prod.mk.injEq, Token.identifier.injEq, and_true]
  rw [← String.toList_inj, String.toList_ofList, String.toList_append]
  rfl

theorem Lexes.append (hd : IsDelimiter d) {following : List Token} (h : Lexes reader text tokens)
    (hstop : d = ']' → ¬ EndsInStepPath text tokens) (hmore : Lexes reader (d :: more) following) :
    Lexes reader (text ++ d :: more) (tokens ++ following) := by
  induction h with
  | nil => exact hmore
  | blank hc hrest ih =>
    refine .blank hc (ih ?_)
    intro hbracket hends
    exact hstop hbracket (hends.of_suffix (suffix_cons _ _) .null).2
  | @token c rest remaining token tokens hc hscan hrest ih =>
    have hsuffix := scanToken_suffix reader hscan
    refine .token hc (scanToken_append reader hd hscan ?_) (ih ?_)
    · rintro rfl hbracket ⟨name, rfl, hstep⟩
      obtain rfl := hrest.eq_nil
      have hname := scanToken_identifier_append reader hscan
      rw [append_nil] at hname
      exact hstop hbracket ⟨name, rfl, hstep, by rw [hname]⟩
    · intro hbracket hends
      exact hstop hbracket (hends.of_suffix (hsuffix.trans (suffix_cons _ _)) token).1

/-! ### A bracket after a step path -/

theorem isWhitespace_of_continuesIdentifier {stepPath outcomeField : Bool} {c : Char}
    (h : continuesIdentifier stepPath outcomeField c = true) :
    Splitting.isWhitespace c = false := by
  by_cases halphanum : c.isAlphanum = true
  · exact Splitting.isWhitespace_of_alphanum halphanum
  · simp only [continuesIdentifier, isPlainIdentifier, halphanum, Bool.or_eq_true, Bool.and_eq_true,
      decide_eq_true_eq] at h
    rcases h with ((((h | rfl) | rfl) | rfl) | ⟨-, (rfl | rfl) | rfl⟩) | ⟨⟨-, rfl⟩, -⟩
    · cases h
    all_goals rfl

theorem isWhitespace_of_startsIdentifier (h : startsIdentifier c = true) :
    Splitting.isWhitespace c = false := by
  refine @isWhitespace_of_continuesIdentifier false false c ?_
  simp only [startsIdentifier, Bool.or_eq_true, decide_eq_true_eq] at h
  rcases h with h | rfl
  · simp [continuesIdentifier, isPlainIdentifier, Char.isAlphanum, h]
  · rfl

theorem isWhitespace_of_identifierRun {taken name : List Char}
    (h : identifierRun taken stepPath outcomeField rest = (name, remaining))
    (htaken : ∀ c ∈ taken, Splitting.isWhitespace c = false) :
    ∀ c ∈ name, Splitting.isWhitespace c = false := by
  induction rest generalizing taken stepPath outcomeField with
  | nil =>
    cases h
    exact htaken
  | cons c rest ih =>
    rw [identifierRun] at h
    split_ifs at h with hcontinues
    · refine ih h ?_
      intro x hx
      rcases mem_append.mp hx with hx | hx
      · exact htaken x hx
      · rw [mem_singleton.mp hx]
        exact isWhitespace_of_continuesIdentifier hcontinues
    · cases h
      exact htaken

theorem scanToken_identifier_blank
    (h : scanToken reader index c rest = .ok (.identifier name, remaining)) :
    ∀ x ∈ name.toList, Splitting.isWhitespace x = false := by
  obtain ⟨-, -, hidentifier, hrun, -⟩ := scanToken_identifier reader h
  refine isWhitespace_of_identifierRun hrun ?_
  intro x hx
  rw [mem_singleton.mp hx]
  exact isWhitespace_of_startsIdentifier hidentifier

theorem Lexes.blank_of_nil (h : Lexes reader text []) :
    ∀ c ∈ text, Splitting.isWhitespace c = true := by
  generalize htokens : ([] : List Token) = tokens at h
  induction h with
  | nil => simp
  | blank hc hrest ih =>
    intro x hx
    rcases mem_cons.mp hx with rfl | hx
    · exact hc
    · exact ih htokens x hx
  | token hc hscan hrest ih => cases htokens

theorem Lexes.identifier_infix (h : Lexes reader text tokens) (hmem : .identifier name ∈ tokens) :
    name.toList <:+: text := by
  induction h with
  | nil => cases hmem
  | blank hc hrest ih => exact infix_cons (ih hmem)
  | @token c rest remaining token tokens hc hscan hrest ih =>
    rcases mem_cons.mp hmem with rfl | hmem
    · exact ⟨[], remaining, by rw [nil_append, scanToken_identifier_append reader hscan]⟩
    · exact (ih hmem).trans
        (((scanToken_suffix reader hscan).trans (suffix_cons _ _)).isInfix)

theorem stepPath_ne_nil {name : List Char} (h : stepsDot.isPrefixOf name = true) : name ≠ [] := by
  rintro rfl
  cases h

theorem Lexes.bracket (h : Lexes reader text tokens) (hends : EndsInStepPath text tokens) :
    ∃ init name, tokens = init ++ [.identifier name] ∧
      Lexes reader (text ++ [']']) (init ++ [.identifier (name ++ "]")]) := by
  have hd : IsDelimiter ']' := .inr (.inr (.inr rfl))
  induction h with
  | nil =>
    obtain ⟨name, hlast, -, -⟩ := hends
    cases hlast
  | @blank c rest tokens hc hrest ih =>
    obtain ⟨name, hlast, hstep, hname⟩ := hends
    have hmem : .identifier name ∈ tokens := List.mem_of_getLast? hlast
    have hshort : name.toList <:+ rest :=
      suffix_of_suffix_length_le hname (suffix_cons c rest)
        (hrest.identifier_infix reader hmem).length_le
    obtain ⟨init, last, htokens, hlexes⟩ := ih ⟨name, hlast, hstep, hshort⟩
    exact ⟨init, last, htokens, .blank hc hlexes⟩
  | @token c rest remaining token tokens hc hscan hrest ih =>
    obtain ⟨name, hlast, hstep, hname⟩ := hends
    have hsuffix := (scanToken_suffix reader hscan).trans (suffix_cons c rest)
    cases tokens with
    | nil =>
      -- nothing but the step path is left, and no blank follows it
      cases hlast
      have hnil : remaining = [] := by
        by_contra hne
        have hlastname := getLast_mem (stepPath_ne_nil hstep)
        have hlastrest := getLast_mem hne
        have hsame : name.toList.getLast (stepPath_ne_nil hstep) = remaining.getLast hne := by
          rw [hname.getLast, hsuffix.getLast]
        have hblank := hrest.blank_of_nil reader _ hlastrest
        rw [← hsame, scanToken_identifier_blank reader hscan _ hlastname] at hblank
        cases hblank
      subst hnil
      exact ⟨[], name, rfl, .token hc (scanToken_bracket reader hscan hstep) .nil⟩
    | cons next tokens =>
      have hlast' : (next :: tokens).getLast? = some (.identifier name) := by
        rw [List.getLast?_cons_cons] at hlast
        exact hlast
      have hmem : .identifier name ∈ next :: tokens := List.mem_of_getLast? hlast'
      have hshort : name.toList <:+ remaining :=
        suffix_of_suffix_length_le hname hsuffix
          (hrest.identifier_infix reader hmem).length_le
      obtain ⟨init, last, htokens, hlexes⟩ := ih ⟨name, hlast', hstep, hshort⟩
      refine ⟨token :: init, last, by rw [htokens]; rfl, ?_⟩
      refine .token hc (scanToken_append reader hd hscan ?_) hlexes
      rintro rfl
      cases hrest

end Lexer

end Qcg.Expr
