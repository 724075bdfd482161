import Qcg.Contract.ExprGrammar

/-!
# Composition of expression sources

What becomes of sources that are put into brackets, parentheses or a call. A step path takes a
closing bracket that follows it at once, so an array whose last item ends in one is not read.
-/

namespace Qcg.Expr

open List

section Compose

variable (reader : NumberReader) {c : Char}

theorem scanToken_ne_endOfInput {index : Nat} {rest remaining : List Char} {token : Token}
    (h : scanToken reader index c rest = .ok (token, remaining)) :
    token ≠ .endOfInput := by
  rintro rfl
  unfold scanToken at h
  split_ifs at h with hquote hnumber hidentifier
  · cases hstring : scanString c [] rest <;> simp [hstring] at h
  · obtain ⟨n, -, htoken, -⟩ := scanNumber_eq_ok reader h
    cases htoken
  · simp only [scanIdentifier, Except.ok.injEq, Prod.mk.injEq, identifierToken] at h
    obtain ⟨htoken, -⟩ := h
    split_ifs at htoken
  · rcases scanSymbol_eq_ok.mp h with ⟨_, -, htoken, -⟩ | ⟨-, hsingle, -⟩
    · cases htoken
    · unfold singleToken at hsingle
      split at hsingle <;> cases hsingle

variable {tokens : List Token}

theorem Lexes.endOfInput_notMem {text : List Char} (h : Lexes reader text tokens) :
    .endOfInput ∉ tokens := by
  induction h with
  | nil => simp
  | blank hc hrest ih => exact ih
  | token hc hscan hrest ih =>
    intro hmem
    rcases mem_cons.mp hmem with heq | hmem
    · exact scanToken_ne_endOfInput reader hscan heq.symm
    · exact ih hmem

theorem Lexes.unique {text : List Char} {other : List Token} (h : Lexes reader text tokens)
    (hother : Lexes reader text other) : tokens = other := by
  induction h generalizing other with
  | nil => exact (hother.eq_nil reader).symm
  | blank hc hrest ih =>
    cases hother with
    | blank hc' hrest' => exact ih hrest'
    | token hc' hscan hrest' => exact absurd (hc.symm.trans hc') (by simp)
  | token hc hscan hrest ih =>
    cases hother with
    | blank hc' hrest' => exact absurd (hc'.symm.trans hc) (by simp)
    | token hc' hscan' hrest' =>
      rw [hscan] at hscan'
      cases hscan'
      rw [ih hrest']

variable {source : String} {node : Node}

theorem derives_of_parse (h : parse reader source = .ok node) :
    ∃ tokens, Lexes reader source.toList tokens ∧
      Derives expressionLimits.depth 0 tokens node := by
  obtain ⟨tokens, htokens, hparse⟩ := Except.bind_eq_ok.mp h
  obtain ⟨found, hfound, rfl⟩ := lexes_of_tokenize reader htokens
  exact ⟨found, hfound,
    derives_of_parseTokens expressionLimits (hfound.endOfInput_notMem reader) hparse⟩

theorem reaches_parse {depth : Nat} (hlexes : Lexes reader source.toList tokens)
    (hderives : Derives depth 0 tokens node) :
    Reaches (parse reader source) (.ok node)
      ((byteLength source ≤ maxExpressionBytes ∧ tokens.length < maxExpressionTokens) ∧
        depth ≤ expressionLimits.depth ∧ node.size ≤ expressionLimits.nodes ∧
        node.width ≤ expressionLimits.depth) := by
  have htokenize : Reaches (tokenize reader source) (.ok (tokens ++ [.endOfInput]))
      (byteLength source ≤ maxExpressionBytes ∧ tokens.length < maxExpressionTokens) :=
    tokenize_of_lexes reader hlexes
  exact htokenize.bind (hderives.reaches_parseTokens expressionLimits) And.left And.right

/-- The source is not refused because of a limit. -/
def WithinLimits (source : String) : Prop :=
  ∀ e, parse reader source = .error e → ¬ e.IsLimit

theorem parse_of_withinLimits {depth : Nat} (hlexes : Lexes reader source.toList tokens)
    (hderives : Derives depth 0 tokens node) (hlimits : WithinLimits reader source) :
    parse reader source = .ok node := by
  rcases reaches_parse reader hlexes hderives with h | ⟨e, he, hlimit, -⟩
  · exact h
  · exact absurd hlimit (hlimits e he)

/-- Sources with a comma and a blank between them. -/
def joined : List String → String
  | [] => ""
  | [source] => source
  | source :: next :: rest => source ++ ", " ++ joined (next :: rest)

def arraySource (sources : List String) : String :=
  "[" ++ joined sources ++ "]"

def parenSource (source : String) : String :=
  "(" ++ source ++ ")"

def callSource (function : Function) (sources : List String) : String :=
  function.name ++ "(" ++ joined sources ++ ")"

def EndsFlush (source : String) : Prop :=
  ∃ tokens, tokenize reader source = .ok (tokens ++ [.endOfInput]) ∧
    EndsInStepPath source.toList tokens

variable {rest : List Char}

theorem lexes_symbol {token : Token}
    (hc : c = ',' ∧ token = .comma ∨ c = '(' ∧ token = .leftParen ∨ c = ')' ∧ token = .rightParen ∨
      c = '[' ∧ token = .leftBracket ∨ c = ']' ∧ token = .rightBracket)
    (hrest : Lexes reader rest tokens) : Lexes reader (c :: rest) (token :: tokens) := by
  rcases hc with ⟨rfl, rfl⟩ | ⟨rfl, rfl⟩ | ⟨rfl, rfl⟩ | ⟨rfl, rfl⟩ | ⟨rfl, rfl⟩
  all_goals
    refine .token rfl ?_ hrest
    cases rest <;> rfl

def Closing.char : Closing → Char
  | .paren => ')'
  | .bracket => ']'

theorem lexes_closing (closing : Closing) : Lexes reader [closing.char] [closing.token] := by
  cases closing
  · exact lexes_symbol reader (.inr (.inr (.inl ⟨rfl, rfl⟩))) .nil
  · exact lexes_symbol reader (.inr (.inr (.inr (.inr ⟨rfl, rfl⟩)))) .nil

theorem Closing.isDelimiter (closing : Closing) : IsDelimiter closing.char := by
  cases closing
  · exact .inr (.inr (.inl rfl))
  · exact .inr (.inr (.inr rfl))

theorem lexes_comma_blank (h : Lexes reader rest tokens) :
    Lexes reader (',' :: ' ' :: rest) (.comma :: tokens) :=
  lexes_symbol reader (.inl ⟨rfl, rfl⟩) (.blank rfl h)

theorem lexes_joined (closing : Closing) {parts : List (String × List Token)} (hne : parts ≠ [])
    (hparts : ∀ part ∈ parts, Lexes reader part.1.toList part.2)
    (hlast : closing = .bracket → ∀ last ∈ parts.getLast?,
      ¬ EndsInStepPath last.1.toList last.2) :
    Lexes reader ((joined (parts.map Prod.fst)).toList ++ [closing.char])
      (separated (parts.map Prod.snd) ++ [closing.token]) := by
  induction parts with
  | nil => exact absurd rfl hne
  | cons part parts ih =>
    obtain ⟨source, tokens⟩ := part
    have hpart : Lexes reader source.toList tokens := hparts (source, tokens) mem_cons_self
    cases parts with
    | nil =>
      refine hpart.append reader closing.isDelimiter ?_ (lexes_closing reader closing)
      intro hbracket
      refine hlast ?_ (source, tokens) (by simp)
      cases closing
      · cases hbracket
      · rfl
    | cons next parts =>
      have hrest := ih (by simp) (fun part hmem => hparts part (mem_cons_of_mem _ hmem))
        (by simpa using hlast)
      have htext := hpart.append reader (.inr (.inl rfl)) (by simp)
        (lexes_comma_blank reader hrest)
      simpa [joined, separated] using htext

theorem lexes_joined_stepPath {parts : List (String × List Token)}
    (hparts : ∀ part ∈ parts, Lexes reader part.1.toList part.2) {last : String × List Token}
    (hlast : parts.getLast? = some last) (hends : EndsInStepPath last.1.toList last.2) :
    ∃ init name, Lexes reader ((joined (parts.map Prod.fst)).toList ++ [']'])
      (init ++ [.identifier name]) := by
  induction parts with
  | nil => cases hlast
  | cons part parts ih =>
    obtain ⟨source, tokens⟩ := part
    have hpart : Lexes reader source.toList tokens := hparts (source, tokens) mem_cons_self
    cases parts with
    | nil =>
      cases hlast
      obtain ⟨init, name, -, hlexes⟩ := hpart.bracket reader hends
      exact ⟨init, _, hlexes⟩
    | cons next parts =>
      obtain ⟨init, name, hrest⟩ := ih (fun part hmem => hparts part (mem_cons_of_mem _ hmem))
        (by simpa using hlast)
      have htext := hpart.append reader (.inr (.inl rfl)) (by simp)
        (lexes_comma_blank reader hrest)
      exact ⟨tokens ++ .comma :: init, name, by simpa [joined] using htext⟩

theorem identifierRun_plain {taken read : List Char}
    (hread : ∀ c ∈ read, isPlainIdentifier c = true ∧ c ≠ '.') :
    identifierRun taken false false (read ++ '(' :: rest) = (taken ++ read, '(' :: rest) := by
  induction read generalizing taken with
  | nil =>
    have hparen : continuesIdentifier false false '(' = false := by decide
    simp [identifierRun, hparen]
  | cons c read ih =>
    obtain ⟨hplain, hdot⟩ := hread c mem_cons_self
    have hsteps : (taken ++ [c] == stepsDot) = false := by
      rw [beq_eq_false_iff_ne]
      intro heq
      have hlast := congrArg List.getLast? heq
      simp only [List.getLast?_append, List.getLast?_singleton, stepsDot] at hlast
      exact hdot (by simpa using hlast)
    rw [cons_append, identifierRun, continuesIdentifier, hplain]
    simp only [if_true, hsteps, Bool.or_false, Bool.and_false, Bool.false_and]
    rw [ih fun x hx => hread x (mem_cons_of_mem _ hx)]
    simp

theorem plain_of_all {read : List Char}
    (h : (read.all fun x => isPlainIdentifier x && decide (x ≠ '.')) = true) :
    ∀ x ∈ read, isPlainIdentifier x = true ∧ x ≠ '.' := by
  intro x hx
  simpa using all_eq_true.mp h x hx

theorem Function.name_toList (function : Function) :
    ∃ c read, function.name.toList = c :: read ∧
      (startsIdentifier c = true ∧ c.isDigit = false ∧ c ∉ ['.', '\'', '"']) ∧
      (∀ x ∈ read, isPlainIdentifier x = true ∧ x ≠ '.') ∧
      identifierToken function.name = .identifier function.name := by
  cases function <;> exact ⟨_, _, rfl, by decide, plain_of_all (by decide), rfl⟩

theorem lexes_name (function : Function)
    (h : Lexes reader ('(' :: rest) tokens) :
    Lexes reader (function.name.toList ++ '(' :: rest) (.identifier function.name :: tokens) := by
  obtain ⟨c, read, hname, ⟨hstarts, hdigit, hc⟩, hread, htoken⟩ := function.name_toList
  simp only [mem_cons, not_mem_nil, or_false, not_or] at hc
  rw [hname, cons_append]
  refine .token (isWhitespace_of_startsIdentifier hstarts) ?_ h
  rw [scanToken, if_neg (by simp [hc]), startsNumber, hdigit, if_neg (by simp [hc]), if_pos hstarts,
    scanIdentifier, identifierRun_plain hread, singleton_append, ← hname,
    String.ofList_toList, htoken]

theorem exists_tokens {sources : List (String × Node)}
    (hparse : ∀ source ∈ sources, parse reader source.1 = .ok source.2) :
    ∃ parts : List (String × List Token × Node),
      parts.map (fun part => (part.1, part.2.2)) = sources ∧
      ∀ part ∈ parts, Lexes reader part.1.toList part.2.1 ∧
        Derives expressionLimits.depth 0 part.2.1 part.2.2 := by
  induction sources with
  | nil => exact ⟨[], rfl, by simp⟩
  | cons source sources ih =>
    obtain ⟨tokens, hlexes, hderives⟩ := derives_of_parse reader (hparse source mem_cons_self)
    obtain ⟨parts, rfl, hparts⟩ := ih fun other hmem => hparse other (mem_cons_of_mem _ hmem)
    refine ⟨(source.1, tokens, source.2) :: parts, rfl, ?_⟩
    intro part hpart
    rcases mem_cons.mp hpart with rfl | hpart
    · exact ⟨hlexes, hderives⟩
    · exact hparts part hpart

theorem tokenize_of_parse (h : parse reader source = .ok node)
    (hlexes : Lexes reader source.toList tokens) :
    tokenize reader source = .ok (tokens ++ [.endOfInput]) := by
  obtain ⟨all, htokens, -⟩ := Except.bind_eq_ok.mp h
  obtain ⟨found, hfound, rfl⟩ := lexes_of_tokenize reader htokens
  rw [hlexes.unique reader hfound]
  exact htokens

section Parts

variable {parts : List (String × List Token × Node)} (hne : parts ≠ [])
  (hparts : ∀ part ∈ parts, Lexes reader part.1.toList part.2.1 ∧
    Derives expressionLimits.depth 0 part.2.1 part.2.2)

include hparts

theorem lexes_texts : ∀ part ∈ parts.map (fun part => (part.1, part.2.1)),
    Lexes reader part.1.toList part.2 := by
  intro part hpart
  obtain ⟨whole, hwhole, rfl⟩ := mem_map.mp hpart
  exact (hparts whole hwhole).1

theorem derives_trees : ∀ part ∈ parts.map Prod.snd,
    Derives expressionLimits.depth 0 part.1 part.2 := by
  intro part hpart
  obtain ⟨whole, hwhole, rfl⟩ := mem_map.mp hpart
  exact (hparts whole hwhole).2

include hne

theorem lexes_closed (closing : Closing)
    (hlast : closing = .bracket → ∀ last ∈ parts.getLast?,
      ¬ EndsInStepPath last.1.toList last.2.1) :
    Lexes reader ((joined (parts.map Prod.fst)).toList ++ [closing.char])
      (separated ((parts.map Prod.snd).map Prod.fst) ++ [closing.token]) := by
  have hjoined := @lexes_joined reader closing (parts.map fun part => (part.1, part.2.1))
    (by simpa using hne) (lexes_texts reader hparts) (by
      intro hbracket last hmem
      rw [List.getLast?_map] at hmem
      obtain ⟨whole, hwhole, rfl⟩ := Option.map_eq_some_iff.mp hmem
      exact hlast hbracket whole hwhole)
  simpa [map_map, Function.comp_def] using hjoined

theorem parse_arraySource
    (hlast : ∀ last ∈ parts.getLast?, ¬ EndsInStepPath last.1.toList last.2.1)
    (hlimits : WithinLimits reader (arraySource (parts.map Prod.fst))) :
    parse reader (arraySource (parts.map Prod.fst)) =
      .ok (.array ((parts.map Prod.snd).map Prod.snd)) := by
  have hlexes := lexes_symbol reader (.inr (.inr (.inr (.inl ⟨rfl, rfl⟩))))
    (lexes_closed reader hne hparts .bracket fun _ => hlast)
  have htext : (arraySource (parts.map Prod.fst)).toList =
      '[' :: ((joined (parts.map Prod.fst)).toList ++ [']']) := by
    simp [arraySource]
  have hderives := @Derives.array (expressionLimits.depth + 1) (parts.map Prod.snd)
    (fun _ => by omega) (derives_trees reader hparts)
  exact parse_of_withinLimits reader (htext ▸ hlexes)
    (hderives.loosen le_rfl (Nat.zero_le _)) hlimits

theorem parse_callSource (function : Function)
    (hlimits : WithinLimits reader (callSource function (parts.map Prod.fst))) :
    parse reader (callSource function (parts.map Prod.fst)) =
      .ok (.call function.name ((parts.map Prod.snd).map Prod.snd)) := by
  have hlexes := lexes_name reader function (lexes_symbol reader (.inr (.inl ⟨rfl, rfl⟩))
    (lexes_closed reader hne hparts .paren (by simp)))
  have htext : (callSource function (parts.map Prod.fst)).toList =
      function.name.toList ++ '(' :: ((joined (parts.map Prod.fst)).toList ++ [')']) := by
    simp [callSource]
  have hderives := @Derives.call (expressionLimits.depth + 1) function.name (parts.map Prod.snd)
    (fun _ => by omega) (derives_trees reader hparts)
  exact parse_of_withinLimits reader (htext ▸ hlexes)
    (hderives.loosen le_rfl (Nat.zero_le _)) hlimits

omit hne in
theorem parse_arraySource_stepPath {last : String × List Token × Node}
    (hlast : parts.getLast? = some last) (hends : EndsInStepPath last.1.toList last.2.1)
    (items : List Node) :
    parse reader (arraySource (parts.map Prod.fst)) ≠ .ok (.array items) := by
  intro hparse
  obtain ⟨init, name, hjoined⟩ := @lexes_joined_stepPath reader
    (parts.map fun part => (part.1, part.2.1)) (lexes_texts reader hparts)
    (last.1, last.2.1) (by rw [List.getLast?_map, hlast]; rfl) hends
  have hlexes := lexes_symbol reader (.inr (.inr (.inr (.inl ⟨rfl, rfl⟩)))) hjoined
  have htext : (arraySource (parts.map Prod.fst)).toList =
      '[' :: ((joined ((parts.map fun part => (part.1, part.2.1)).map Prod.fst)).toList ++
        [']']) := by
    simp [arraySource, map_map, Function.comp_def]
  obtain ⟨tokens, htokens, hderives⟩ := derives_of_parse reader hparse
  rw [htext] at htokens
  obtain rfl := hlexes.unique reader htokens
  rcases hderives.array_tokens with ⟨rest, hfirst⟩ | ⟨others, hend⟩
  · cases hfirst
  · rw [← cons_append] at hend
    cases (append_inj' hend rfl).2

end Parts

theorem parse_parenSource (hparse : parse reader source = .ok node)
    (hlimits : WithinLimits reader (parenSource source)) :
    parse reader (parenSource source) = .ok node := by
  obtain ⟨tokens, hlexes, hderives⟩ := derives_of_parse reader hparse
  have hclosed := hlexes.append reader (.inr (.inr (.inl rfl))) (by simp)
    (lexes_closing reader .paren)
  have hopened := lexes_symbol reader (.inr (.inl ⟨rfl, rfl⟩)) hclosed
  have htext : (parenSource source).toList = '(' :: (source.toList ++ [')']) := by
    simp [parenSource]
  exact parse_of_withinLimits reader (htext ▸ hopened)
    ((Derives.paren hderives).loosen le_rfl (Nat.zero_le _)) hlimits

/-- Parentheses change nothing, a call reads its arguments as they are, and so does an array
unless its last item ends in a step path. -/
theorem composed_sources_iff (sources : List (String × Node)) (hne : sources ≠ [])
    (hparse : ∀ source ∈ sources, parse reader source.1 = .ok source.2) :
    (WithinLimits reader (arraySource (sources.map Prod.fst)) →
      (parse reader (arraySource (sources.map Prod.fst)) = .ok (.array (sources.map Prod.snd)) ↔
        ∀ last ∈ sources.getLast?, ¬ EndsFlush reader last.1)) ∧
    (∀ source ∈ sources, WithinLimits reader (parenSource source.1) →
      parse reader (parenSource source.1) = .ok source.2) ∧
    ∀ function, WithinLimits reader (callSource function (sources.map Prod.fst)) →
      parse reader (callSource function (sources.map Prod.fst)) =
        .ok (.call function.name (sources.map Prod.snd)) := by
  obtain ⟨parts, rfl, hparts⟩ := exists_tokens reader hparse
  have hne' : parts ≠ [] := by simpa using hne
  have htexts : (parts.map fun part => (part.1, part.2.2)).map Prod.fst = parts.map Prod.fst := by
    simp [map_map, Function.comp_def]
  have hnodes : (parts.map fun part => (part.1, part.2.2)).map Prod.snd =
      (parts.map Prod.snd).map Prod.snd := by
    simp [map_map, Function.comp_def]
  rw [htexts, hnodes]
  refine ⟨fun hlimits => ⟨?_, ?_⟩, ?_, ?_⟩
  · intro hok last hlast hflush
    rw [List.getLast?_map] at hlast
    obtain ⟨whole, hwhole, rfl⟩ := Option.map_eq_some_iff.mp hlast
    obtain ⟨tokens, htokens, hends⟩ := hflush
    have hmem := List.mem_of_getLast? hwhole
    rw [tokenize_of_parse reader (hparse _ (mem_map_of_mem hmem)) (hparts whole hmem).1] at htokens
    obtain rfl := (append_inj' (Except.ok.inj htokens) rfl).1
    exact parse_arraySource_stepPath reader hparts hwhole hends _ hok
  · intro hlast
    refine parse_arraySource reader hne' hparts ?_ hlimits
    intro last hmem hends
    refine hlast (last.1, last.2.2) (by rw [List.getLast?_map, Option.mem_def.mp hmem]; rfl) ?_
    have hwhole := List.mem_of_getLast? hmem
    exact ⟨last.2.1, tokenize_of_parse reader (hparse _ (mem_map_of_mem hwhole))
      (hparts last hwhole).1, hends⟩
  · intro source hsource hlimits
    exact parse_parenSource reader (hparse source hsource) hlimits
  · intro function hlimits
    exact parse_callSource reader hne' hparts function hlimits

end Compose

/-- A reader for sources without numbers. -/
def noNumbers : NumberReader where
  fromStr _ := none
  parseF64 _ := none

theorem parse_path {name : String} (hlexes : Lexes noNumbers name.toList [.identifier name])
    (hpath : isPath name = true) (hbytes : byteLength name ≤ maxExpressionBytes)
    (hsegments : segments name ≤ expressionLimits.depth) :
    parse noNumbers name = .ok (.path name) := by
  have hderives : Derives 0 0 [.identifier name] (.path name) :=
    (Derives.leaf (.path hpath)).loosen le_rfl (Nat.zero_le _)
  rcases reaches_parse noNumbers hlexes hderives with h | ⟨e, -, -, hnot⟩
  · exact h
  · refine absurd ⟨⟨hbytes, ?_⟩, ?_, ?_, hsegments⟩ hnot
    · exact Nat.succ_lt_succ (Nat.zero_lt_succ _)
    · exact Nat.zero_le _
    · exact Nat.succ_le_succ (Nat.zero_le _)

def refusal : Except ExprError Node → Option String
  | .error (.syntaxError text _) => some text
  | _ => none

theorem exists_of_refusal {result : Except ExprError Node} {text : String}
    (h : refusal result = some text) : ∃ found, result = .error (.syntaxError text found) := by
  unfold refusal at h
  split at h
  · rename_i other found
    exact ⟨found, by rw [Option.some.inj h]⟩
  · cases h

def limitRefused : Except ExprError Node → Bool
  | .ok _ => false
  | .error (.syntaxError _ _) => false
  | .error _ => true

theorem withinLimits_of_limitRefused {source : String}
    (h : limitRefused (parse noNumbers source) = false) : WithinLimits noNumbers source := by
  intro e he hlimit
  rw [he] at h
  cases e with
  | syntaxError text found => exact hlimit
  | _ => cases h

theorem composed_sources_iff_input :
    parse noNumbers (arraySource ["inputs.a", "inputs.b"]) =
        .ok (.array [.path "inputs.a", .path "inputs.b"]) ∧
      parse noNumbers (parenSource "inputs.a") = .ok (.path "inputs.a") ∧
      parse noNumbers (callSource .default ["inputs.a", "inputs.b"]) =
        .ok (.call "default" [.path "inputs.a", .path "inputs.b"]) := by
  have ha : parse noNumbers "inputs.a" = .ok (.path "inputs.a") :=
    parse_path (.token rfl rfl .nil) rfl (by decide) (by decide)
  have hb : parse noNumbers "inputs.b" = .ok (.path "inputs.b") :=
    parse_path (.token rfl rfl .nil) rfl (by decide) (by decide)
  have hsources : ∀ source ∈ [("inputs.a", Node.path "inputs.a"), ("inputs.b", .path "inputs.b")],
      parse noNumbers source.1 = .ok source.2 := by
    simp [ha, hb]
  have harraySource : WithinLimits noNumbers (arraySource ["inputs.a", "inputs.b"]) :=
    withinLimits_of_limitRefused (by decide +kernel)
  have hcallSource : WithinLimits noNumbers (callSource .default ["inputs.a", "inputs.b"]) :=
    withinLimits_of_limitRefused (by decide +kernel)
  have hparenSource : WithinLimits noNumbers (parenSource "inputs.a") :=
    withinLimits_of_limitRefused (by decide +kernel)
  obtain ⟨harray, hparen, hcall⟩ :=
    composed_sources_iff noNumbers _ (cons_ne_nil _ _) hsources
  have hparen := hparen ("inputs.a", .path "inputs.a") mem_cons_self hparenSource
  simp only [map_cons, map_nil] at harray hcall
  have hcall := hcall .default hcallSource
  have hflush : ¬ EndsFlush noNumbers "inputs.b" := by
    rintro ⟨tokens, htokens, name, hlast, hsteps, -⟩
    rw [tokenize_of_parse noNumbers hb (.token rfl rfl .nil)] at htokens
    obtain rfl := (append_inj' (Except.ok.inj htokens) rfl).1
    cases hlast
    exact absurd hsteps (by decide)
  refine ⟨(harray harraySource).mpr ?_, hparen, hcall⟩
  intro last hlast
  obtain rfl := Option.mem_some_iff.mp hlast
  exact hflush

/-- A step path is an expression, but an array of it alone is refused. -/
theorem step_path_takes_bracket :
    parse noNumbers "steps.a.output" = .ok (.path "steps.a.output") ∧
      ∃ found, parse noNumbers (arraySource ["steps.a.output"]) =
        .error (.syntaxError "expected `,` or `]`, found " found) := by
  refine ⟨parse_path (.token rfl rfl .nil) rfl (by decide) (by decide), ?_⟩
  exact exists_of_refusal (by decide +kernel)

end Qcg.Expr
