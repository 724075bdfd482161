import Qcg.Contract.ExprCompose

/-!
# Printing expression trees

A tree is printed with parentheses only where the precedence table asks for them and with a blank
between its tokens. What is printed within the limits is read back as the same tree.
-/

namespace Qcg.Expr

open List

/-- The loosest level at which the tree stands without parentheses. -/
def Node.level : Node → Nat
  | .binary operator _ _ => operator.level
  | _ => unaryLevel

def wrapped (needed : Bool) (tokens : List Token) : List Token :=
  if needed then .leftParen :: (tokens ++ [.rightParen]) else tokens

def wrappedDepth (needed : Bool) (depth : Nat) : Nat :=
  if needed then depth + 1 else depth

def literalToken : Value → Token
  | .bool b => .bool b
  | .number n => .number n
  | .string s => .string s
  | _ => .null

mutual

/-- The tokens of a tree with the fewest parentheses. -/
def Node.tokens : Node → List Token
  | .literal value => [literalToken value]
  | .path name => [.identifier name]
  | .array items => .leftBracket :: (separated (nodesTokens items) ++ [.rightBracket])
  | .unary operator value =>
    operator.token :: wrapped (decide (value.level < unaryLevel)) value.tokens
  | .binary operator left right =>
    wrapped (decide (left.level < operator.level)) left.tokens ++
      .operator (.binary operator) ::
        wrapped (decide (right.level < operator.level + 1)) right.tokens
  | .call name arguments =>
    .identifier name :: .leftParen :: (separated (nodesTokens arguments) ++ [.rightParen])

def nodesTokens : List Node → List (List Token)
  | [] => []
  | node :: rest => node.tokens :: nodesTokens rest

end

mutual

/-- How deep the parser goes on the printed tree. -/
def Node.depth : Node → Nat
  | .literal _ => 0
  | .path _ => 0
  | .array items => nodesDepth items
  | .unary _ value => wrappedDepth (decide (value.level < unaryLevel)) value.depth + 1
  | .binary operator left right =>
    max (wrappedDepth (decide (left.level < operator.level)) left.depth)
      (wrappedDepth (decide (right.level < operator.level + 1)) right.depth + 1)
  | .call _ arguments => nodesDepth arguments + 1

/-- Each item of a list lies one level below it. -/
def nodesDepth : List Node → Nat
  | [] => 0
  | node :: rest => max (node.depth + 1) (nodesDepth rest)

end

section Print

variable (reader : NumberReader)

def IsIdentifier (name : String) : Prop :=
  Lexes reader name.toList [.identifier name]

def IsLiteral : Value → Prop
  | .null | .bool _ | .string _ => True
  | .number n => ∃ text, Lexes reader text [.number n]
  | _ => False

mutual

/-- The trees that a source can have. -/
def Node.InLanguage : Node → Prop
  | .literal value => IsLiteral reader value
  | .path name => IsIdentifier reader name ∧ isPath name = true
  | .array items => NodesInLanguage items
  | .unary _ value => value.InLanguage
  | .binary _ left right => left.InLanguage ∧ right.InLanguage
  | .call name arguments => IsIdentifier reader name ∧ NodesInLanguage arguments

def NodesInLanguage : List Node → Prop
  | [] => True
  | node :: rest => node.InLanguage ∧ NodesInLanguage rest

end

theorem derives_wrapped {depth level : Nat} {node : Node} (hlevel : level ≤ unaryLevel)
    (h : Derives depth node.level node.tokens node) (hnode : node.level ≤ unaryLevel) :
    Derives (wrappedDepth (decide (node.level < level)) depth) level
      (wrapped (decide (node.level < level)) node.tokens) node := by
  by_cases hneeded : node.level < level
  · simp only [hneeded, decide_true, wrappedDepth, wrapped, if_true]
    exact (Derives.paren (h.loosen hnode (Nat.zero_le _))).loosen le_rfl hlevel
  · simp only [hneeded, decide_false, wrappedDepth, wrapped, Bool.false_eq_true, if_false]
    exact h.loosen hnode (not_lt.mp hneeded)

theorem Node.level_le (node : Node) : node.level ≤ unaryLevel := by
  cases node with
  | binary operator left right => exact operator.level_lt.le
  | _ => exact le_rfl

mutual

theorem Node.derives : ∀ node : Node, node.InLanguage reader →
    Derives node.depth node.level node.tokens node
  | .literal value, h => by
    cases value with
    | null => exact .leaf .null
    | bool b => exact .leaf (.bool b)
    | number n => exact .leaf (.number n)
    | string s => exact .leaf (.string s)
    | array items => cases h
    | object members => cases h
  | .path name, h => .leaf (.path h.2)
  | .array items, h => by
    obtain ⟨parts, htokens, hnodes, hdepth, hparts⟩ := nodes_derive items h
    have hderives := Derives.array parts hdepth hparts
    rw [htokens, hnodes] at hderives
    exact hderives
  | .unary operator value, h =>
    .unary operator (derives_wrapped le_rfl (value.derives h) value.level_le)
  | .binary operator left right, h => by
    have hleft := derives_wrapped operator.level_lt.le (left.derives h.1) left.level_le
    have htight : operator.level + 1 ≤ unaryLevel := operator.level_lt
    have hright := derives_wrapped htight (right.derives h.2) right.level_le
    -- the right operand lies one level deeper
    obtain ⟨depth, hdepth⟩ : ∃ depth, (Node.binary operator left right).depth = depth + 1 := by
      refine Nat.exists_eq_add_one.mpr ?_
      rw [Node.depth]
      omega
    rw [hdepth]
    rw [Node.depth] at hdepth
    exact .binary operator (hleft.mono (by omega)) (hright.mono (by omega))
  | .call name arguments, h => by
    obtain ⟨parts, htokens, hnodes, hdepth, hparts⟩ := nodes_derive arguments h.2
    have hderives := Derives.call name parts hdepth hparts
    rw [htokens, hnodes] at hderives
    exact hderives

theorem nodes_derive : ∀ nodes : List Node, NodesInLanguage reader nodes →
    ∃ parts : List (List Token × Node), parts.map Prod.fst = nodesTokens nodes ∧
      parts.map Prod.snd = nodes ∧ (parts ≠ [] → 0 < nodesDepth nodes) ∧
      ∀ part ∈ parts, Derives (nodesDepth nodes - 1) 0 part.1 part.2
  | [], _ => ⟨[], rfl, rfl, by simp, by simp⟩
  | node :: rest, h => by
    obtain ⟨parts, htokens, hnodes, hdepth, hparts⟩ := nodes_derive rest h.2
    have hnode := node.derives h.1
    refine ⟨(node.tokens, node) :: parts, ?_, ?_, ?_, ?_⟩
    · rw [map_cons, htokens, nodesTokens]
    · rw [map_cons, hnodes]
    · intro _
      rw [nodesDepth]
      omega
    · intro part hpart
      rw [nodesDepth]
      rcases mem_cons.mp hpart with rfl | hpart
      · exact (hnode.loosen node.level_le (Nat.zero_le _)).mono (by omega)
      · exact (hparts part hpart).mono (by omega)

end

def escapeChar : Char → List Char
  | '\n' => ['\\', 'n']
  | '\r' => ['\\', 'r']
  | '\t' => ['\\', 't']
  | '\\' => ['\\', '\\']
  | '"' => ['\\', '"']
  | c => [c]

/-- A number is spelled by some literal that denotes it. -/
structure Speller where
  spell : Number → List Char
  lexes_spell : ∀ n text, Lexes reader text [.number n] → Lexes reader (spell n) [.number n]

variable {reader}

/-- There is always a speller. -/
noncomputable def Speller.choose : Speller reader where
  spell n := open Classical in if h : ∃ text, Lexes reader text [.number n] then h.choose else []
  lexes_spell n text h := by
    have hsome : ∃ text, Lexes reader text [.number n] := ⟨text, h⟩
    rw [dif_pos hsome]
    exact hsome.choose_spec

variable (speller : Speller reader)

def spelling : Token → List Char
  | .identifier name => name.toList
  | .string s => '"' :: (s.toList.flatMap escapeChar ++ ['"'])
  | .number n => speller.spell n
  | .bool true => "true".toList
  | .bool false => "false".toList
  | .null => "null".toList
  | .operator .not => ['!']
  | .operator (.binary operator) => operator.text.toList
  | .leftParen => ['(']
  | .rightParen => [')']
  | .leftBracket => ['[']
  | .rightBracket => [']']
  | .comma => [',']
  | .endOfInput => []

def spaced : List (List Char) → List Char
  | [] => []
  | [text] => text
  | text :: next :: rest => text ++ ' ' :: spaced (next :: rest)

def print (node : Node) : String :=
  String.ofList (spaced (node.tokens.map (spelling speller)))

theorem scanString_escapeChar (value rest : List Char) (c : Char) :
    scanString '"' value (escapeChar c ++ rest) = scanString '"' (value ++ [c]) rest := by
  unfold escapeChar
  split
  · exact scanString_escaped value rest (by decide) rfl
  · exact scanString_escaped value rest (by decide) rfl
  · exact scanString_escaped value rest (by decide) rfl
  · exact scanString_escaped value rest (by decide) rfl
  · exact scanString_escaped value rest (by decide) rfl
  · rename_i hnewline hreturn htab hescape hquote
    exact scanString_plain value rest hquote hescape

theorem scanString_escaped_text (value text rest : List Char) :
    scanString '"' value (text.flatMap escapeChar ++ '"' :: rest) = .ok (value ++ text, rest) := by
  induction text generalizing value with
  | nil => simpa using scanString_quote '"' value rest
  | cons c text ih =>
    rw [flatMap_cons, append_assoc, scanString_escapeChar, ih, append_assoc]
    rfl

theorem lexes_string (s : String) :
    Lexes reader ('"' :: (s.toList.flatMap escapeChar ++ ['"'])) [.string s] := by
  refine .token rfl ?_ .nil
  rw [scanToken, if_pos (.inr rfl), scanString_escaped_text]
  simp only [nil_append, String.ofList_toList]

theorem lexes_operator (operator : BinaryOperator) :
    Lexes reader operator.text.toList [.operator (.binary operator)] := by
  cases operator <;> exact .token rfl rfl .nil

/-- The tokens that have a text of their own. -/
def Spelled (token : Token) : Prop :=
  Lexes reader (spelling speller token) [token]

theorem spelled_wrapped {needed : Bool} {tokens : List Token}
    (h : ∀ token ∈ tokens, Spelled speller token) :
    ∀ token ∈ wrapped needed tokens, Spelled speller token := by
  cases needed with
  | false => exact h
  | true =>
    intro token htoken
    simp only [wrapped, if_true, mem_cons, mem_append, not_mem_nil, or_false]
      at htoken
    rcases htoken with rfl | htoken | rfl
    · exact .token rfl rfl .nil
    · exact h token htoken
    · exact .token rfl rfl .nil

theorem spelled_separated {parts : List (List Token)}
    (h : ∀ part ∈ parts, ∀ token ∈ part, Spelled speller token) :
    ∀ token ∈ separated parts, Spelled speller token := by
  intro token htoken
  rcases mem_separated htoken with rfl | ⟨part, hpart, htoken⟩
  · exact .token rfl rfl .nil
  · exact h part hpart token htoken

theorem spelled_literal {value : Value} (h : IsLiteral reader value) :
    Spelled speller (literalToken value) := by
  cases value with
  | null => exact .token rfl rfl .nil
  | bool b => cases b <;> exact .token rfl rfl .nil
  | number n =>
    obtain ⟨text, htext⟩ := h
    exact speller.lexes_spell n text htext
  | string s => exact lexes_string s
  | array items => cases h
  | object members => cases h

theorem spelled_unary (operator : UnaryOperator) : Spelled speller operator.token := by
  cases operator <;> exact .token rfl rfl .nil

mutual

theorem Node.spelled : ∀ node : Node, node.InLanguage reader →
    ∀ token ∈ node.tokens, Spelled speller token
  | .literal value, h => by
    intro token htoken
    rw [mem_singleton.mp htoken]
    exact spelled_literal speller h
  | .path name, h => by
    intro token htoken
    rw [mem_singleton.mp htoken]
    exact h.1
  | .array items, h => by
    intro token htoken
    simp only [Node.tokens, mem_cons, mem_append, not_mem_nil, or_false] at htoken
    rcases htoken with rfl | htoken | rfl
    · exact .token rfl rfl .nil
    · exact spelled_separated speller (nodes_spelled items h) token htoken
    · exact .token rfl rfl .nil
  | .unary operator value, h => by
    intro token htoken
    rcases mem_cons.mp htoken with rfl | htoken
    · exact spelled_unary speller operator
    · exact spelled_wrapped speller (value.spelled h) token htoken
  | .binary operator left right, h => by
    intro token htoken
    simp only [Node.tokens, mem_append, mem_cons] at htoken
    rcases htoken with htoken | rfl | htoken
    · exact spelled_wrapped speller (left.spelled h.1) token htoken
    · exact lexes_operator operator
    · exact spelled_wrapped speller (right.spelled h.2) token htoken
  | .call name arguments, h => by
    intro token htoken
    simp only [Node.tokens, mem_cons, mem_append, not_mem_nil, or_false] at htoken
    rcases htoken with rfl | rfl | htoken | rfl
    · exact h.1
    · exact .token rfl rfl .nil
    · exact spelled_separated speller (nodes_spelled arguments h.2) token htoken
    · exact .token rfl rfl .nil

theorem nodes_spelled : ∀ nodes : List Node, NodesInLanguage reader nodes →
    ∀ part ∈ nodesTokens nodes, ∀ token ∈ part, Spelled speller token
  | [], _ => by simp [nodesTokens]
  | node :: rest, h => by
    intro part hpart
    rcases mem_cons.mp hpart with rfl | hpart
    · exact node.spelled h.1
    · exact nodes_spelled rest h.2 part hpart

end

theorem lexes_spaced {tokens : List Token} (h : ∀ token ∈ tokens, Spelled speller token) :
    Lexes reader (spaced (tokens.map (spelling speller))) tokens := by
  induction tokens with
  | nil => exact .nil
  | cons token tokens ih =>
    have htoken := h token mem_cons_self
    cases tokens with
    | nil => exact htoken
    | cons next tokens =>
      have hrest := ih fun other hother => h other (mem_cons_of_mem _ hother)
      exact Lexes.append reader (.inl rfl) htoken (by simp) (.blank rfl hrest)

/-- A printed tree within the limits is read back, and every accepted source has the one tree
that the grammar assigns to its tokens. -/
theorem print_parse_unique :
    (∀ node : Node, node.InLanguage reader →
      node.size ≤ expressionLimits.nodes → node.depth ≤ expressionLimits.depth →
      node.width ≤ expressionLimits.depth → node.tokens.length < maxExpressionTokens →
      byteLength (print speller node) ≤ maxExpressionBytes →
      parse reader (print speller node) = .ok node) ∧
    ∀ source node, parse reader source = .ok node →
      ∃ tokens, tokenize reader source = .ok (tokens ++ [.endOfInput]) ∧
        (∃ depth, Derives depth 0 tokens node) ∧
        ∀ depth other, Derives depth 0 tokens other → other = node := by
  constructor
  · intro node hnode hsize hdepth hwidth htokens hbytes
    have hlexes : Lexes reader (print speller node).toList node.tokens := by
      rw [print, String.toList_ofList]
      exact lexes_spaced speller (node.spelled speller hnode)
    have hderives := (node.derives reader hnode).loosen node.level_le (Nat.zero_le _)
    rcases reaches_parse reader hlexes hderives with h | ⟨e, -, -, hnot⟩
    · exact h
    · exact absurd ⟨⟨hbytes, htokens⟩, hdepth, hsize, hwidth⟩ hnot
  · intro source node hparse
    obtain ⟨tokens, hlexes, hderives⟩ := derives_of_parse reader hparse
    exact ⟨tokens, tokenize_of_parse reader hparse hlexes, ⟨_, hderives⟩,
      fun depth other hother => hother.unique hderives⟩

end Print

theorem print_parse_unique_item :
    parse noNumbers (print (@Speller.choose noNumbers)
      (.binary .or (.path "item") (.unary .not (.path "item")))) =
      .ok (.binary .or (.path "item") (.unary .not (.path "item"))) := by
  have hitem : IsIdentifier noNumbers "item" := .token rfl rfl .nil
  refine (print_parse_unique (@Speller.choose noNumbers)).1 _
    ⟨⟨hitem, rfl⟩, hitem, rfl⟩ ?_ ?_ ?_ ?_ ?_
  · decide
  · decide
  · decide
  · decide
  · decide +kernel

def longLiteral (n : Nat) : Node :=
  .literal (.string (String.ofList (List.replicate n 'a')))

theorem flatMap_escapeChar_replicate (n : Nat) :
    (List.replicate n 'a').flatMap escapeChar = List.replicate n 'a' := by
  induction n with
  | zero => rfl
  | succ n ih =>
    rw [replicate_succ, flatMap_cons, ih]
    rfl

theorem byteLength_print_longLiteral {reader : NumberReader} (speller : Speller reader) (n : Nat) :
    byteLength (print speller (longLiteral n)) = n + 2 := by
  have htext : (print speller (longLiteral n)).toList = '"' :: (List.replicate n 'a' ++ ['"']) := by
    rw [print, String.toList_ofList]
    show '"' :: ((String.ofList (List.replicate n 'a')).toList.flatMap escapeChar ++ ['"']) = _
    rw [String.toList_ofList, flatMap_escapeChar_replicate]
  have hquote : Char.utf8Size '"' = 1 := rfl
  have hletter : Char.utf8Size 'a' = 1 := rfl
  rw [byteLength, htext]
  simp only [map_cons, map_append, map_replicate, map_nil, sum_cons,
    sum_append, sum_replicate_nat, sum_nil, hquote, hletter, Nat.mul_one]
  omega

theorem parse_of_byteLength {reader : NumberReader} {source : String}
    (h : byteLength source > maxExpressionBytes) :
    parse reader source = .error (.inputTooLarge (byteLength source) maxExpressionBytes) := by
  have htokenize : tokenize reader source =
      .error (.inputTooLarge (byteLength source) maxExpressionBytes) := by
    rw [tokenize, ensureExpressionBytes, if_pos h]
  rw [parse, htokenize]
  rfl

/-- One node without nesting can still be too long for the lexer. -/
theorem long_literal_not_read :
    (longLiteral 65536).InLanguage noNumbers ∧ (longLiteral 65536).size = 1 ∧
      (longLiteral 65536).depth = 0 ∧ (longLiteral 65536).width = 0 ∧
      parse noNumbers (print (@Speller.choose noNumbers) (longLiteral 65536)) =
        .error (.inputTooLarge 65538 maxExpressionBytes) := by
  refine ⟨trivial, rfl, rfl, rfl, ?_⟩
  have hlength := byteLength_print_longLiteral (@Speller.choose noNumbers) 65536
  rw [parse_of_byteLength (by rw [hlength]; decide), hlength]

end Qcg.Expr
