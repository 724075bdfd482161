import Qcg.Contract.ExprParser

/-!
# The grammar of the expression language

The stratified grammar that the precedence table describes: six levels of left associative binary
operators, then unary operators, then the rest. The parser returns the tree that the grammar
assigns to the tokens, or refuses because a limit is passed.
-/

namespace Qcg.Expr

open List
open Except (bind_eq_ok)

/-! ### Sizes -/

mutual

def Node.size : Node → Nat
  | .literal _ => 1
  | .path _ => 1
  | .array items => nodesSize items + 1
  | .unary _ value => value.size + 1
  | .binary _ left right => left.size + right.size + 1
  | .call _ arguments => nodesSize arguments + 1

def nodesSize : List Node → Nat
  | [] => 0
  | node :: rest => node.size + nodesSize rest

end

mutual

/-- The most segments of a path in the tree. -/
def Node.width : Node → Nat
  | .literal _ => 0
  | .path name => segments name
  | .array items => nodesWidth items
  | .unary _ value => value.width
  | .binary _ left right => max left.width right.width
  | .call _ arguments => nodesWidth arguments

def nodesWidth : List Node → Nat
  | [] => 0
  | node :: rest => max node.width (nodesWidth rest)

end

/-! ### Derivations -/

/-- A token that is an expression on its own. -/
inductive Leaf : Token → Node → Prop
  | bool (b : Bool) : Leaf (.bool b) (.literal (.bool b))
  | null : Leaf .null (.literal .null)
  | string (s : String) : Leaf (.string s) (.literal (.string s))
  | number (n : Number) : Leaf (.number n) (.literal (.number n))
  | path {name : String} (hpath : isPath name = true) : Leaf (.identifier name) (.path name)

def UnaryOperator.token : UnaryOperator → Token
  | .not => .operator .not
  | .neg => .operator (.binary .sub)

/-- The level of what takes no operator without brackets. -/
def unaryLevel : Nat :=
  6

def separated : List (List Token) → List Token
  | [] => []
  | [tokens] => tokens
  | tokens :: next :: rest => tokens ++ .comma :: separated (next :: rest)

/-- The grammar: `Derives depth level tokens node` with brackets and operators nested at most
`depth` deep, as the parser counts them. -/
inductive Derives : Nat → Nat → List Token → Node → Prop
  | leaf {depth : Nat} {token : Token} {node : Node} (hleaf : Leaf token node) :
      Derives depth unaryLevel [token] node
  | unary {depth : Nat} {tokens : List Token} {value : Node} (operator : UnaryOperator)
      (hvalue : Derives depth unaryLevel tokens value) :
      Derives (depth + 1) unaryLevel (operator.token :: tokens) (.unary operator value)
  | paren {depth : Nat} {tokens : List Token} {node : Node} (hnode : Derives depth 0 tokens node) :
      Derives (depth + 1) unaryLevel (.leftParen :: (tokens ++ [.rightParen])) node
  | array {depth : Nat} (parts : List (List Token × Node)) (hdepth : parts ≠ [] → 0 < depth)
      (hparts : ∀ part ∈ parts, Derives (depth - 1) 0 part.1 part.2) :
      Derives depth unaryLevel
        (.leftBracket :: (separated (parts.map Prod.fst) ++ [.rightBracket]))
        (.array (parts.map Prod.snd))
  | call {depth : Nat} (name : String) (parts : List (List Token × Node))
      (hdepth : parts ≠ [] → 0 < depth)
      (hparts : ∀ part ∈ parts, Derives (depth - 1) 0 part.1 part.2) :
      Derives (depth + 1) unaryLevel
        (.identifier name :: .leftParen :: (separated (parts.map Prod.fst) ++ [.rightParen]))
        (.call name (parts.map Prod.snd))
  | binary {depth : Nat} {leftTokens rightTokens : List Token} {left right : Node}
      (operator : BinaryOperator)
      (hleft : Derives (depth + 1) operator.level leftTokens left)
      (hright : Derives depth (operator.level + 1) rightTokens right) :
      Derives (depth + 1) operator.level
        (leftTokens ++ .operator (.binary operator) :: rightTokens) (.binary operator left right)
  | tighter {depth level : Nat} {tokens : List Token} {node : Node} (hlevel : level < unaryLevel)
      (hnode : Derives depth (level + 1) tokens node) : Derives depth level tokens node

theorem BinaryOperator.level_lt (operator : BinaryOperator) : operator.level < unaryLevel := by
  cases operator <;> decide

variable {tokens : List Token}

theorem Derives.loosen {depth level lower : Nat} {node : Node} (h : Derives depth level tokens node)
    (hlevel : level ≤ unaryLevel) (hle : lower ≤ level) :
    Derives depth lower tokens node := by
  induction hle with
  | refl => exact h
  | step hle ih => exact ih (.tighter (by omega) h) (by omega)

theorem Derives.mono {depth level deeper : Nat} {node : Node} (h : Derives depth level tokens node)
    (hle : depth ≤ deeper) :
    Derives deeper level tokens node := by
  induction h generalizing deeper with
  | leaf hleaf => exact .leaf hleaf
  | unary operator hvalue ih =>
    obtain ⟨deeper, rfl⟩ := Nat.exists_eq_add_one.mpr (Nat.zero_lt_of_lt hle)
    exact .unary operator (ih (by omega))
  | paren hnode ih =>
    obtain ⟨deeper, rfl⟩ := Nat.exists_eq_add_one.mpr (Nat.zero_lt_of_lt hle)
    exact .paren (ih (by omega))
  | array parts hdepth hparts ih =>
    refine .array parts (fun hne => (hdepth hne).trans_le hle) ?_
    intro part hpart
    exact ih part hpart (by omega)
  | call name parts hdepth hparts ih =>
    obtain ⟨deeper, rfl⟩ := Nat.exists_eq_add_one.mpr (Nat.zero_lt_of_lt hle)
    refine .call name parts (fun hne => (hdepth hne).trans_le (by omega)) ?_
    intro part hpart
    exact ih part hpart (by omega)
  | binary operator hleft hright ihleft ihright =>
    obtain ⟨deeper, rfl⟩ := Nat.exists_eq_add_one.mpr (Nat.zero_lt_of_lt hle)
    exact .binary operator (ihleft hle) (ihright (by omega))
  | tighter hlevel hnode ih => exact .tighter hlevel (ih hle)

/-- What an expression can start with. -/
def Starts : Token → Prop
  | .rightParen | .rightBracket | .comma | .endOfInput => False
  | _ => True

theorem Derives.exists_start {depth level : Nat} {node : Node}
    (h : Derives depth level tokens node) :
    ∃ first rest, tokens = first :: rest ∧ Starts first := by
  induction h with
  | leaf hleaf => exact ⟨_, [], rfl, by cases hleaf <;> trivial⟩
  | unary operator hvalue ih => exact ⟨_, _, rfl, by cases operator <;> trivial⟩
  | paren hnode ih => exact ⟨_, _, rfl, trivial⟩
  | array parts hdepth hparts ih => exact ⟨_, _, rfl, trivial⟩
  | call name parts hdepth hparts ih => exact ⟨_, _, rfl, trivial⟩
  | binary operator hleft hright ihleft ihright =>
    obtain ⟨first, rest, rfl, hfirst⟩ := ihleft
    exact ⟨first, _, rfl, hfirst⟩
  | tighter hlevel hnode ih => exact ih

/-! ### Reading a derived expression -/

/-- The computation goes as said, or a limit refuses it and `fits` is not the case. -/
def Reaches {α : Type} (x y : Except ExprError α) (fits : Prop) : Prop :=
  x = y ∨ ∃ e, x = .error e ∧ e.IsLimit ∧ ¬ fits

section Reaches

variable {α β : Type} {fits before after : Prop}

theorem Reaches.refl (x : Except ExprError α) : Reaches x x fits :=
  .inl rfl

theorem Reaches.mono {x y : Except ExprError α} (h : Reaches x y before) (himp : fits → before) :
    Reaches x y fits := by
  rcases h with h | ⟨e, hx, hlimit, hnot⟩
  · exact .inl h
  · exact .inr ⟨e, hx, hlimit, fun hfits => hnot (himp hfits)⟩

theorem Reaches.trans {x y z : Except ExprError α} (hxy : Reaches x y before)
    (hyz : Reaches y z after) (hbefore : fits → before) (hafter : fits → after) :
    Reaches x z fits := by
  rcases hxy with rfl | ⟨e, hx, hlimit, hnot⟩
  · exact hyz.mono hafter
  · exact .inr ⟨e, hx, hlimit, fun hfits => hnot (hbefore hfits)⟩

variable {x : Except ExprError α} {f : α → Except ExprError β} {y : Except ExprError β} {a : α}

theorem Reaches.bind (hx : Reaches x (.ok a) before) (hf : Reaches (f a) y after)
    (hbefore : fits → before) (hafter : fits → after) : Reaches (x >>= f) y fits := by
  rcases hx with rfl | ⟨e, rfl, hlimit, hnot⟩
  · exact hf.mono hafter
  · exact .inr ⟨e, rfl, hlimit, fun hfits => hnot (hbefore hfits)⟩

theorem Reaches.bind_eq (hx : Reaches x (.ok a) before) (hf : f a = y) (hbefore : fits → before) :
    Reaches (x >>= f) y fits := by
  subst hf
  rcases hx with rfl | ⟨e, rfl, hlimit, hnot⟩
  · exact .inl rfl
  · exact .inr ⟨e, rfl, hlimit, fun hfits => hnot (hbefore hfits)⟩

theorem Reaches.andThen (hx : Reaches x (.ok a) fits) (f : α → Except ExprError β) :
    Reaches (x >>= f) (f a) fits :=
  hx.bind_eq rfl id

end Reaches

section Reading

variable (limits : Limits)

theorem reaches_reserveNode (tokens : List Token) (nodes : Nat) :
    Reaches (reserveNode limits ⟨tokens, nodes⟩) (.ok ⟨tokens, nodes + 1⟩)
      (nodes + 1 ≤ limits.nodes) := by
  unfold reserveNode
  split_ifs with hfull
  · exact .inr ⟨_, rfl, trivial, fun hfits => absurd hfits (by simpa using Nat.lt_succ_of_le hfull)⟩
  · exact .refl _

theorem reaches_finish (node : Node) (tokens : List Token) (nodes : Nat) :
    Reaches (finish limits node ⟨tokens, nodes⟩) (.ok (node, ⟨tokens, nodes + 1⟩))
      (nodes + 1 ≤ limits.nodes) :=
  (reaches_reserveNode limits tokens nodes).andThen _

/-- The call of `parse_prefix` with `budget` levels left below it. -/
def prefixAt (budget : Nat) (cursor : Cursor) : Except ExprError (Node × Cursor) :=
  parsePrefix limits (parseExpressionAt limits budget)
    (match budget with
      | 0 => fun _ _ => .error (.tooDeep limits.depth)
      | deeper + 1 => fun name =>
        parseList limits (parseExpressionAt limits deeper 0) .paren (.call name)) cursor

theorem parseExpressionAt_succ (budget minBindingPower : Nat) (cursor : Cursor) :
    parseExpressionAt limits (budget + 1) minBindingPower cursor =
      prefixAt limits budget cursor >>= fun result =>
        infixLoop limits (parseExpressionAt limits budget) minBindingPower
          result.2.tokens.length result.1 result.2 := by
  cases budget <;> rfl

/-- The tree is within the limits, with `budget` levels below it and `nodes` already made. -/
def Fits (depth budget nodes : Nat) (node : Node) : Prop :=
  depth ≤ budget ∧ nodes + node.size ≤ limits.nodes ∧ node.width ≤ limits.depth

def Follows (level : Nat) (rest : List Token) : Prop :=
  rest.head? ≠ some .leftParen ∧
    ∀ operator, rest.head? = some (.operator (.binary operator)) → operator.level ≤ level

def Reads (depth level : Nat) (tokens : List Token) (node : Node) : Prop :=
  ∀ (budget minBindingPower nodes : Nat) (rest : List Token),
    minBindingPower ≤ 2 * level + 1 → Follows level rest →
    ∃ fuel, rest.length ≤ fuel ∧
      Reaches (parseExpressionAt limits (budget + 1) minBindingPower ⟨tokens ++ rest, nodes⟩)
        (infixLoop limits (parseExpressionAt limits budget) minBindingPower fuel node
          ⟨rest, nodes + node.size⟩)
        (Fits limits depth budget nodes node)

def ReadsPrefix (depth : Nat) (tokens : List Token) (node : Node) : Prop :=
  ∀ (budget nodes : Nat) (rest : List Token), rest.head? ≠ some .leftParen →
    Reaches (prefixAt limits budget ⟨tokens ++ rest, nodes⟩)
      (.ok (node, ⟨rest, nodes + node.size⟩)) (Fits limits depth budget nodes node)

variable {tokens : List Token} {depth : Nat} {node : Node}

theorem ReadsPrefix.reads (h : ReadsPrefix limits depth tokens node) :
    Reads limits depth unaryLevel tokens node := by
  intro budget minBindingPower nodes rest hpower hfollows
  refine ⟨rest.length, le_rfl, ?_⟩
  rw [parseExpressionAt_succ]
  exact (h budget nodes rest hfollows.1).andThen _

theorem infixLoop_stop {parseRight : Nat → Cursor → Except ExprError (Node × Cursor)}
    {minBindingPower : Nat} {rest : List Token}
    (hstop : ∀ operator, rest.head? = some (.operator (.binary operator)) →
      2 * operator.level + 1 < minBindingPower) (fuel : Nat) (left : Node) (nodes : Nat) :
    infixLoop limits parseRight minBindingPower fuel left ⟨rest, nodes⟩ =
      .ok (left, ⟨rest, nodes⟩) := by
  cases fuel with
  | zero => rfl
  | succ fuel =>
    unfold infixLoop
    cases hpeek : (Cursor.mk rest nodes).peek with
    | operator operator =>
      cases operator with
      | not => rfl
      | binary operator =>
        have hhead : rest.head? = some (.operator (.binary operator)) := by
          unfold Cursor.peek at hpeek
          cases rest with
          | nil => cases hpeek
          | cons first rest => exact congrArg some hpeek
        simp only [infixBindingPower_binary, hstop operator hhead, if_true]
    | _ => rfl

theorem Reads.reaches {depth level : Nat} {tokens : List Token} {node : Node}
    (h : Reads limits depth level tokens node) (budget nodes : Nat) {minBindingPower : Nat}
    {rest : List Token} (hpower : minBindingPower ≤ 2 * level + 1) (hfollows : Follows level rest)
    (hstop : ∀ operator, rest.head? = some (.operator (.binary operator)) →
      2 * operator.level + 1 < minBindingPower) :
    Reaches (parseExpressionAt limits budget minBindingPower ⟨tokens ++ rest, nodes⟩)
      (.ok (node, ⟨rest, nodes + node.size⟩))
      (depth < budget ∧ nodes + node.size ≤ limits.nodes ∧ node.width ≤ limits.depth) := by
  cases budget with
  | zero => exact .inr ⟨_, rfl, trivial, fun hfits => absurd hfits.1 (by omega)⟩
  | succ budget =>
    obtain ⟨fuel, -, hreaches⟩ := h budget minBindingPower nodes rest hpower hfollows
    rw [infixLoop_stop limits hstop] at hreaches
    exact hreaches.mono fun hfits => ⟨Nat.lt_succ_iff.mp hfits.1, hfits.2⟩

theorem follows_closing (closing : Closing) (rest : List Token) :
    Follows 0 (closing.token :: rest) := by
  cases closing <;> exact ⟨by simp [Closing.token], by simp [Closing.token]⟩

theorem follows_comma (rest : List Token) : Follows 0 (.comma :: rest) :=
  ⟨by simp, by simp⟩

theorem head_closing (closing : Closing) (rest : List Token) (operator : BinaryOperator) :
    (closing.token :: rest).head? ≠ some (.operator (.binary operator)) := by
  cases closing <;> simp [Closing.token]

variable {parts : List (List Token × Node)} {cursor result : Cursor} {fuel : Nat}
  {items : List Node}

theorem reaches_itemsLoop (closing : Closing) (hne : parts ≠ [])
    (hparts : ∀ part ∈ parts, Reads limits depth 0 part.1 part.2) (budget nodes : Nat)
    (hfuel : parts.length ≤ fuel) (items : List Node) (rest : List Token) :
    Reaches
      (itemsLoop (parseExpressionAt limits budget 0) closing fuel items
        ⟨separated (parts.map Prod.fst) ++ closing.token :: rest, nodes⟩)
      (.ok (items ++ parts.map Prod.snd, ⟨rest, nodes + nodesSize (parts.map Prod.snd)⟩))
      (depth < budget ∧ nodes + nodesSize (parts.map Prod.snd) ≤ limits.nodes ∧
        nodesWidth (parts.map Prod.snd) ≤ limits.depth) := by
  induction parts generalizing fuel items nodes with
  | nil => exact absurd rfl hne
  | cons part parts ih =>
    obtain ⟨tokens, node⟩ := part
    obtain _ | fuel := fuel
    · simp at hfuel
    have hpart := hparts (tokens, node) mem_cons_self
    cases parts with
    | nil =>
      have hread := hpart.reaches limits budget nodes (Nat.zero_le _) (follows_closing closing rest)
        (fun operator hhead => absurd hhead (head_closing closing rest operator))
      rw [itemsLoop]
      refine hread.bind_eq ?_ (fun hfits => ?_)
      · cases closing <;> rfl
      · simpa [nodesSize, nodesWidth] using hfits
    | cons next parts =>
      have hread := hpart.reaches limits budget nodes (Nat.zero_le _)
        (follows_comma (separated ((next :: parts).map Prod.fst) ++ closing.token :: rest))
        (fun operator hhead => by simp at hhead)
      have hrest := @ih fuel (by simp) (fun part hmem => hparts part (mem_cons_of_mem _ hmem))
        (nodes + node.size) (by simpa using hfuel) (items ++ [node])
      have hsplit : separated (((tokens, node) :: next :: parts).map Prod.fst) ++
          closing.token :: rest =
          tokens ++ .comma :: (separated ((next :: parts).map Prod.fst) ++
            closing.token :: rest) := by
        simp [separated]
      rw [append_assoc, singleton_append, Nat.add_assoc] at hrest
      rw [itemsLoop, hsplit]
      refine hread.bind hrest ?_ ?_
      · rintro ⟨hdepth, hnodes, hwidth⟩
        rw [map_cons, nodesSize] at hnodes
        rw [map_cons, nodesWidth] at hwidth
        exact ⟨hdepth, by omega, by omega⟩
      · rintro ⟨hdepth, hnodes, hwidth⟩
        rw [map_cons, nodesSize] at hnodes
        rw [map_cons, nodesWidth] at hwidth
        exact ⟨hdepth, by omega, by omega⟩

/-- There are as many tokens as items and their closing bracket. -/
theorem length_le_separated (parts : List (List Token)) (token : Token) (rest : List Token) :
    parts.length ≤ (separated parts ++ token :: rest).length := by
  induction parts with
  | nil => simp
  | cons part parts ih =>
    cases parts with
    | nil =>
      simp only [separated, length_append, length_cons, length_nil]
      omega
    | cons next parts =>
      simp only [separated, length_append, length_cons] at ih ⊢
      omega

theorem reaches_parseList (closing : Closing) (build : List Node → Node)
    (hparts : ∀ part ∈ parts, Reads limits depth 0 part.1 part.2)
    (hstart : ∀ part ∈ parts, ∃ first rest, part.1 = first :: rest ∧ Starts first)
    (budget nodes : Nat) (rest : List Token) :
    Reaches
      (parseList limits (parseExpressionAt limits budget 0) closing build
        ⟨separated (parts.map Prod.fst) ++ closing.token :: rest, nodes⟩)
      (.ok (build (parts.map Prod.snd), ⟨rest, nodes + nodesSize (parts.map Prod.snd) + 1⟩))
      ((parts ≠ [] → depth < budget) ∧
        nodes + nodesSize (parts.map Prod.snd) + 1 ≤ limits.nodes ∧
        nodesWidth (parts.map Prod.snd) ≤ limits.depth) := by
  unfold parseList
  cases parts with
  | nil =>
    have hclosed : closing.isClosedBy
        (Cursor.mk (separated [] ++ closing.token :: rest) nodes).peek = true := by
      cases closing <;> rfl
    rw [map_nil, if_pos hclosed]
    exact (reaches_finish limits (build []) rest nodes).mono fun hfits => hfits.2.1
  | cons part parts =>
    have hopen : closing.isClosedBy (Cursor.mk (separated ((part :: parts).map Prod.fst) ++
        closing.token :: rest) nodes).peek = false := by
      obtain ⟨first, others, hfirst, hstarts⟩ := hstart part mem_cons_self
      have hpeek : (Cursor.mk (separated ((part :: parts).map Prod.fst) ++
          closing.token :: rest) nodes).peek = first := by
        cases parts <;> simp [separated, Cursor.peek, hfirst]
      rw [hpeek]
      cases closing <;> cases first <;> first | rfl | cases hstarts
    rw [hopen, if_neg (by simp)]
    have hfuel := length_le_separated ((part :: parts).map Prod.fst) closing.token rest
    rw [length_map] at hfuel
    have hitems := reaches_itemsLoop limits closing (cons_ne_nil part parts) hparts budget
      nodes hfuel [] rest
    have hfinish := reaches_finish limits (build ((part :: parts).map Prod.snd)) rest
      (nodes + nodesSize ((part :: parts).map Prod.snd))
    refine Reaches.bind hitems ?_ ?_ (fun hfits => hfits.2.1)
    · exact hfinish
    · rintro ⟨hdepth, hnodes, hwidth⟩
      exact ⟨hdepth (by simp), by omega, hwidth⟩

variable {token : Token}

theorem readsPrefix_leaf (h : Leaf token node) :
    ReadsPrefix limits depth [token] node := by
  intro budget nodes rest hrest
  cases h with
  | @path name hpath =>
    have hsteps : prefixAt limits budget ⟨[.identifier name] ++ rest, nodes⟩ =
        if segments name > limits.depth then .error (.tooDeep limits.depth)
        else finish limits (.path name) ⟨rest, nodes⟩ := by
      have hpeek : (Cursor.mk rest nodes).peek ≠ .leftParen := by
        intro hparen
        unfold Cursor.peek at hparen
        cases rest with
        | nil => cases hparen
        | cons first rest => exact hrest (congrArg some hparen)
      have hafter : (Cursor.mk ([.identifier name] ++ rest) nodes).advance = ⟨rest, nodes⟩ := rfl
      have hfirst : (Cursor.mk ([.identifier name] ++ rest) nodes).peek = .identifier name := rfl
      simp only [prefixAt, parsePrefix, hfirst, hafter, hpath, if_true]
    rw [hsteps]
    split_ifs with hwide
    · exact .inr ⟨_, rfl, trivial, fun hfits =>
        absurd hfits.2.2 (by simpa [Node.width] using hwide)⟩
    · exact (reaches_finish limits _ rest nodes).mono fun hfits => hfits.2.1
  | _ => exact (reaches_finish limits _ rest nodes).mono fun hfits => hfits.2.1

theorem readsPrefix_unary {value : Node} (operator : UnaryOperator)
    (h : Reads limits depth unaryLevel tokens value) :
    ReadsPrefix limits (depth + 1) (operator.token :: tokens) (.unary operator value) := by
  intro budget nodes rest hrest
  have hread := h.reaches limits budget nodes (le_refl 13) ⟨hrest, fun other _ => other.level_lt.le⟩
    (fun other _ => by have := other.level_lt; unfold unaryLevel at this; omega)
  have hsteps : prefixAt limits budget ⟨operator.token :: tokens ++ rest, nodes⟩ =
      parseExpressionAt limits budget 13 ⟨tokens ++ rest, nodes⟩ >>= fun result =>
        finish limits (.unary operator result.1) result.2 := by
    cases operator <;> rfl
  rw [hsteps]
  refine hread.bind (reaches_finish limits (.unary operator value) rest (nodes + value.size)) ?_ ?_
  · rintro ⟨hdepth, hnodes, hwidth⟩
    rw [Node.size] at hnodes
    exact ⟨hdepth, by omega, hwidth⟩
  · exact fun hfits => hfits.2.1

theorem readsPrefix_paren (h : Reads limits depth 0 tokens node) :
    ReadsPrefix limits (depth + 1) (.leftParen :: (tokens ++ [.rightParen])) node := by
  intro budget nodes rest hrest
  have hread := h.reaches limits budget nodes (Nat.zero_le _) (follows_closing .paren rest)
    (fun operator hhead => absurd hhead (head_closing .paren rest operator))
  rw [cons_append, append_assoc]
  exact hread.bind_eq rfl id

section

variable (hdepth : parts ≠ [] → 0 < depth)
    (hparts : ∀ part ∈ parts, Reads limits (depth - 1) 0 part.1 part.2)
    (hstart : ∀ part ∈ parts, ∃ first rest, part.1 = first :: rest ∧ Starts first)

include hdepth hparts hstart

theorem readsPrefix_array :
    ReadsPrefix limits depth
      (.leftBracket :: (separated (parts.map Prod.fst) ++ [.rightBracket]))
      (.array (parts.map Prod.snd)) := by
  intro budget nodes rest hrest
  have hlist := reaches_parseList limits .bracket .array hparts hstart budget nodes rest
  have hsteps : prefixAt limits budget
      ⟨.leftBracket :: (separated (parts.map Prod.fst) ++ [.rightBracket]) ++ rest, nodes⟩ =
      parseList limits (parseExpressionAt limits budget 0) .bracket .array
        ⟨separated (parts.map Prod.fst) ++ .rightBracket :: rest, nodes⟩ := by
    rw [cons_append, append_assoc]
    rfl
  rw [hsteps]
  refine hlist.mono ?_
  rintro ⟨hbudget, hnodes, hwidth⟩
  refine ⟨fun hne => ?_, hnodes, hwidth⟩
  have := hdepth hne
  omega

theorem readsPrefix_call (name : String) :
    ReadsPrefix limits (depth + 1)
      (.identifier name :: .leftParen :: (separated (parts.map Prod.fst) ++ [.rightParen]))
      (.call name (parts.map Prod.snd)) := by
  intro budget nodes rest hrest
  cases budget with
  | zero => exact .inr ⟨_, rfl, trivial, fun hfits => absurd hfits.1 (by omega)⟩
  | succ budget =>
    have hlist := reaches_parseList limits .paren (.call name) hparts hstart budget nodes rest
    have hsteps : prefixAt limits (budget + 1)
        ⟨.identifier name :: .leftParen :: (separated (parts.map Prod.fst) ++ [.rightParen]) ++
          rest,
          nodes⟩ =
        parseList limits (parseExpressionAt limits budget 0) .paren (.call name)
          ⟨separated (parts.map Prod.fst) ++ .rightParen :: rest, nodes⟩ := by
      rw [cons_append, cons_append, append_assoc]
      rfl
    rw [hsteps]
    refine hlist.mono ?_
    rintro ⟨hbudget, hnodes, hwidth⟩
    refine ⟨fun hne => ?_, hnodes, hwidth⟩
    have := hdepth hne
    omega

end

theorem reads_binary {leftTokens rightTokens : List Token} {left right : Node}
    (operator : BinaryOperator) (hleft : Reads limits (depth + 1) operator.level leftTokens left)
    (hright : Reads limits depth (operator.level + 1) rightTokens right) :
    Reads limits (depth + 1) operator.level
      (leftTokens ++ .operator (.binary operator) :: rightTokens)
        (.binary operator left right) := by
  intro budget minBindingPower nodes rest hpower hfollows
  have hnext : Follows operator.level
      (.operator (.binary operator) :: (rightTokens ++ rest)) := by
    refine ⟨by simp, ?_⟩
    intro other hother
    simp only [List.head?_cons, Option.some.injEq, Token.operator.injEq, Operator.binary.injEq]
      at hother
    rw [hother]
  obtain ⟨fuel, hfuel, hreads⟩ := hleft budget minBindingPower nodes _ hpower hnext
  obtain _ | fuel := fuel
  · simp at hfuel
  have hread := @Reads.reaches limits _ _ _ _ hright budget (nodes + left.size)
    (2 * operator.level + 2) rest (by omega)
    ⟨hfollows.1, fun other hother => (hfollows.2 other hother).trans (Nat.le_succ _)⟩
    (fun other hother => by have := hfollows.2 other hother; omega)
  have hturn : infixLoop limits (parseExpressionAt limits budget) minBindingPower (fuel + 1) left
      ⟨.operator (.binary operator) :: (rightTokens ++ rest), nodes + left.size⟩ =
      parseExpressionAt limits budget (2 * operator.level + 2)
        ⟨rightTokens ++ rest, nodes + left.size⟩ >>= fun result =>
        reserveNode limits result.2 >>= fun cursor =>
          infixLoop limits (parseExpressionAt limits budget) minBindingPower fuel
            (.binary operator left result.1) cursor := by
    have hpeek : (Cursor.mk (.operator (.binary operator) :: (rightTokens ++ rest))
        (nodes + left.size)).peek = .operator (.binary operator) := rfl
    rw [infixLoop, hpeek]
    simp only [infixBindingPower_binary]
    rw [if_neg (by omega)]
    rfl
  rw [append_assoc, cons_append]
  refine ⟨fuel, ?_, ?_⟩
  · simp only [length_cons, length_append] at hfuel
    omega
  · rw [hturn] at hreads
    have hreserve := (reaches_reserveNode limits rest (nodes + left.size + right.size)).andThen
      (infixLoop limits (parseExpressionAt limits budget) minBindingPower fuel
        (.binary operator left right))
    have hsize : nodes + (Node.binary operator left right).size =
        nodes + left.size + right.size + 1 := by
      rw [Node.size]
      omega
    have hwidth : (Node.binary operator left right).width = max left.width right.width := rfl
    unfold Fits at hreads ⊢
    rw [hsize, hwidth]
    have hloop := Reaches.bind (f := fun result => reserveNode limits result.2 >>= fun cursor =>
      infixLoop limits (parseExpressionAt limits budget) minBindingPower fuel
        (.binary operator left result.1) cursor) hread hreserve And.left And.right
    refine hreads.trans hloop ?_ ?_
    · rintro ⟨hdepth, hnodes, hpaths⟩
      exact ⟨hdepth, by omega, by omega⟩
    · rintro ⟨hdepth, hnodes, hpaths⟩
      exact ⟨⟨by omega, by omega, by omega⟩, by omega⟩

theorem Derives.reads {depth level : Nat} (h : Derives depth level tokens node) :
    Reads limits depth level tokens node := by
  induction h with
  | leaf hleaf => exact (readsPrefix_leaf limits hleaf).reads
  | unary operator hvalue ih => exact (readsPrefix_unary limits operator ih).reads
  | paren hnode ih => exact (readsPrefix_paren limits ih).reads
  | array parts hdepth hparts ih =>
    exact (readsPrefix_array limits hdepth ih fun part hpart =>
      (hparts part hpart).exists_start).reads
  | call name parts hdepth hparts ih =>
    exact (readsPrefix_call limits hdepth ih (fun part hpart => (hparts part hpart).exists_start)
      name).reads
  | binary operator hleft hright ihleft ihright =>
    exact reads_binary limits operator ihleft ihright
  | tighter hlevel hnode ih =>
    intro budget minBindingPower nodes rest hpower hfollows
    exact ih budget minBindingPower nodes rest (by omega)
      ⟨hfollows.1, fun other hother => (hfollows.2 other hother).trans (Nat.le_succ _)⟩

/-- The tree of a derived source, unless a limit refuses it. -/
theorem Derives.reaches_parseTokens (h : Derives depth 0 tokens node) :
    Reaches (parseTokens limits (tokens ++ [.endOfInput])) (.ok node)
      (depth ≤ limits.depth ∧ node.size ≤ limits.nodes ∧ node.width ≤ limits.depth) := by
  have hread := @Reads.reaches limits _ _ _ _ (h.reads limits) (limits.depth + 1) 0 0
    [.endOfInput] (by omega) ⟨by simp, by simp⟩ (by simp)
  refine hread.bind_eq rfl ?_
  rintro ⟨hdepth, hnodes, hwidth⟩
  exact ⟨by omega, by omega, hwidth⟩

/-- The grammar assigns one tree to a sequence of tokens. -/
theorem Derives.unique {depth other : Nat} {node' : Node} (h : Derives depth 0 tokens node)
    (h' : Derives other 0 tokens node') : node = node' := by
  -- read the tokens under limits that both trees keep
  let wide : Limits :=
    { depth := max (max depth other) (max node.width node'.width)
      nodes := max node.size node'.size }
  have hone : parseTokens wide (tokens ++ [.endOfInput]) = .ok node := by
    rcases h.reaches_parseTokens wide with hok | ⟨e, -, -, hnot⟩
    · exact hok
    · exact absurd ⟨by simp [wide], by simp [wide], by simp [wide]⟩ hnot
  have htwo : parseTokens wide (tokens ++ [.endOfInput]) = .ok node' := by
    rcases h'.reaches_parseTokens wide with hok | ⟨e, -, -, hnot⟩
    · exact hok
    · exact absurd ⟨by simp [wide], by simp [wide], by simp [wide]⟩ hnot
  exact Except.ok.inj (hone.symm.trans htwo)

/-! ### What was read is derived -/

theorem Cursor.tokens_of_peek (h : cursor.peek = token) (htoken : token ≠ .endOfInput) :
    cursor.tokens = token :: cursor.advance.tokens := by
  unfold Cursor.peek at h
  cases htokens : cursor.tokens with
  | nil =>
    rw [htokens] at h
    exact absurd h.symm htoken
  | cons first rest =>
    rw [htokens] at h
    simp only [Cursor.advance, htokens, tail_cons]
    exact congrArg (· :: rest) h

theorem reserveNode_eq_ok (h : reserveNode limits cursor = .ok result) :
    result.tokens = cursor.tokens := by
  unfold reserveNode at h
  split_ifs at h
  cases h
  rfl

theorem finish_eq_ok {made : Node} (h : finish limits node cursor = .ok (made, result)) :
    made = node ∧ result.tokens = cursor.tokens := by
  obtain ⟨reserved, hreserve, hok⟩ := bind_eq_ok.mp h
  cases hok
  exact ⟨rfl, reserveNode_eq_ok limits hreserve⟩

/-- What a successful call of the parser has read. -/
def SoundAt (budget : Nat) : Prop :=
  ∀ (minBindingPower : Nat) (cursor after : Cursor) (node : Node), minBindingPower ≤ 13 →
    parseExpressionAt limits budget minBindingPower cursor = .ok (node, after) →
    ∃ tokens, cursor.tokens = tokens ++ after.tokens ∧ 0 < budget ∧
      Derives (budget - 1) (minBindingPower / 2) tokens node ∧
      ∀ operator, after.tokens.head? = some (.operator (.binary operator)) →
        operator.level < minBindingPower / 2

theorem Closing.eq_token_of_isClosedBy {closing : Closing} (h : closing.isClosedBy token = true) :
    token = closing.token := by
  cases closing <;> cases token <;> first | rfl | cases h

theorem Closing.token_ne_endOfInput (closing : Closing) : closing.token ≠ .endOfInput := by
  cases closing <;> simp [Closing.token]

variable {budget : Nat}

section

variable (hsound : SoundAt limits budget)

include hsound

theorem itemsLoop_sound (closing : Closing) {made : List Node} {after : Cursor}
    (h : itemsLoop (parseExpressionAt limits budget 0) closing fuel items cursor =
      .ok (made, after)) :
    ∃ parts : List (List Token × Node), parts ≠ [] ∧ made = items ++ parts.map Prod.snd ∧
      cursor.tokens = separated (parts.map Prod.fst) ++ closing.token :: after.tokens ∧
      0 < budget ∧ ∀ part ∈ parts, Derives (budget - 1) 0 part.1 part.2 := by
  induction fuel generalizing items cursor with
  | zero => cases h
  | succ fuel ih =>
    obtain ⟨⟨item, next⟩, hitem, hrest⟩ := bind_eq_ok.mp h
    obtain ⟨tokens, htokens, hbudget, hderives, -⟩ := hsound 0 cursor next item (by omega) hitem
    by_cases hcomma : next.peek = .comma
    · simp only [hcomma] at hrest
      obtain ⟨parts, hne, hmade, hparts, -, hall⟩ := ih hrest
      refine ⟨(tokens, item) :: parts, by simp, by simp [hmade], ?_, hbudget, ?_⟩
      · obtain ⟨part, others, rfl⟩ := exists_cons_of_ne_nil hne
        rw [htokens, Cursor.tokens_of_peek hcomma (by simp), hparts]
        simp [separated]
      · intro part hpart
        rcases mem_cons.mp hpart with rfl | hpart
        · exact hderives
        · exact hall part hpart
    · have hclosed : closing.isClosedBy next.peek = true ∧
          (made, after) = (items ++ [item], next.advance) := by
        dsimp only at hrest
        split at hrest
        · contradiction
        · split_ifs at hrest with hclosed
          exact ⟨hclosed, (Except.ok.inj hrest).symm⟩
      obtain ⟨hclosing, hresult⟩ := hclosed
      cases hresult
      have hpeek := Closing.eq_token_of_isClosedBy hclosing
      refine ⟨[(tokens, item)], by simp, rfl, ?_, hbudget, by simpa using hderives⟩
      rw [htokens, Cursor.tokens_of_peek hpeek closing.token_ne_endOfInput]
      rfl

theorem parseList_sound (closing : Closing) {build : List Node → Node} {after : Cursor}
    (h : parseList limits (parseExpressionAt limits budget 0) closing build cursor =
      .ok (node, after)) :
    ∃ parts : List (List Token × Node), node = build (parts.map Prod.snd) ∧
      cursor.tokens = separated (parts.map Prod.fst) ++ closing.token :: after.tokens ∧
      (parts ≠ [] → 0 < budget) ∧ ∀ part ∈ parts, Derives (budget - 1) 0 part.1 part.2 := by
  unfold parseList at h
  split_ifs at h with hclosed
  · obtain ⟨rfl, hafter⟩ := finish_eq_ok limits h
    refine ⟨[], rfl, ?_, by simp, by simp⟩
    rw [Cursor.tokens_of_peek (Closing.eq_token_of_isClosedBy hclosed)
      closing.token_ne_endOfInput, hafter]
    rfl
  · obtain ⟨⟨items, next⟩, hitems, hfinish⟩ := bind_eq_ok.mp h
    obtain ⟨rfl, hafter⟩ := finish_eq_ok limits hfinish
    obtain ⟨parts, -, rfl, htokens, hbudget, hparts⟩ := itemsLoop_sound limits hsound closing hitems
    exact ⟨parts, rfl, by rw [htokens, hafter], fun _ => hbudget, hparts⟩

theorem infixLoop_sound {minBindingPower : Nat} {level : Nat} {left : Node} {after : Cursor}
    (hfuel : cursor.tokens.length ≤ fuel) (hleft : Derives budget level tokens left)
    (hlow : minBindingPower / 2 ≤ level) (hhigh : level ≤ unaryLevel)
    (hnext : ∀ operator, cursor.tokens.head? = some (.operator (.binary operator)) →
      operator.level ≤ level)
    (h : infixLoop limits (parseExpressionAt limits budget) minBindingPower fuel left cursor =
      .ok (node, after)) :
    ∃ more, cursor.tokens = more ++ after.tokens ∧
      Derives budget (minBindingPower / 2) (tokens ++ more) node ∧
      ∀ operator, after.tokens.head? = some (.operator (.binary operator)) →
        operator.level < minBindingPower / 2 := by
  induction fuel generalizing level tokens left cursor with
  | zero =>
    have hnil : cursor.tokens = [] := length_eq_zero_iff.mp (Nat.le_zero.mp hfuel)
    cases h
    exact ⟨[], rfl, by simpa using hleft.loosen hhigh hlow, by simp [hnil]⟩
  | succ fuel ih =>
    by_cases hoperator : ∃ operator, cursor.peek = .operator (.binary operator) ∧
        minBindingPower ≤ 2 * operator.level + 1
    · obtain ⟨operator, hpeek, hbinds⟩ := hoperator
      have htokens := Cursor.tokens_of_peek hpeek (by simp)
      rw [infixLoop, hpeek] at h
      simp only [infixBindingPower_binary] at h
      rw [if_neg (by omega)] at h
      obtain ⟨⟨right, next⟩, hright, hrest⟩ := bind_eq_ok.mp h
      obtain ⟨reserved, hreserve, hloop⟩ := bind_eq_ok.mp hrest
      have hreserved : reserved.tokens = next.tokens := reserveNode_eq_ok limits hreserve
      have hoplevel := operator.level_lt
      unfold unaryLevel at hoplevel
      obtain ⟨rightTokens, hread, hbudget, hderives, hstop⟩ :=
        hsound _ _ _ _ (by omega) hright
      have hhalf : (2 * operator.level + 2) / 2 = operator.level + 1 := by omega
      rw [hhalf] at hderives hstop
      obtain ⟨deeper, rfl⟩ := Nat.exists_eq_add_one.mpr hbudget
      have hjoined : Derives (deeper + 1) operator.level
          (tokens ++ .operator (.binary operator) :: rightTokens) (.binary operator left right) :=
        .binary operator
          (hleft.loosen hhigh (hnext operator (by rw [htokens]; rfl))) hderives
      have hlength : reserved.tokens.length ≤ fuel := by
        rw [hreserved]
        have hsplit := congrArg List.length htokens
        have hsplit' := congrArg List.length hread
        simp only [length_cons, length_append] at hsplit hsplit'
        omega
      obtain ⟨more, hmore, hnode, hlast⟩ := ih hlength hjoined (by omega) hoplevel.le
        (fun other hother => by
          rw [hreserved] at hother
          exact Nat.lt_succ_iff.mp (hstop other hother)) hloop
      refine ⟨.operator (.binary operator) :: (rightTokens ++ more), ?_, ?_, hlast⟩
      · rw [htokens, hread, ← hreserved, hmore]
        simp
      · simpa using hnode
    · -- the loop stops here
      have hstop : ∀ operator, cursor.tokens.head? = some (.operator (.binary operator)) →
          2 * operator.level + 1 < minBindingPower := by
        intro operator hhead
        by_contra hbinds
        refine hoperator ⟨operator, ?_, by omega⟩
        rw [Cursor.peek, hhead]
        rfl
      have hloop := @infixLoop_stop limits (parseExpressionAt limits budget) minBindingPower
        cursor.tokens hstop (fuel + 1) left cursor.nodes
      rw [hloop] at h
      cases h
      refine ⟨[], rfl, by simpa using hleft.loosen hhigh hlow, ?_⟩
      intro operator hhead
      have := hstop operator hhead
      omega

end

theorem prefixAt_sound (hsound : ∀ deeper ≤ budget, SoundAt limits deeper) {after : Cursor}
    (h : prefixAt limits budget cursor = .ok (node, after)) :
    ∃ tokens, cursor.tokens = tokens ++ after.tokens ∧ Derives budget unaryLevel tokens node := by
  -- a leaf takes one token
  have hleaf : ∀ {token : Token} {made : Node}, cursor.peek = token → token ≠ .endOfInput →
      Leaf token made → finish limits made cursor.advance = .ok (node, after) →
      ∃ tokens, cursor.tokens = tokens ++ after.tokens ∧
        Derives budget unaryLevel tokens node := by
    intro token made hpeek hne hmade hfinish
    obtain ⟨rfl, hafter⟩ := finish_eq_ok limits hfinish
    refine ⟨[token], ?_, .leaf hmade⟩
    rw [Cursor.tokens_of_peek hpeek hne, hafter]
    rfl
  have hunary : ∀ operator : UnaryOperator, cursor.peek = operator.token →
      (parseExpressionAt limits budget 13 cursor.advance >>= fun result =>
        finish limits (.unary operator result.1) result.2) = .ok (node, after) →
      ∃ tokens, cursor.tokens = tokens ++ after.tokens ∧
        Derives budget unaryLevel tokens node := by
    intro operator hpeek hparse
    obtain ⟨⟨value, next⟩, hvalue, hfinish⟩ := bind_eq_ok.mp hparse
    obtain ⟨rfl, hafter⟩ := finish_eq_ok limits hfinish
    obtain ⟨tokens, htokens, hbudget, hderives, -⟩ := hsound budget le_rfl _ _ _ _ le_rfl hvalue
    obtain ⟨deeper, rfl⟩ := Nat.exists_eq_add_one.mpr hbudget
    refine ⟨operator.token :: tokens, ?_, .unary operator hderives⟩
    rw [Cursor.tokens_of_peek hpeek (by cases operator <;> simp [UnaryOperator.token]), htokens,
      hafter]
    rfl
  unfold prefixAt parsePrefix at h
  cases hpeek : cursor.peek with
  | bool b =>
    simp only [hpeek] at h
    exact hleaf hpeek (by simp) (.bool b) h
  | null =>
    simp only [hpeek] at h
    exact hleaf hpeek (by simp) .null h
  | string s =>
    simp only [hpeek] at h
    exact hleaf hpeek (by simp) (.string s) h
  | number n =>
    simp only [hpeek] at h
    exact hleaf hpeek (by simp) (.number n) h
  | identifier name =>
    simp only [hpeek] at h
    have htokens := Cursor.tokens_of_peek hpeek (by simp)
    by_cases hparen : cursor.advance.peek = .leftParen
    · simp only [hparen] at h
      cases budget with
      | zero => cases h
      | succ deeper =>
        obtain ⟨parts, rfl, hlist, hdepth, hparts⟩ :=
          parseList_sound limits (hsound deeper (by omega)) .paren h
        refine ⟨_, ?_, .call name parts hdepth hparts⟩
        rw [htokens, Cursor.tokens_of_peek hparen (by simp), hlist]
        simp [Closing.token]
    · have hpath : isPath name = true ∧
          finish limits (.path name) cursor.advance = .ok (node, after) := by
        split at h
        · contradiction
        · split_ifs at h with hpath hwide
          exact ⟨hpath, h⟩
      exact hleaf hpeek (by simp) (.path hpath.1) hpath.2
  | operator operator =>
    cases operator with
    | not =>
      simp only [hpeek] at h
      exact hunary .not hpeek h
    | binary binary =>
      cases binary <;> simp only [hpeek] at h
      case sub => exact hunary .neg hpeek h
      all_goals cases h
  | leftParen =>
    simp only [hpeek] at h
    obtain ⟨⟨inner, next⟩, hinner, hclose⟩ := bind_eq_ok.mp h
    obtain ⟨tokens, htokens, hbudget, hderives, -⟩ := hsound budget le_rfl _ _ _ _ (by omega) hinner
    obtain ⟨deeper, rfl⟩ := Nat.exists_eq_add_one.mpr hbudget
    dsimp only at hclose
    split at hclose
    · rename_i hright
      cases hclose
      refine ⟨_, ?_, .paren hderives⟩
      rw [Cursor.tokens_of_peek hpeek (by simp), htokens, Cursor.tokens_of_peek hright (by simp)]
      simp
    · cases hclose
  | leftBracket =>
    simp only [hpeek] at h
    obtain ⟨parts, rfl, hlist, hdepth, hparts⟩ :=
      parseList_sound limits (hsound budget le_rfl) .bracket h
    refine ⟨_, ?_, .array parts hdepth hparts⟩
    rw [Cursor.tokens_of_peek hpeek (by simp), hlist]
    simp [Closing.token]
  | rightParen => simp only [hpeek, reduceCtorEq] at h
  | rightBracket => simp only [hpeek, reduceCtorEq] at h
  | comma => simp only [hpeek, reduceCtorEq] at h
  | endOfInput => simp only [hpeek, reduceCtorEq] at h

/-- What the parser returns is derived from what it read. -/
theorem parseExpressionAt_sound (budget : Nat) : SoundAt limits budget := by
  induction budget using Nat.strong_induction_on with
  | _ budget ih =>
    intro minBindingPower cursor after node hpower h
    cases budget with
    | zero => cases h
    | succ budget =>
      rw [parseExpressionAt_succ] at h
      obtain ⟨⟨left, next⟩, hleft, hloop⟩ := bind_eq_ok.mp h
      obtain ⟨tokens, htokens, hderives⟩ :=
        prefixAt_sound limits (fun deeper hle => ih deeper (Nat.lt_succ_of_le hle)) hleft
      obtain ⟨more, hmore, hnode, hstop⟩ := infixLoop_sound limits (ih budget (Nat.lt_succ_self _))
        le_rfl hderives (by unfold unaryLevel; omega) le_rfl
        (fun operator _ => operator.level_lt.le) hloop
      exact ⟨tokens ++ more, by rw [htokens, hmore, append_assoc], by omega, hnode, hstop⟩

theorem mem_separated {parts : List (List Token)} (h : token ∈ separated parts) :
    token = .comma ∨ ∃ part ∈ parts, token ∈ part := by
  induction parts with
  | nil => cases h
  | cons part parts ih =>
    cases parts with
    | nil => exact .inr ⟨part, mem_cons_self, h⟩
    | cons next parts =>
      rw [separated] at h
      rcases mem_append.mp h with h | h
      · exact .inr ⟨part, mem_cons_self, h⟩
      · rcases mem_cons.mp h with rfl | h
        · exact .inl rfl
        · rcases ih h with h | ⟨other, hother, h⟩
          · exact .inl h
          · exact .inr ⟨other, mem_cons_of_mem _ hother, h⟩

theorem Derives.endOfInput_notMem {depth level : Nat} (h : Derives depth level tokens node) :
    .endOfInput ∉ tokens := by
  -- a list of parts holds no end either
  have hlist : ∀ {parts : List (List Token × Node)}, (∀ part ∈ parts, .endOfInput ∉ part.1) →
      .endOfInput ∉ separated (parts.map Prod.fst) := by
    intro parts hparts hmem
    rcases mem_separated hmem with h | ⟨part, hpart, h⟩
    · cases h
    · obtain ⟨whole, hwhole, rfl⟩ := mem_map.mp hpart
      exact hparts whole hwhole h
  induction h with
  | leaf hleaf => cases hleaf <;> simp
  | unary operator hvalue ih => cases operator <;> simpa [UnaryOperator.token] using ih
  | paren hnode ih => simpa using ih
  | array parts hdepth hparts ih => simpa using hlist ih
  | call name parts hdepth hparts ih => simpa using hlist ih
  | binary operator hleft hright ihleft ihright => simp [ihleft, ihright]
  | tighter hlevel hnode ih => exact ih

theorem derives_of_parseTokens (htokens : .endOfInput ∉ tokens)
    (h : parseTokens limits (tokens ++ [.endOfInput]) = .ok node) :
    Derives limits.depth 0 tokens node := by
  obtain ⟨⟨made, after⟩, hparse, hend⟩ := bind_eq_ok.mp h
  obtain ⟨read, hread, -, hderives, -⟩ := parseExpressionAt_sound limits _ _ _ _ _ (by omega) hparse
  have hpeek : after.peek = .endOfInput ∧ made = node := by
    dsimp only at hend
    split at hend
    · rename_i hpeek
      exact ⟨hpeek, Except.ok.inj hend⟩
    · cases hend
  obtain ⟨hpeek, rfl⟩ := hpeek
  have hlast : after.tokens = [.endOfInput] := by
    cases hafter : after.tokens with
    | nil =>
      rw [hafter, append_nil] at hread
      exact absurd (by rw [← hread]; simp) hderives.endOfInput_notMem
    | cons first rest =>
      have hfirst : first = .endOfInput := by
        rw [Cursor.peek, hafter] at hpeek
        exact hpeek
      rw [hafter, hfirst] at hread
      -- another token after the end would put it among the tokens
      rcases eq_nil_or_concat rest with rfl | ⟨others, last, rfl⟩
      · rw [hfirst]
      · rw [concat_eq_append, ← cons_append, ← append_assoc] at hread
        have hinit := (append_inj' hread rfl).1
        exact absurd (by rw [hinit]; simp) htokens
  rw [hlast] at hread
  rw [(append_inj' hread rfl).1]
  exact hderives

theorem Derives.array_tokens {depth level : Nat} (h : Derives depth level tokens (.array items)) :
    (∃ rest, tokens = .leftParen :: rest) ∨ ∃ init, tokens = init ++ [.rightBracket] := by
  generalize hnode : Node.array items = node at h
  induction h with
  | leaf hleaf => cases hleaf <;> cases hnode
  | unary operator hvalue ih => cases hnode
  | paren hinner ih => exact .inl ⟨_, rfl⟩
  | array parts hdepth hparts ih => exact .inr ⟨_, (cons_append).symm⟩
  | call name parts hdepth hparts ih => cases hnode
  | binary operator hleft hright ihleft ihright => cases hnode
  | tighter hlevel hinner ih => exact ih hnode

end Reading

end Qcg.Expr
