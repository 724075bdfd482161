import Qcg.Contract.ExprLexer

/-!
# The parser of the expression language

The recursion of `parse_expression_at` is on the depth that is left: the source counts `depth` up
from zero and refuses above its limit, here the budget is counted down. The two loops take the
number of tokens left as their fuel; each turn reads one.
-/

namespace Qcg.Expr

inductive UnaryOperator where
  | not | neg
  deriving DecidableEq, Repr

inductive Node where
  | literal (value : Value)
  | path (name : String)
  | array (items : List Node)
  | unary (operator : UnaryOperator) (value : Node)
  | binary (operator : BinaryOperator) (left right : Node)
  | call (name : String) (arguments : List Node)

structure Limits where
  depth : Nat
  nodes : Nat

/-- `MAX_EXPRESSION_DEPTH` and `MAX_EXPRESSION_NODES`. -/
def expressionLimits : Limits where
  depth := 128
  nodes := 2048

structure Cursor where
  tokens : List Token
  nodes : Nat

namespace Cursor

def peek (cursor : Cursor) : Token :=
  cursor.tokens.head?.getD .endOfInput

def advance (cursor : Cursor) : Cursor :=
  { cursor with tokens := cursor.tokens.tail }

end Cursor

def BinaryOperator.level : BinaryOperator → Nat
  | .or => 0
  | .and => 1
  | .eq | .ne => 2
  | .gt | .lt | .ge | .le => 3
  | .add | .sub => 4
  | .mul | .div | .rem => 5

def infixBindingPower : Operator → Option (BinaryOperator × Nat × Nat)
  | .binary .or => some (.or, 1, 2)
  | .binary .and => some (.and, 3, 4)
  | .binary .eq => some (.eq, 5, 6)
  | .binary .ne => some (.ne, 5, 6)
  | .binary .gt => some (.gt, 7, 8)
  | .binary .lt => some (.lt, 7, 8)
  | .binary .ge => some (.ge, 7, 8)
  | .binary .le => some (.le, 7, 8)
  | .binary .add => some (.add, 9, 10)
  | .binary .sub => some (.sub, 9, 10)
  | .binary .mul => some (.mul, 11, 12)
  | .binary .div => some (.div, 11, 12)
  | .binary .rem => some (.rem, 11, 12)
  | .not => none

theorem infixBindingPower_binary (operator : BinaryOperator) :
    infixBindingPower (.binary operator) =
      some (operator, 2 * operator.level + 1, 2 * operator.level + 2) := by
  cases operator <;> rfl

/-- Which bracket ends a list of items. -/
inductive Closing where
  | paren | bracket
  deriving DecidableEq

def Closing.token : Closing → Token
  | .paren => .rightParen
  | .bracket => .rightBracket

def Closing.isClosedBy : Closing → Token → Bool
  | .paren, .rightParen => true
  | .bracket, .rightBracket => true
  | _, _ => false

def Closing.expected : Closing → String
  | .paren => "expected `,` or `)`, found "
  | .bracket => "expected `,` or `]`, found "

def isPath (name : String) : Bool :=
  "inputs.".toList.isPrefixOf name.toList || stepsDot.isPrefixOf name.toList ||
    name == "item" || "item.".toList.isPrefixOf name.toList

/-- The parts of `split('.')`. -/
def segments (name : String) : Nat :=
  name.toList.count '.' + 1

section Parser

variable (limits : Limits)

def reserveNode (cursor : Cursor) : Except ExprError Cursor :=
  if cursor.nodes ≥ limits.nodes then .error (.tooManyNodes limits.nodes)
  else .ok { cursor with nodes := cursor.nodes + 1 }

def finish (node : Node) (cursor : Cursor) : Except ExprError (Node × Cursor) := do
  let cursor ← reserveNode limits cursor
  .ok (node, cursor)

/-- The loop of `parse_expression_at` over the operators after the first operand. -/
def infixLoop (parseRight : Nat → Cursor → Except ExprError (Node × Cursor))
    (minBindingPower : Nat) :
    (fuel : Nat) → Node → Cursor → Except ExprError (Node × Cursor)
  | 0, left, cursor => .ok (left, cursor)
  | fuel + 1, left, cursor =>
    match cursor.peek with
    | .operator operator =>
      match infixBindingPower operator with
      | none => .ok (left, cursor)
      | some (binary, leftPower, rightPower) =>
        if leftPower < minBindingPower then .ok (left, cursor)
        else do
          let (right, cursor) ← parseRight rightPower cursor.advance
          let cursor ← reserveNode limits cursor
          infixLoop parseRight minBindingPower fuel (.binary binary left right) cursor
    | _ => .ok (left, cursor)

/-- The loop over the items of an array or the arguments of a call. -/
def itemsLoop (parseItem : Cursor → Except ExprError (Node × Cursor)) (closing : Closing) :
    (fuel : Nat) → List Node → Cursor → Except ExprError (List Node × Cursor)
  | 0, _, cursor => .error (.syntaxError "expected expression, found " cursor.peek)
  | fuel + 1, items, cursor => do
    let (item, cursor) ← parseItem cursor
    match cursor.peek with
    | .comma => itemsLoop parseItem closing fuel (items ++ [item]) cursor.advance
    | token =>
      if closing.isClosedBy token then .ok (items ++ [item], cursor.advance)
      else .error (.syntaxError closing.expected token)

/-- A bracketed list from its first item on. -/
def parseList (parseItem : Cursor → Except ExprError (Node × Cursor)) (closing : Closing)
    (build : List Node → Node) (cursor : Cursor) : Except ExprError (Node × Cursor) :=
  if closing.isClosedBy cursor.peek then finish limits (build []) cursor.advance
  else do
    let (items, cursor) ← itemsLoop parseItem closing cursor.tokens.length [] cursor
    finish limits (build items) cursor

/-- `parse_prefix`; the two parsers are for what lies one level deeper. -/
def parsePrefix (parseInner : Nat → Cursor → Except ExprError (Node × Cursor))
    (parseCall : String → Cursor → Except ExprError (Node × Cursor)) (cursor : Cursor) :
    Except ExprError (Node × Cursor) :=
  let after := cursor.advance
  match cursor.peek with
  | .bool b => finish limits (.literal (.bool b)) after
  | .null => finish limits (.literal .null) after
  | .string s => finish limits (.literal (.string s)) after
  | .number n => finish limits (.literal (.number n)) after
  | .identifier name =>
    match after.peek with
    | .leftParen => parseCall name after.advance
    | _ =>
      if isPath name then
        if segments name > limits.depth then .error (.tooDeep limits.depth)
        else finish limits (.path name) after
      else .error (.syntaxError ("unsupported literal `" ++ name ++ "`") none)
  | .operator .not => do
    let (value, cursor) ← parseInner 13 after
    finish limits (.unary .not value) cursor
  | .operator (.binary .sub) => do
    let (value, cursor) ← parseInner 13 after
    finish limits (.unary .neg value) cursor
  | .leftParen => do
    let (expression, cursor) ← parseInner 0 after
    match cursor.peek with
    | .rightParen => .ok (expression, cursor.advance)
    | token => .error (.syntaxError "expected `)`, found " token)
  | .leftBracket => parseList limits (parseInner 0) .bracket .array after
  | token => .error (.syntaxError "expected expression, found " token)

def parseExpressionAt : (budget minBindingPower : Nat) → Cursor →
    Except ExprError (Node × Cursor)
  | 0, _, _ => .error (.tooDeep limits.depth)
  | budget + 1, minBindingPower, cursor => do
    let (left, cursor) ← parsePrefix limits (parseExpressionAt budget)
      (match budget with
        | 0 => fun _ _ => .error (.tooDeep limits.depth)
        | deeper + 1 => fun name =>
          parseList limits (parseExpressionAt deeper 0) .paren (.call name))
      cursor
    infixLoop limits (parseExpressionAt budget) minBindingPower cursor.tokens.length left cursor

/-- `parse_expression(0)` and `expect_end`. -/
def parseTokens (tokens : List Token) : Except ExprError Node := do
  let (node, cursor) ← parseExpressionAt limits (limits.depth + 1) 0 ⟨tokens, 0⟩
  match cursor.peek with
  | .endOfInput => .ok node
  | token => .error (.syntaxError "unexpected trailing token " token)

end Parser

/-- The tree of a source, as every evaluation reads it. -/
def parse (reader : NumberReader) (source : String) : Except ExprError Node := do
  let tokens ← tokenize reader source
  parseTokens expressionLimits tokens

end Qcg.Expr
