import MessageCatalog.Plural.Scan

/-!
# Reading plural expressions

The grammar, from the loosest to the tightest binding: the choice `c ? t : f`,
which groups to the right; the six tiers of operators between operands
(`tiers`), which group to the left; the operators in front of an operand; and
the count, numbers and parenthesised expressions.

A parser is a function from the tokens ahead to a tree and the tokens left, of
which there are fewer (`Parsed.shorter`): that is why the chains of operators
end. What bounds the depth is `room`, the number of levels that may still be
opened: parentheses, the branches of a choice and operators in front of an
operand each open one, and without room the expression is too deep. The parsers
of a level are made from those one level further in (`level`).

The tokens are those before the first fault of a scan. Going past a token means
that the next one has to be there: with nothing left but a fault, it is raised
(`goOn`). So of two faults the one met first is reported, in reading order with
one token of lookahead.

* `Expr.parse`: the expression that a text denotes.
-/

namespace MessageCatalog.Plural

/-- What a parser makes of the tokens `tokens`. -/
structure Parsed (tokens : List Token) where
  /-- The tree read. -/
  expr : Expr
  /-- The tokens left. -/
  rest : List Token
  /-- At least one token was read. -/
  shorter : rest.length < tokens.length

/-- A parser reads an expression from the tokens ahead. -/
abbrev Parser := (tokens : List Token) → Except ExprError (Parsed tokens)

/-- The operators between operands, from the loosest to the tightest binding. -/
def tiers : List (List BinaryOp) :=
  [[.or], [.and], [.eq, .ne], [.lt, .le, .gt, .ge], [.add, .sub], [.mul, .div, .mod]]

variable (fault : Option ExprError)

/-- Goes on to the tokens `rest`: if there are none left, nothing may be wrong
    with what follows them. -/
def goOn (rest : List Token) : Except ExprError Unit :=
  match rest, fault with
  | [], some e => .error e
  | _, _ => .ok ()

/-- Goes past the token `token`, which has to be the next one. -/
def expect (token : Token) (tokens : List Token) :
    Except ExprError { rest : List Token // rest.length < tokens.length } :=
  match tokens with
  | [] => .error .unexpectedEnd
  | t :: rest =>
    if t = token then do
      goOn fault rest
      return ⟨rest, Nat.lt_succ_self _⟩
    else .error (.missing token)

/-- Continues the expression `left` with operands joined by operators among
    `ops`, grouping to the left. -/
def chainFrom (operand : Parser) (ops : List BinaryOp) (left : Expr) (tokens : List Token) :
    Except ExprError (Expr × { rest : List Token // rest.length ≤ tokens.length }) :=
  match tokens with
  | [] => .ok (left, ⟨[], Nat.le_refl _⟩)
  | t :: rest =>
    match t.binary?.filter (· ∈ ops) with
    | none => .ok (left, ⟨t :: rest, Nat.le_refl _⟩)
    | some op => do
      goOn fault rest
      let right ← operand rest
      have hlt : right.rest.length < (t :: rest).length :=
        Nat.lt_succ_of_lt right.shorter
      let (expr, after) ← chainFrom operand ops (.binary op left right.expr) right.rest
      return (expr, ⟨after.1, Nat.le_trans after.2 (Nat.le_of_lt hlt)⟩)
termination_by tokens.length
decreasing_by exact hlt

/-- Operands joined by the operators of the given tiers. -/
def chain (operand : Parser) : List (List BinaryOp) → Parser
  | [] => operand
  | ops :: tighter => fun tokens => do
    let first ← chain operand tighter tokens
    let (expr, rest) ← chainFrom fault (chain operand tighter) ops first.expr first.rest
    return ⟨expr, rest.1, Nat.lt_of_le_of_lt rest.2 first.shorter⟩

/-- An expression: a chain of operands, or a choice whose condition is one and
    whose branches are read by `branch`. -/
def conditional (operand branch : Parser) : Parser := fun tokens => do
  let condition ← chain fault operand tiers tokens
  match h : condition.rest with
  | .question :: rest =>
    goOn fault rest
    let yes ← branch rest
    let after ← expect fault .colon yes.rest
    let no ← branch after.1
    return ⟨.choice condition.expr yes.expr no.expr, no.rest, by
      have h₁ := condition.shorter
      have h₂ := yes.shorter
      have h₃ := after.2
      have h₄ := no.shorter
      rw [h, List.length_cons] at h₁
      omega⟩
  | _ => return condition

/-- An operand: the count, a number, an expression in parentheses, which is read
    by `group`, or an operator in front of an operand, which is read by
    `deeper` if there is room for it. -/
def operand (group : Parser) (deeper : Option Parser) : Parser := fun tokens =>
  match tokens with
  | [] => .error .unexpectedEnd
  | .count :: rest => do
    goOn fault rest
    return ⟨.count, rest, Nat.lt_succ_self _⟩
  | .number v :: rest => do
    goOn fault rest
    return ⟨.literal v, rest, Nat.lt_succ_self _⟩
  | .leftParen :: rest => do
    -- The parenthesis is passed before the level is opened, so a fault behind it
    -- comes before one of depth.
    goOn fault rest
    let inner ← group rest
    let after ← expect fault .rightParen inner.rest
    return ⟨inner.expr, after.1, by
      have h₁ := inner.shorter
      have h₂ := after.2
      rw [List.length_cons]
      omega⟩
  | t :: rest =>
    match t.unary?, deeper with
    | none, _ => .error .missingOperand
    -- An operator opens its level before it is passed: the other way round.
    | some _, none => .error .tooDeep
    | some op, some deeper => do
      goOn fault rest
      let inner ← deeper rest
      return ⟨.unary op inner.expr, inner.rest, Nat.lt_succ_of_lt inner.shorter⟩

/-- The parsers of one level of nesting. -/
structure Level where
  /-- Reads what may open a level: the content of parentheses, a branch of a
      choice, a whole expression. -/
  expression : Parser
  /-- Reads an operand on this level. -/
  operand : Parser

/-- The level in which `room` more levels may be opened. -/
def level : (room : Nat) → Level
  | 0 =>
    let expression : Parser := fun _ => .error .tooDeep
    { expression, operand := operand fault expression none }
  | room + 1 =>
    let inner := level room
    let expression := conditional fault inner.operand inner.expression
    { expression, operand := operand fault expression (some inner.operand) }

/-- The expression that consists of all the tokens of a scan. -/
def Scan.parse (scan : Scan) : Except ExprError Expr := do
  goOn scan.fault scan.tokens
  let parsed ← (level scan.fault maxDepth).expression scan.tokens
  match parsed.rest with
  | [] => return parsed.expr
  | t :: _ => throw (.trailing t)

/-- The expression that a text denotes. -/
def Expr.parse (text : String) : Except ExprError Expr :=
  if maxLength < text.utf8ByteSize then .error .tooLong
  else (Scan.ofText text.toList).parse

end MessageCatalog.Plural
