import MessageCatalog.Plural.Expr

/-!
# Tokens of plural expressions

What a plural expression is written with: the count, numbers, parentheses, the
two marks of a choice, and operators. The end of the expression is no token: it
is where the tokens end.

* `Token.name`: what an error message calls a token;
* `Token.binary?`, `Token.unary?`: the operator that a token stands for between
  operands, and in front of one.
-/

namespace MessageCatalog.Plural

/-- A token of a plural expression. -/
inductive Token where
  /-- The count, `n`. -/
  | count
  /-- A number. -/
  | number (value : Int64)
  /-- `(` -/
  | leftParen
  /-- `)` -/
  | rightParen
  /-- `?` -/
  | question
  /-- `:` -/
  | colon
  /-- `+` -/
  | plus
  /-- `-` -/
  | minus
  /-- `*` -/
  | star
  /-- `/` -/
  | slash
  /-- `%` -/
  | percent
  /-- `!` -/
  | bang
  /-- `==` -/
  | equal
  /-- `!=` -/
  | notEqual
  /-- `<` -/
  | less
  /-- `<=` -/
  | lessEqual
  /-- `>` -/
  | greater
  /-- `>=` -/
  | greaterEqual
  /-- `&&` -/
  | and
  /-- `||` -/
  | or
  deriving DecidableEq, Repr

namespace Token

/-- What an error message calls a token. -/
def name : Token → String
  | count => "N"
  | number v => s!"Number({v.toInt})"
  | leftParen => "LParen"
  | rightParen => "RParen"
  | question => "Question"
  | colon => "Colon"
  | plus => "Plus"
  | minus => "Minus"
  | star => "Star"
  | slash => "Slash"
  | percent => "Percent"
  | bang => "Not"
  | equal => "Eq"
  | notEqual => "Ne"
  | less => "Lt"
  | lessEqual => "Le"
  | greater => "Gt"
  | greaterEqual => "Ge"
  | and => "And"
  | or => "Or"

/-- The operator that a token stands for between two operands. -/
def binary? : Token → Option BinaryOp
  | plus => some .add
  | minus => some .sub
  | star => some .mul
  | slash => some .div
  | percent => some .mod
  | equal => some .eq
  | notEqual => some .ne
  | less => some .lt
  | lessEqual => some .le
  | greater => some .gt
  | greaterEqual => some .ge
  | and => some .and
  | or => some .or
  | _ => none

/-- The operator that a token stands for in front of an operand. -/
def unary? : Token → Option UnaryOp
  | bang => some .not
  | minus => some .neg
  | _ => none

end Token

end MessageCatalog.Plural
