import MessageCatalog.Plural.Token

/-!
# Faults of plural expressions and of `Plural-Forms` headers

Each type lists causes; `message` words them. A header has the faults of its
own form, and those of the expression it contains.
-/

namespace MessageCatalog.Plural

/-- The deepest nesting of parentheses, choices and prefixed operators. -/
def maxDepth : Nat := 64

/-- The greatest length of an expression, in bytes. -/
def maxLength : Nat := 1024

/-- Why a text is no plural expression. -/
inductive ExprError where
  /-- No token can start with, or be followed by, this character. -/
  | unexpectedChar (c : Char)
  /-- This character stands alone where it has to be doubled. -/
  | single (c : Char)
  /-- A number that 63 bits cannot hold. -/
  | literalOverflow
  /-- The expression ends where it has to go on. -/
  | unexpectedEnd
  /-- Another token stands where this one has to. -/
  | missing (token : Token)
  /-- A token stands where an operand has to. -/
  | missingOperand
  /-- This token follows a complete expression. -/
  | trailing (token : Token)
  /-- The expression is nested deeper than `maxDepth`. -/
  | tooDeep
  /-- The expression is longer than `maxLength` bytes. -/
  | tooLong
  deriving DecidableEq, Repr

/-- Why a text is no `Plural-Forms` header. -/
inductive HeaderError where
  /-- This part has no `=`. -/
  | noEquals (part : String)
  /-- The number of forms is no number. -/
  | invalidCount (value : String)
  /-- The selecting expression is at fault. -/
  | expression (error : ExprError)
  /-- The number of forms is zero. -/
  | noForms
  /-- The number of forms is not given. -/
  | countMissing
  /-- The selecting expression is not given. -/
  | expressionMissing
  deriving DecidableEq, Repr

/-- The wording of a fault in an expression. -/
def ExprError.message : ExprError → String
  | unexpectedChar c => s!"unexpected character: '{c}'"
  | single c => s!"expected '{c}' after '{c}'"
  | literalOverflow => "numeric literal out of range"
  | unexpectedEnd => "unexpected end of input"
  | missing token => s!"expected {token.name}"
  | missingOperand => "expected n, number, or '('"
  | trailing token => s!"expected end of expression, found {token.name}"
  | tooDeep => s!"expression nested deeper than {maxDepth} levels"
  | tooLong => s!"expression longer than {maxLength} bytes"

/-- The wording of a fault in the form of a header. -/
def malformed (fault : String) : String :=
  s!"malformed Plural-Forms header: {fault}"

/-- The wording of a fault in a header. -/
def HeaderError.message : HeaderError → String
  | noEquals part => malformed s!"missing '=' in \"{part}\""
  | invalidCount value => malformed s!"invalid nplurals \"{value}\""
  | expression e => e.message
  | noForms => malformed "nplurals must be at least 1"
  | countMissing => malformed "nplurals is missing"
  | expressionMissing => malformed "plural is missing"

end MessageCatalog.Plural
