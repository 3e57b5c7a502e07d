/-!
# Plural expressions

The expression of a `Plural-Forms` header computes, from a count `n`, the index
of the plural form to use. Its only variable is the count, and it is evaluated
on 64-bit two's complement integers: no expression fails to have a value.

* `Expr.eval`: the value of an expression for a count;
* `quotient`, `remainder`: division toward zero (`toInt_quotient`,
  `toInt_remainder`), where a division that has no 64-bit result gives zero;
* `BinaryOp.spelling`, `UnaryOp.spelling`: how the operators are written.
-/

namespace MessageCatalog.Plural

/-- The operators on one operand. -/
inductive UnaryOp where
  /-- Whether the operand is zero. -/
  | not
  /-- The operand with the opposite sign. -/
  | neg
  deriving DecidableEq, Repr

/-- The operators on two operands. -/
inductive BinaryOp where
  | add
  | sub
  | mul
  | div
  | mod
  | eq
  | ne
  | lt
  | le
  | gt
  | ge
  | and
  | or
  deriving DecidableEq, Repr

/-- An expression over the count. -/
inductive Expr where
  /-- The count `n`. -/
  | count
  /-- A number. -/
  | literal (value : Int64)
  /-- An operator applied to an operand. -/
  | unary (op : UnaryOp) (operand : Expr)
  /-- An operator between two operands. -/
  | binary (op : BinaryOp) (left right : Expr)
  /-- The choice `condition ? yes : no`. -/
  | choice (condition yes no : Expr)
  deriving DecidableEq, Repr

/-- How an operator on one operand is written. -/
def UnaryOp.spelling : UnaryOp → String
  | not => "!"
  | neg => "-"

/-- How an operator on two operands is written. -/
def BinaryOp.spelling : BinaryOp → String
  | add => "+"
  | sub => "-"
  | mul => "*"
  | div => "/"
  | mod => "%"
  | eq => "=="
  | ne => "!="
  | lt => "<"
  | le => "<="
  | gt => ">"
  | ge => ">="
  | and => "&&"
  | or => "||"

/-- The number for a truth value: one or zero. -/
def truth (b : Bool) : Int64 :=
  if b then 1 else 0

/-- Whether a division has no 64-bit result: the divisor is zero, or the least
    integer is divided by `-1`. -/
def undivided (a b : Int64) : Bool :=
  b == 0 || (a == Int64.minValue && b == -1)

/-- The quotient rounded toward zero, or zero where there is none. -/
def quotient (a b : Int64) : Int64 :=
  if undivided a b then 0 else a / b

/-- The remainder of the rounded quotient, with the sign of the dividend, or
    zero where there is none. -/
def remainder (a b : Int64) : Int64 :=
  if undivided a b then 0 else a % b

/-- Where there is a quotient, it is that of the integers, rounded toward zero. -/
theorem toInt_quotient {a b : Int64} (h : undivided a b = false) :
    (quotient a b).toInt = a.toInt.tdiv b.toInt := by
  simp only [undivided, Bool.or_eq_false_iff, Bool.and_eq_false_iff, beq_eq_false_iff_ne] at h
  rw [quotient, undivided]
  rcases h with ⟨hb, ha | hb'⟩
  · simp [hb, ha, Int64.toInt_div_of_ne_left _ _ ha]
  · simp [hb, hb', Int64.toInt_div_of_ne_right _ _ hb']

/-- Where there is a quotient, the remainder is what it leaves of the dividend. -/
theorem toInt_remainder {a b : Int64} (h : undivided a b = false) :
    (remainder a b).toInt = a.toInt.tmod b.toInt := by
  rw [remainder, h, if_neg Bool.false_ne_true, Int64.toInt_mod]

/-- The value of an operator on one operand. -/
def UnaryOp.apply : UnaryOp → Int64 → Int64
  | not, a => truth (a == 0)
  | neg, a => -a

/-- The value of an operator on two operands; sums, differences and products
    wrap around. -/
def BinaryOp.apply : BinaryOp → Int64 → Int64 → Int64
  | add, a, b => a + b
  | sub, a, b => a - b
  | mul, a, b => a * b
  | div, a, b => quotient a b
  | mod, a, b => remainder a b
  | eq, a, b => truth (a == b)
  | ne, a, b => truth (a != b)
  | lt, a, b => truth (a < b)
  | le, a, b => truth (a ≤ b)
  | gt, a, b => truth (b < a)
  | ge, a, b => truth (b ≤ a)
  | and, a, b => truth (a != 0 && b != 0)
  | or, a, b => truth (a != 0 || b != 0)

namespace Expr

/-- The value of an expression for the count `n`. -/
def eval (n : Int64) : Expr → Int64
  | count => n
  | literal v => v
  | unary op e => op.apply (e.eval n)
  | binary op l r => op.apply (l.eval n) (r.eval n)
  | choice c t f => if c.eval n != 0 then t.eval n else f.eval n

/-- The number of nodes of an expression. -/
def size : Expr → Nat
  | count | literal _ => 1
  | unary _ e => e.size + 1
  | binary _ l r => l.size + r.size + 1
  | choice c t f => c.size + t.size + f.size + 1

end Expr

end MessageCatalog.Plural
