import MessageCatalog.Plural.Expr

/-!
# Arithmetic of expressions

Evaluation computes over the integers and reduces each result to 64 bits. Division is the one
operator that need not: of all quotients of 64-bit integers only that of the least integer and
`-1` has more bits, and it is taken for a division without a result, which gives zero. So there
are two readings of an expression, which differ in the rule for quotients alone. The first is
what evaluation computes for every expression and count. The second, in which this quotient wraps
around like a sum or a product, is what it computes wherever it does not make this division.

* `wrapped`: the 64-bit integer that an integer is reduced to;
* `Expr.value`: the value of an expression over the integers, given a rule for quotients;
* `checkedQuotient`, `wrappingQuotient`: the two rules;
* `Expr.divisions`: the divisions that evaluation makes. Operands that it does not need are left
  out (`BinaryOp.value_of_isDecided`);
* `Expr.toInt_eval_of_divisions`: evaluation follows every rule that its divisions follow;
* `Expr.toInt_eval`: evaluation under the two rules.
-/

namespace MessageCatalog.Plural

/-! ### Values over the integers -/

/-- The 64-bit two's complement integer that an integer is reduced to. -/
def wrapped (x : Int) : Int :=
  x.bmod Int64.size

/-- The value of an operator on one operand. -/
def UnaryOp.value : UnaryOp → Int → Int
  | not, a => if a = 0 then 1 else 0
  | neg, a => wrapped (-a)

/-- The value of an operator on two operands, with a rule for quotients. -/
def BinaryOp.value (divide : Int → Int → Int) : BinaryOp → Int → Int → Int
  | add, a, b => wrapped (a + b)
  | sub, a, b => wrapped (a - b)
  | mul, a, b => wrapped (a * b)
  | div, a, b => divide a b
  | mod, a, b => if b = 0 then 0 else wrapped (a.tmod b)
  | eq, a, b => if a = b then 1 else 0
  | ne, a, b => if a ≠ b then 1 else 0
  | lt, a, b => if a < b then 1 else 0
  | le, a, b => if a ≤ b then 1 else 0
  | gt, a, b => if a > b then 1 else 0
  | ge, a, b => if a ≥ b then 1 else 0
  | and, a, b => if a ≠ 0 ∧ b ≠ 0 then 1 else 0
  | or, a, b => if a ≠ 0 ∨ b ≠ 0 then 1 else 0

/-- The value of an expression for the count `n`, with a rule for quotients. -/
def Expr.value (divide : Int → Int → Int) (n : Int) : Expr → Int
  | count => n
  | literal v => v.toInt
  | unary op e => op.value (e.value divide n)
  | binary op l r => op.value divide (l.value divide n) (r.value divide n)
  | choice c t f => if c.value divide n ≠ 0 then t.value divide n else f.value divide n

/-- The quotient rounded toward zero and reduced to 64 bits, or zero if the divisor is zero. -/
def wrappingQuotient (a b : Int) : Int :=
  if b = 0 then 0 else wrapped (a.tdiv b)

/-- The quotient rounded toward zero, or zero if the divisor is zero or the quotient is no 64-bit
    integer. -/
def checkedQuotient (a b : Int) : Int :=
  if b = 0 ∨ wrapped (a.tdiv b) ≠ a.tdiv b then 0 else a.tdiv b

/-! ### Operators -/

/-- A 64-bit integer is not changed. -/
theorem wrapped_toInt (a : Int64) : wrapped a.toInt = a.toInt :=
  Int.bmod_eq_of_le a.le_toInt a.toInt_lt

theorem toInt_truth (b : Bool) : (truth b).toInt = if b then 1 else 0 := by
  cases b <;> rfl

theorem toInt_eq_zero_iff {a : Int64} : a.toInt = 0 ↔ a = 0 := by
  rw [← Int64.toInt_inj]
  rfl

theorem undivided_iff {a b : Int64} :
    undivided a b = true ↔ b = 0 ∨ a = Int64.minValue ∧ b = -1 := by
  simp [undivided]

theorem toInt_quotient_eq_checked (a b : Int64) :
    (quotient a b).toInt = checkedQuotient a.toInt b.toInt := by
  by_cases hdivided : undivided a b = true
  · have hzero : quotient a b = 0 := if_pos hdivided
    rcases undivided_iff.1 hdivided with rfl | ⟨rfl, rfl⟩
    · rw [hzero]
      rfl
    · rfl
  · have hb : b.toInt ≠ 0 := fun hb => hdivided (undivided_iff.2 (.inl (toInt_eq_zero_iff.1 hb)))
    have hquotient := toInt_quotient (Bool.eq_false_iff.2 hdivided)
    have hwrapped := wrapped_toInt (quotient a b)
    rw [hquotient] at hwrapped
    rw [hquotient, checkedQuotient, if_neg (not_or.2 ⟨hb, not_not_intro hwrapped⟩)]

/-- All quotients but one follow the rule that lets them wrap around. -/
theorem toInt_quotient_eq_wrapping {a b : Int64} (h : (a, b) ≠ (Int64.minValue, -1)) :
    (quotient a b).toInt = wrappingQuotient a.toInt b.toInt := by
  rw [wrappingQuotient]
  split
  case isTrue hb =>
    rw [toInt_eq_zero_iff] at hb
    have hzero : quotient a b = 0 := if_pos (undivided_iff.2 (.inl hb))
    rw [hzero]
    rfl
  case isFalse hb =>
    have hdivided : undivided a b = false := by
      rw [Bool.eq_false_iff, ne_eq, undivided_iff, ← toInt_eq_zero_iff]
      exact not_or.2 ⟨hb, fun hleast => h (Prod.ext hleast.1 hleast.2)⟩
    rw [← toInt_quotient hdivided, wrapped_toInt]

/-- The remainder never has more than 64 bits: that of the least integer and `-1` is zero. -/
theorem toInt_remainder_eq (a b : Int64) : (remainder a b).toInt =
    if b.toInt = 0 then 0 else wrapped (a.toInt.tmod b.toInt) := by
  by_cases hdivided : undivided a b = true
  · have hzero : remainder a b = 0 := if_pos hdivided
    rcases undivided_iff.1 hdivided with rfl | ⟨rfl, rfl⟩
    · rw [hzero]
      rfl
    · rfl
  · have hb : b.toInt ≠ 0 := fun hb => hdivided (undivided_iff.2 (.inl (toInt_eq_zero_iff.1 hb)))
    rw [if_neg hb, ← toInt_remainder (Bool.eq_false_iff.2 hdivided), wrapped_toInt]

theorem UnaryOp.toInt_apply (op : UnaryOp) (a : Int64) :
    (op.apply a).toInt = op.value a.toInt := by
  cases op with
  | not => simp [UnaryOp.apply, UnaryOp.value, toInt_truth, toInt_eq_zero_iff]
  | neg => exact Int64.toInt_neg a

/-- An operator computes its value over the integers, if its quotient follows the rule. -/
theorem BinaryOp.toInt_apply (divide : Int → Int → Int) (op : BinaryOp) {a b : Int64}
    (h : op = .div → (quotient a b).toInt = divide a.toInt b.toInt) :
    (op.apply a b).toInt = op.value divide a.toInt b.toInt := by
  cases op with
  | add => exact Int64.toInt_add a b
  | sub => exact Int64.toInt_sub a b
  | mul => exact Int64.toInt_mul a b
  | div => exact h rfl
  | mod => exact toInt_remainder_eq a b
  | eq => simp [apply, value, toInt_truth, Int64.toInt_inj]
  | ne => simp [apply, value, toInt_truth, Int64.toInt_inj]
  | lt => simp [apply, value, toInt_truth, Int64.lt_iff_toInt_lt]
  | le => simp [apply, value, toInt_truth, Int64.le_iff_toInt_le]
  | gt => simp [apply, value, toInt_truth, Int64.lt_iff_toInt_lt]
  | ge => simp [apply, value, toInt_truth, Int64.le_iff_toInt_le]
  | and => simp [apply, value, toInt_truth, toInt_eq_zero_iff]
  | or => simp [apply, value, toInt_truth, toInt_eq_zero_iff]

/-! ### Expressions -/

/-- Whether the left operand alone decides the value, so that the right one is not evaluated. -/
def BinaryOp.IsDecided (a : Int64) : BinaryOp → Prop
  | and => a = 0
  | or => a ≠ 0
  | _ => False

instance (a : Int64) : DecidablePred (BinaryOp.IsDecided a) := fun op => by
  cases op <;> unfold BinaryOp.IsDecided <;> infer_instance

/-- Where the left operand decides, any right operand gives the value. -/
theorem BinaryOp.value_of_isDecided {divide : Int → Int → Int} {op : BinaryOp} {a : Int64}
    (h : op.IsDecided a) (b b' : Int) :
    op.value divide a.toInt b = op.value divide a.toInt b' := by
  cases op with
  | and =>
    have ha : a.toInt = 0 := toInt_eq_zero_iff.2 h
    simp [value, ha]
  | or =>
    have ha : a.toInt ≠ 0 := fun ha => h (toInt_eq_zero_iff.1 ha)
    simp [value, ha]
  | _ => exact h.elim

namespace Expr

/-- The divisions that are made to evaluate an expression, each as its dividend and its divisor. -/
def divisions (n : Int64) : Expr → List (Int64 × Int64)
  | count => []
  | literal _ => []
  | unary _ e => e.divisions n
  | binary op l r =>
    l.divisions n ++ (if op.IsDecided (l.eval n) then [] else r.divisions n) ++
      if op = .div then [(l.eval n, r.eval n)] else []
  | choice c t f => c.divisions n ++ if c.eval n ≠ 0 then t.divisions n else f.divisions n

/-- Evaluation follows every rule for quotients that the divisions follow which it makes. -/
theorem toInt_eval_of_divisions {divide : Int → Int → Int} {e : Expr} {n : Int64}
    (h : ∀ p ∈ e.divisions n, (quotient p.1 p.2).toInt = divide p.1.toInt p.2.toInt) :
    (e.eval n).toInt = e.value divide n.toInt := by
  induction e with
  | count => rfl
  | literal v => rfl
  | unary op e ih => rw [eval, op.toInt_apply, ih h, value]
  | binary op l r ihl ihr =>
    simp only [divisions, List.forall_mem_append] at h
    obtain ⟨⟨hl, hr⟩, hdiv⟩ := h
    have hop : op = .div →
        (quotient (l.eval n) (r.eval n)).toInt = divide (l.eval n).toInt (r.eval n).toInt := by
      intro hop
      rw [if_pos hop] at hdiv
      exact hdiv (l.eval n, r.eval n) List.mem_cons_self
    rw [eval, op.toInt_apply divide hop, value, ← ihl hl]
    by_cases hdecided : op.IsDecided (l.eval n)
    · exact BinaryOp.value_of_isDecided hdecided ..
    · rw [if_neg hdecided] at hr
      rw [ihr hr]
  | choice c t f ihc iht ihf =>
    simp only [divisions, List.forall_mem_append] at h
    obtain ⟨hc, hbranch⟩ := h
    rw [eval, value, ← ihc hc]
    by_cases hzero : c.eval n = 0
    · rw [if_neg (not_not_intro hzero)] at hbranch
      rw [if_neg (by simp [hzero]), if_neg (not_not_intro (toInt_eq_zero_iff.2 hzero)), ihf hbranch]
    · rw [if_pos hzero] at hbranch
      rw [if_pos (by simp [hzero]), if_pos (mt toInt_eq_zero_iff.1 hzero), iht hbranch]

/-- For every expression and count, evaluation computes the value over the integers with every
    result reduced to 64 bits, except that a quotient of more bits is zero; and with no exception
    where it does not divide the least integer by `-1`. -/
theorem toInt_eval (e : Expr) (n : Int64) :
    (e.eval n).toInt = e.value checkedQuotient n.toInt ∧
      ((Int64.minValue, -1) ∉ e.divisions n →
        (e.eval n).toInt = e.value wrappingQuotient n.toInt) := by
  refine ⟨toInt_eval_of_divisions fun p _ => toInt_quotient_eq_checked p.1 p.2, fun h => ?_⟩
  refine toInt_eval_of_divisions fun p hp => toInt_quotient_eq_wrapping fun hleast => h ?_
  rwa [← hleast]

/-- The count with the opposite sign, by a division: `n / -1`. -/
def opposite : Expr :=
  .binary .div .count (.unary .neg (.literal 1))

/-- For the count `5` both rules are followed, as the least integer is not divided. -/
theorem toInt_eval_opposite :
    (Int64.minValue, -1) ∉ opposite.divisions 5 ∧
      (opposite.eval 5).toInt = opposite.value checkedQuotient 5 ∧
      (opposite.eval 5).toInt = opposite.value wrappingQuotient 5 := by
  have hdivisions : (Int64.minValue, -1) ∉ opposite.divisions 5 := by decide
  obtain ⟨hchecked, hwrapping⟩ := toInt_eval opposite 5
  exact ⟨hdivisions, hchecked, hwrapping hdivisions⟩

/-- By a division, the opposite of the least integer is zero. Wrapping around it would be the
    least integer again, as it is by the operator for the opposite sign. -/
theorem eval_opposite_least :
    opposite.eval Int64.minValue = 0 ∧
      opposite.value wrappingQuotient Int64.minValue.toInt = Int64.minValue.toInt ∧
      (Expr.unary .neg .count).eval Int64.minValue = Int64.minValue := by
  decide

end Expr

end MessageCatalog.Plural
