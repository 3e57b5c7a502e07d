import MessageCatalog.Plural.Parser

/-!
# The grammar of plural expressions

What tokens are an expression, of which tree, and how deep it is nested. A phrase
is an expression, a chain of operands at a tier of operators, an operand or a
primary; `Derives p d tokens e` says that the tokens are a phrase of the kind `p`
for the tree `e`, by a derivation `d` levels deep. Chains group to the left, so
the left operand of an operator is a chain of its own tier, and the right one of
the next tighter tier; choices group to the right. The outermost level is the
first one, and each pair of parentheses, each branch of a choice and each operator
in front of an operand opens another.

* `Derives`: the derivations;
* `Phrase.Ends`: what cannot go on with a phrase.
-/

namespace MessageCatalog.Plural

/-- The tier of an operator between operands, the loosest one first. -/
def BinaryOp.tier : BinaryOp → Nat
  | or => 0
  | and => 1
  | eq | ne => 2
  | lt | le | gt | ge => 3
  | add | sub => 4
  | mul | div | mod => 5

/-- The number of tiers. -/
def tierCount : Nat := 6

/-- The kinds of phrases. -/
inductive Phrase where
  /-- An expression, perhaps a choice. -/
  | expression
  /-- Operands joined by operators of a tier and of tighter ones. -/
  | chain (tier : Nat)
  /-- A primary, perhaps with operators in front of it. -/
  | operand
  /-- The count, a number, or an expression in parentheses. -/
  | primary

/-- The tokens that are a phrase for a tree, by a derivation of a depth. -/
inductive Derives : Phrase → Nat → List Token → Expr → Prop
  | plain {d : Nat} {tokens : List Token} {e : Expr} :
      Derives (.chain 0) d tokens e → Derives .expression d tokens e
  /-- The branches are one level deeper than the choice, the condition is not. -/
  | choice {d d₁ d₂ : Nat} {condition first second : List Token} {e e₁ e₂ : Expr} :
      Derives (.chain 0) d condition e → Derives .expression d₁ first e₁ →
      Derives .expression d₂ second e₂ →
      Derives .expression (max d (max (d₁ + 1) (d₂ + 1)))
        (condition ++ .question :: first ++ .colon :: second) (.choice e e₁ e₂)
  /-- A chain may lack operators of its tier. -/
  | tighter {tier d : Nat} {tokens : List Token} {e : Expr} : tier < tierCount →
      Derives (.chain (tier + 1)) d tokens e → Derives (.chain tier) d tokens e
  | binary {token : Token} {op : BinaryOp} {d₁ d₂ : Nat} {left right : List Token}
      {e₁ e₂ : Expr} : token.binary? = some op →
      Derives (.chain op.tier) d₁ left e₁ → Derives (.chain (op.tier + 1)) d₂ right e₂ →
      Derives (.chain op.tier) (max d₁ d₂) (left ++ token :: right) (.binary op e₁ e₂)
  /-- Behind the tightest tier come the operands. -/
  | single {d : Nat} {tokens : List Token} {e : Expr} :
      Derives .operand d tokens e → Derives (.chain tierCount) d tokens e
  | unary {token : Token} {op : UnaryOp} {d : Nat} {tokens : List Token} {e : Expr} :
      token.unary? = some op → Derives .operand d tokens e →
      Derives .operand (d + 1) (token :: tokens) (.unary op e)
  | bare {d : Nat} {tokens : List Token} {e : Expr} :
      Derives .primary d tokens e → Derives .operand d tokens e
  | count : Derives .primary 1 [.count] .count
  | number (v : Int64) : Derives .primary 1 [.number v] (.literal v)
  | group {d : Nat} {tokens : List Token} {e : Expr} : Derives .expression d tokens e →
      Derives .primary (d + 1) (.leftParen :: tokens ++ [.rightParen]) e

/-- Every phrase is on a level. -/
theorem Derives.pos {p : Phrase} {d : Nat} {tokens : List Token} {e : Expr}
    (h : Derives p d tokens e) : 0 < d := by
  induction h with
  | plain _ ih => exact ih
  | choice _ _ _ ih => exact Nat.lt_of_lt_of_le ih (Nat.le_max_left ..)
  | tighter _ _ ih => exact ih
  | binary _ _ _ ih => exact Nat.lt_of_lt_of_le ih (Nat.le_max_left ..)
  | single _ ih => exact ih
  | unary => exact Nat.succ_pos _
  | bare _ ih => exact ih
  | count => exact Nat.one_pos
  | number => exact Nat.one_pos
  | group => exact Nat.succ_pos _

theorem BinaryOp.tier_lt (op : BinaryOp) : op.tier < tierCount := by
  cases op <;> decide

/-- The tokens cannot go on with a chain at a tier: they do not start with an
    operator of that tier or a tighter one. -/
def EndsChain (tier : Nat) (rest : List Token) : Prop :=
  ∀ token ∈ rest.head?, ∀ op ∈ token.binary?, op.tier < tier

/-- The tokens cannot go on with a phrase. -/
def Phrase.Ends : Phrase → List Token → Prop
  | expression, rest => EndsChain 0 rest ∧ rest.head? ≠ some .question
  | chain tier, rest => EndsChain tier rest
  | operand, _ | primary, _ => True

theorem EndsChain.nil (tier : Nat) : EndsChain tier [] :=
  fun _ h => nomatch h

theorem Phrase.ends_nil (phrase : Phrase) : phrase.Ends [] := by
  cases phrase with
  | expression => exact ⟨.nil 0, Option.some_ne_none _ ∘ Eq.symm⟩
  | chain tier => exact .nil tier
  | operand => trivial
  | primary => trivial

theorem EndsChain.tierCount (rest : List Token) : EndsChain tierCount rest :=
  fun _ _ op _ => op.tier_lt

/-- An operator ends the chains of all tighter tiers. -/
theorem EndsChain.of_binary? {token : Token} {op : BinaryOp} (h : token.binary? = some op)
    (rest : List Token) : EndsChain (op.tier + 1) (token :: rest) := by
  intro t ht op' hop'
  cases ht
  cases h.symm.trans hop'
  exact Nat.lt_succ_self _

/-- A token that stands for no operator ends all chains. -/
theorem EndsChain.of_binary?_eq_none {token : Token} (h : token.binary? = none) (tier : Nat)
    (rest : List Token) : EndsChain tier (token :: rest) := by
  intro t ht op hop
  cases ht
  cases h.symm.trans hop

end MessageCatalog.Plural
