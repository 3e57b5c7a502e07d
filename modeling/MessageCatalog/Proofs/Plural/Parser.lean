import Mathlib.Data.Nat.Init
import MessageCatalog.Proofs.Except
import MessageCatalog.Proofs.Plural.Grammar
import MessageCatalog.Proofs.Plural.Scan

/-!
# What the parsers of plural expressions read

A parser reads exactly a kind of phrases if it finds a tree and tokens left
precisely where the tokens read are a phrase of that kind for the tree, and those
left cannot go on with it (`ReadsExactly`). Each parser made of others reads its
phrases exactly if they do: operands, chains, expressions; and so, by induction on
the room for more levels, do the parsers of every level, up to the depth for which
there is room (`readsExactly_level`).

The grammar groups a chain to the left, the parser reads it from left to right: in
between stand the ways to extend a chain at its right end (`Extends`).

* `Derives.unique`: tokens are an expression for at most one tree;
* `Expr.parse_eq_ok_iff_derives`: the texts that denote an expression, and which one.
-/

namespace MessageCatalog.Plural

variable {fault : Option ExprError}

/-- Nothing is wrong behind the tokens `rest`, if there are none. -/
def Passes (fault : Option ExprError) (rest : List Token) : Prop :=
  rest = [] → fault = none

theorem Passes.append {rest : List Token} (h : Passes fault rest) (tokens : List Token) :
    Passes fault (tokens ++ rest) :=
  fun hnil => h (List.append_eq_nil_iff.1 hnil).2

theorem Passes.cons {rest : List Token} (token : Token) : Passes fault (token :: rest) :=
  fun hnil => nomatch hnil

theorem goOn_eq_ok_iff {rest : List Token} : goOn fault rest = .ok () ↔ Passes fault rest := by
  cases rest with
  | cons token rest => exact ⟨fun _ => .cons token, fun _ => rfl⟩
  | nil =>
    cases fault with
    | none => exact ⟨fun _ _ => rfl, fun _ => rfl⟩
    | some e => exact ⟨(nomatch ·), fun h => nomatch h rfl⟩

/-- The parser reads the tree `e` from the tokens, and leaves `rest`. -/
def Reads (parser : Parser) (tokens : List Token) (e : Expr) (rest : List Token) : Prop :=
  ∃ h, parser tokens = .ok ⟨e, rest, h⟩

/-- The parser reads the phrases of a kind, as far as they go, and nothing else: those of
    a depth up to `limit`. -/
def ReadsExactly (fault : Option ExprError) (parser : Parser) (phrase : Phrase)
    (limit : Nat) : Prop :=
  ∀ tokens e rest, Reads parser tokens e rest ↔
    Passes fault rest ∧ phrase.Ends rest ∧
      ∃ used, tokens = used ++ rest ∧ ∃ d ≤ limit, Derives phrase d used e

theorem expect_eq_ok_iff {token : Token} {tokens rest : List Token} :
    (∃ h, expect fault token tokens = .ok ⟨rest, h⟩) ↔
      tokens = token :: rest ∧ Passes fault rest := by
  cases tokens with
  | nil =>
    constructor
    · rintro ⟨_, h⟩
      cases h
    · rintro ⟨h, _⟩
      cases h
  | cons t tokens =>
    rw [expect]
    split
    case isFalse hne =>
      constructor
      · rintro ⟨_, h⟩
        cases h
      · rintro ⟨h, _⟩
        exact absurd (List.cons.inj h).1 hne
    case isTrue heq =>
      subst heq
      simp only [bind_eq_ok_iff]
      constructor
      · rintro ⟨_, ⟨⟩, hgo, hrest⟩
        cases hrest
        exact ⟨rfl, goOn_eq_ok_iff.1 hgo⟩
      · rintro ⟨hrest, hpass⟩
        cases hrest
        exact ⟨Nat.lt_succ_self _, (), goOn_eq_ok_iff.2 hpass, rfl⟩

/-! ## Operands -/

section Operand

variable {group : Parser} {deeper : Option Parser} {tokens rest : List Token} {e : Expr}

/-- A token that is an operand by itself is read if it can be passed. -/
theorem goOn_return_iff {whole : List Token} {leaf : Expr} (hlt : tokens.length < whole.length) :
    (∃ h, (do
      goOn fault tokens
      return (⟨leaf, tokens, hlt⟩ : Parsed whole)) = .ok ⟨e, rest, h⟩) ↔
      e = leaf ∧ tokens = rest ∧ Passes fault rest := by
  simp only [bind_eq_ok_iff]
  constructor
  · rintro ⟨_, ⟨⟩, hgo, h⟩
    cases h
    exact ⟨rfl, rfl, goOn_eq_ok_iff.1 hgo⟩
  · rintro ⟨rfl, rfl, hpass⟩
    exact ⟨hlt, (), goOn_eq_ok_iff.2 hpass, rfl⟩

theorem reads_operand_count : Reads (operand fault group deeper) (.count :: tokens) e rest ↔
    e = .count ∧ tokens = rest ∧ Passes fault rest :=
  goOn_return_iff (Nat.lt_succ_self _)

theorem reads_operand_number {v : Int64} :
    Reads (operand fault group deeper) (.number v :: tokens) e rest ↔
      e = .literal v ∧ tokens = rest ∧ Passes fault rest :=
  goOn_return_iff (Nat.lt_succ_self _)

theorem reads_operand_leftParen :
    Reads (operand fault group deeper) (.leftParen :: tokens) e rest ↔
      Passes fault tokens ∧ Reads group tokens e (.rightParen :: rest) ∧ Passes fault rest := by
  have heq : operand fault group deeper (.leftParen :: tokens) = do
      goOn fault tokens
      let inner ← group tokens
      let after ← expect fault .rightParen inner.rest
      return ⟨inner.expr, after.1, Nat.lt_succ_of_lt (Nat.lt_trans after.2 inner.shorter)⟩ := rfl
  rw [Reads, heq]
  simp only [Reads, bind_eq_ok_iff]
  constructor
  · rintro ⟨_, ⟨⟩, hgo, ⟨inner, left, hlt⟩, hinner, ⟨after, hafter⟩, hparen, h⟩
    cases h
    obtain ⟨rfl, hpass⟩ := expect_eq_ok_iff.1 ⟨hafter, hparen⟩
    exact ⟨goOn_eq_ok_iff.1 hgo, ⟨hlt, hinner⟩, hpass⟩
  · rintro ⟨hgo, ⟨hlt, hinner⟩, hpass⟩
    obtain ⟨hafter, hparen⟩ := expect_eq_ok_iff.2 ⟨rfl, hpass⟩
    exact ⟨Nat.lt_succ_of_lt (Nat.lt_trans hafter hlt), (), goOn_eq_ok_iff.2 hgo, ⟨e, _, hlt⟩,
      hinner, ⟨rest, hafter⟩, hparen, rfl⟩

theorem operand_unary {token : Token} {op : UnaryOp} (hop : token.unary? = some op)
    (tokens : List Token) :
    operand fault group deeper (token :: tokens) = match deeper with
      | none => .error .tooDeep
      | some deeper => do
        goOn fault tokens
        let inner ← deeper tokens
        return ⟨.unary op inner.expr, inner.rest, Nat.lt_succ_of_lt inner.shorter⟩ := by
  cases token <;> cases hop <;> cases deeper <;> rfl

theorem reads_operand_unary {token : Token} {op : UnaryOp} (hop : token.unary? = some op) :
    Reads (operand fault group deeper) (token :: tokens) e rest ↔
      ∃ parser ∈ deeper, Passes fault tokens ∧ ∃ inner, Reads parser tokens inner rest ∧
        e = .unary op inner := by
  rw [Reads, operand_unary hop]
  cases deeper with
  | none => exact ⟨fun ⟨_, h⟩ => (nomatch h), fun ⟨_, h, _⟩ => nomatch h⟩
  | some deeper =>
    simp only [bind_eq_ok_iff]
    constructor
    · rintro ⟨_, ⟨⟩, hgo, ⟨inner, left, hlt⟩, hinner, h⟩
      cases h
      exact ⟨deeper, rfl, goOn_eq_ok_iff.1 hgo, inner, ⟨hlt, hinner⟩, rfl⟩
    · rintro ⟨_, ⟨⟩, hgo, inner, ⟨hlt, hinner⟩, rfl⟩
      exact ⟨Nat.lt_succ_of_lt hlt, (), goOn_eq_ok_iff.2 hgo, ⟨inner, rest, hlt⟩, hinner, rfl⟩

/-- An operand starts with the count, a number, a parenthesis or an operator. -/
theorem reads_operand_cases (h : Reads (operand fault group deeper) tokens e rest) :
    ∃ token after, tokens = token :: after ∧
      (token = .count ∨ (∃ v, token = .number v) ∨ token = .leftParen ∨
        ∃ op, token.unary? = some op) := by
  obtain ⟨_, h⟩ := h
  cases tokens with
  | nil => cases h
  | cons token after =>
    refine ⟨token, after, rfl, ?_⟩
    cases token with
    | count => exact .inl rfl
    | number v => exact .inr (.inl ⟨v, rfl⟩)
    | leftParen => exact .inr (.inr (.inl rfl))
    | minus => exact .inr (.inr (.inr ⟨.neg, rfl⟩))
    | bang => exact .inr (.inr (.inr ⟨.not, rfl⟩))
    | _ => cases h

/-- With room for `room` more levels, operands are read exactly if what they contain is.
    Without room there is no parser for what an operator is in front of. -/
theorem readsExactly_operand {room : Nat} (hgroup : ReadsExactly fault group .expression room)
    (hnone : deeper = none → room = 0)
    (hsome : ∀ parser ∈ deeper, ReadsExactly fault parser .operand room) :
    ReadsExactly fault (operand fault group deeper) .operand (room + 1) := by
  intro tokens e rest
  constructor
  · intro h
    -- The first token tells which operand it is.
    obtain ⟨token, after, rfl, htoken⟩ := reads_operand_cases h
    rcases htoken with rfl | ⟨v, rfl⟩ | rfl | ⟨op, hop⟩
    · obtain ⟨rfl, rfl, hpass⟩ := reads_operand_count.1 h
      exact ⟨hpass, trivial, [.count], rfl, 1, Nat.le_add_left .., .bare .count⟩
    · obtain ⟨rfl, rfl, hpass⟩ := reads_operand_number.1 h
      exact ⟨hpass, trivial, [.number v], rfl, 1, Nat.le_add_left .., .bare (.number v)⟩
    · obtain ⟨_, hinner, hpass⟩ := reads_operand_leftParen.1 h
      obtain ⟨_, _, used, rfl, d, hd, hder⟩ := (hgroup _ _ _).1 hinner
      exact ⟨hpass, trivial, .leftParen :: used ++ [.rightParen], by simp, d + 1,
        Nat.succ_le_succ hd, .bare (.group hder)⟩
    · obtain ⟨parser, hparser, _, inner, hinner, rfl⟩ := (reads_operand_unary hop).1 h
      obtain ⟨hpass, _, used, rfl, d, hd, hder⟩ := (hsome _ hparser _ _ _).1 hinner
      exact ⟨hpass, trivial, token :: used, rfl, d + 1, Nat.succ_le_succ hd, .unary hop hder⟩
  · rintro ⟨hpass, -, used, rfl, d, hd, hder⟩
    cases hder with
    | bare hder =>
      cases hder with
      | count => exact reads_operand_count.2 ⟨rfl, rfl, hpass⟩
      | number v => exact reads_operand_number.2 ⟨rfl, rfl, hpass⟩
      | @group d used _ hder =>
        rw [List.cons_append, List.cons_append, List.append_assoc]
        refine reads_operand_leftParen.2 ⟨.append (.cons _) used, ?_, hpass⟩
        exact (hgroup _ _ _).2 ⟨.cons _, ⟨EndsChain.of_binary?_eq_none rfl 0 rest, nofun⟩, used,
          rfl, d, Nat.le_of_succ_le_succ hd, hder⟩
    | @unary token op d used inner hop hder =>
      refine (reads_operand_unary hop).2 ?_
      cases hdeeper : deeper with
      | none =>
        -- Without room the operand would have no level to be on.
        have := hnone hdeeper
        exact absurd hder.pos (by omega)
      | some parser =>
        exact ⟨parser, rfl, hpass.append used, inner, (hsome _ hdeeper _ _ _).2
          ⟨hpass, trivial, used, rfl, d, Nat.le_of_succ_le_succ hd, hder⟩, rfl⟩

end Operand

/-! ## Chains -/

/-- The tokens extend a chain at a tier for the tree `left` to one for the tree `e`, by
    operands at most `limit` levels deep. -/
inductive Extends (tier limit : Nat) : Expr → List Token → Expr → Prop
  | refl (e : Expr) : Extends tier limit e [] e
  | step {token : Token} {op : BinaryOp} {d : Nat} {right more : List Token}
      {left e₂ e : Expr} : token.binary? = some op → op.tier = tier → d ≤ limit →
      Derives (.chain (tier + 1)) d right e₂ →
      Extends tier limit (.binary op left e₂) more e →
      Extends tier limit left (token :: (right ++ more)) e

namespace Extends

variable {tier limit : Nat} {left e : Expr} {more : List Token}

/-- What extends a chain makes a chain of it. -/
theorem derives (h : Extends tier limit left more e) {used : List Token} {d : Nat}
    (hd : d ≤ limit) (hleft : Derives (.chain tier) d used left) :
    ∃ d' ≤ limit, Derives (.chain tier) d' (used ++ more) e := by
  induction h generalizing used d with
  | refl => exact ⟨d, hd, by rwa [List.append_nil]⟩
  | step hop htier hd₂ hright _ ih =>
    subst htier
    rw [← List.cons_append, ← List.append_assoc]
    exact ih (Nat.max_le.2 ⟨hd, hd₂⟩) (.binary hop hleft hright)

/-- One more operand extends an extension. -/
theorem snoc (h : Extends tier limit left more e) {token : Token} {op : BinaryOp} {d : Nat}
    {right : List Token} {e₂ : Expr} (hop : token.binary? = some op) (htier : op.tier = tier)
    (hd : d ≤ limit) (hright : Derives (.chain (tier + 1)) d right e₂) :
    Extends tier limit left (more ++ token :: right) (.binary op e e₂) := by
  induction h with
  | refl e =>
    have := step hop htier hd hright (.refl (.binary op e e₂))
    rwa [List.append_nil] at this
  | step hop' htier' hd' hright' _ ih =>
    rw [List.cons_append, List.append_assoc]
    exact .step hop' htier' hd' hright' ih

/-- An extension starts with an operator of the tier, if it does not end there. -/
theorem ends (h : Extends tier limit left more e) {rest : List Token}
    (hrest : EndsChain tier rest) : EndsChain (tier + 1) (more ++ rest) := by
  cases h with
  | refl => exact fun t ht op hop => Nat.lt_succ_of_lt (hrest t ht op hop)
  | step hop htier _ _ _ => exact htier ▸ EndsChain.of_binary? hop _

end Extends

/-- A chain is a tighter one, extended at its right end. -/
theorem Derives.extends {tier limit d : Nat} {used : List Token} {e : Expr}
    (h : Derives (.chain tier) d used e) (htier : tier < tierCount) (hd : d ≤ limit) :
    ∃ first more, used = first ++ more ∧ ∃ d₁ ≤ limit, ∃ e₁,
      Derives (.chain (tier + 1)) d₁ first e₁ ∧ Extends tier limit e₁ more e := by
  -- The induction follows the left operands; the last operator is the first undone.
  generalize hp : Phrase.chain tier = p at h
  induction h with
  | @tighter _ d used e _ h _ =>
    cases hp
    exact ⟨used, [], (List.append_nil _).symm, d, hd, e, h, .refl e⟩
  | binary hop _ hright ih _ =>
    cases hp
    obtain ⟨hd₁, hd₂⟩ := Nat.max_le.1 hd
    obtain ⟨first, more, rfl, d₁, hd₁, e₁, hfirst, hmore⟩ := ih hd₁ rfl
    exact ⟨first, _, List.append_assoc .., d₁, hd₁, e₁, hfirst, hmore.snoc hop rfl hd₂ hright⟩
  | single =>
    cases hp
    exact absurd htier (Nat.lt_irrefl _)
  | _ => cases hp

section Chain

variable {parser : Parser} {ops : List BinaryOp}

/-- The chain for the tree `left` is continued to one for the tree `e`, and `rest` is left. -/
def Continues (fault : Option ExprError) (parser : Parser) (ops : List BinaryOp) (left : Expr)
    (tokens : List Token) (e : Expr) (rest : List Token) : Prop :=
  ∃ h, chainFrom fault parser ops left tokens = .ok (e, ⟨rest, h⟩)

variable {left e : Expr} {tokens rest : List Token}

theorem continues_nil :
    Continues fault parser ops left [] e rest ↔ e = left ∧ rest = [] := by
  rw [Continues, chainFrom]
  constructor
  · rintro ⟨_, h⟩
    cases h
    exact ⟨rfl, rfl⟩
  · rintro ⟨rfl, rfl⟩
    exact ⟨Nat.le_refl _, rfl⟩

theorem continues_cons_of_none {token : Token} (h : token.binary?.filter (· ∈ ops) = none) :
    Continues fault parser ops left (token :: tokens) e rest ↔
      e = left ∧ rest = token :: tokens := by
  rw [Continues, chainFrom, h]
  constructor
  · rintro ⟨_, h⟩
    cases h
    exact ⟨rfl, rfl⟩
  · rintro ⟨rfl, rfl⟩
    exact ⟨Nat.le_refl _, rfl⟩

theorem continues_cons_of_some {token : Token} {op : BinaryOp}
    (h : token.binary?.filter (· ∈ ops) = some op) :
    Continues fault parser ops left (token :: tokens) e rest ↔
      Passes fault tokens ∧ ∃ right mid, Reads parser tokens right mid ∧
        Continues fault parser ops (.binary op left right) mid e rest := by
  rw [Continues, chainFrom, h]
  simp only [bind_eq_ok_iff]
  constructor
  · rintro ⟨_, ⟨⟩, hgo, ⟨right, mid, hlt⟩, hright, ⟨_, ⟨_, hle⟩⟩, hmore, h⟩
    cases h
    exact ⟨goOn_eq_ok_iff.1 hgo, right, mid, ⟨hlt, hright⟩, hle, hmore⟩
  · rintro ⟨hgo, right, mid, ⟨hlt, hright⟩, hle, hmore⟩
    exact ⟨Nat.le_trans hle (Nat.le_succ_of_le (Nat.le_of_lt hlt)), (), goOn_eq_ok_iff.2 hgo,
      ⟨right, mid, hlt⟩, hright, ⟨e, ⟨rest, hle⟩⟩, hmore, rfl⟩

/-- A chain is continued as far as tokens extend it. -/
theorem continues_iff {tier limit : Nat} (hops : ∀ op, op ∈ ops ↔ op.tier = tier)
    (hparser : ReadsExactly fault parser (.chain (tier + 1)) limit)
    {left : Expr} {tokens : List Token} (hends : EndsChain (tier + 1) tokens)
    (hpass : Passes fault tokens) {e : Expr} {rest : List Token} :
    Continues fault parser ops left tokens e rest ↔
      Passes fault rest ∧ EndsChain tier rest ∧
        ∃ more, tokens = more ++ rest ∧ Extends tier limit left more e := by
  -- Every operand takes tokens, so those ahead get fewer.
  induction hn : tokens.length using Nat.strongRecOn generalizing left tokens with
  | _ n ih =>
  subst hn
  cases tokens with
  | nil =>
    rw [continues_nil]
    constructor
    · rintro ⟨rfl, rfl⟩
      exact ⟨hpass, .nil tier, [], rfl, .refl _⟩
    · rintro ⟨_, _, more, hmore, h⟩
      obtain ⟨rfl, rfl⟩ := List.append_eq_nil_iff.1 hmore.symm
      cases h
      exact ⟨rfl, rfl⟩
  | cons token tokens =>
    cases hop : token.binary?.filter (· ∈ ops) with
    | none =>
      -- No operator of the tier: neither the parser nor an extension takes the token.
      have hnot : ∀ op ∈ token.binary?, op.tier ≠ tier := fun op h htier =>
        absurd (Option.filter_eq_none_iff.1 hop op h) (by simpa using (hops op).2 htier)
      rw [continues_cons_of_none hop]
      constructor
      · rintro ⟨rfl, rfl⟩
        refine ⟨hpass, ?_, [], rfl, .refl _⟩
        intro t ht op h
        have hlt := hends t ht op h
        cases ht
        have := hnot op h
        omega
      · rintro ⟨_, _, more, hmore, h⟩
        cases h with
        | refl => exact ⟨rfl, hmore.symm⟩
        | step hop' htier _ _ _ =>
          cases hmore
          exact absurd htier (hnot _ hop')
    | some op =>
      obtain ⟨hbinary, hmem⟩ := Option.filter_eq_some_iff.1 hop
      have htier : op.tier = tier := (hops op).1 (of_decide_eq_true hmem)
      rw [continues_cons_of_some hop]
      constructor
      · rintro ⟨_, right, mid, hright, hmore⟩
        obtain ⟨hpass', hends', used, rfl, d, hd, hder⟩ := (hparser _ _ _).1 hright
        have hlt : mid.length < (token :: (used ++ mid)).length := by
          rw [List.length_cons, List.length_append]
          omega
        obtain ⟨hpass'', hends'', more, rfl, hext⟩ := (ih _ hlt hends' hpass' rfl).1 hmore
        exact ⟨hpass'', hends'', token :: (used ++ more), by simp,
          .step hbinary htier hd hder hext⟩
      · rintro ⟨hpass', hends', more, hmore, h⟩
        cases h with
        | refl =>
          subst hmore
          exact absurd htier (Nat.ne_of_lt (hends' token rfl op hbinary))
        | @step _ op' d used more _ right _ hop' htier' hd hder hext =>
          cases hmore
          cases hbinary.symm.trans hop'
          have hpass'' := hpass'.append more
          have hends'' := hext.ends hends'
          refine ⟨hpass'.append (used ++ more), right, more ++ rest,
            (hparser _ _ _).2 ⟨hpass'', hends'', used, List.append_assoc .., d, hd, hder⟩, ?_⟩
          have hlt : (more ++ rest).length < (token :: (used ++ more ++ rest)).length := by
            simp only [List.length_cons, List.length_append]
            omega
          exact (ih _ hlt hends'' hpass'' rfl).2 ⟨hpass', hends', more, rfl, hext⟩

theorem reads_chain_cons {tighter : List (List BinaryOp)} :
    Reads (chain fault parser (ops :: tighter)) tokens e rest ↔
      ∃ first mid, Reads (chain fault parser tighter) tokens first mid ∧
        Continues fault (chain fault parser tighter) ops first mid e rest := by
  rw [Reads, chain]
  simp only [bind_eq_ok_iff]
  constructor
  · rintro ⟨_, ⟨first, mid, hlt⟩, hfirst, ⟨_, ⟨_, hle⟩⟩, hmore, h⟩
    cases h
    exact ⟨first, mid, ⟨hlt, hfirst⟩, hle, hmore⟩
  · rintro ⟨first, mid, ⟨hlt, hfirst⟩, hle, hmore⟩
    exact ⟨Nat.lt_of_le_of_lt hle hlt, ⟨first, mid, hlt⟩, hfirst, ⟨e, ⟨rest, hle⟩⟩, hmore, rfl⟩

theorem mem_tiers_iff (tier : Fin tiers.length) (op : BinaryOp) :
    op ∈ tiers[tier] ↔ op.tier = tier := by
  revert tier
  cases op <;> decide

/-- Chains are read exactly if operands are. -/
theorem readsExactly_chain {limit : Nat} (hparser : ReadsExactly fault parser .operand limit)
    {tier : Nat} (htier : tier ≤ tierCount) :
    ReadsExactly fault (chain fault parser (tiers.drop tier)) (.chain tier) limit := by
  -- From the tightest tier, where the operands are, down to the loosest one.
  induction htier using Nat.decreasingInduction with
  | self =>
    intro tokens e rest
    refine (hparser tokens e rest).trans ?_
    constructor
    · rintro ⟨hpass, _, used, rfl, d, hd, hder⟩
      exact ⟨hpass, .tierCount rest, used, rfl, d, hd, .single hder⟩
    · rintro ⟨hpass, _, used, rfl, d, hd, hder⟩
      refine ⟨hpass, trivial, used, rfl, d, hd, ?_⟩
      generalize hp : Phrase.chain tierCount = p at hder
      cases hder with
      | tighter hlt => cases hp; exact absurd hlt (Nat.lt_irrefl _)
      | binary => injection hp with hp; exact absurd hp.symm (Nat.ne_of_lt (BinaryOp.tier_lt _))
      | single h => exact h
      | _ => cases hp
  | of_succ tier hlt ih =>
    rw [List.drop_eq_getElem_cons (show tier < tiers.length from hlt)]
    intro tokens e rest
    rw [reads_chain_cons]
    constructor
    · rintro ⟨first, mid, hfirst, hmore⟩
      obtain ⟨hpass, hends, used, rfl, d, hd, hder⟩ := (ih _ _ _).1 hfirst
      obtain ⟨hpass', hends', more, rfl, hext⟩ :=
        (continues_iff (mem_tiers_iff ⟨tier, hlt⟩) ih hends hpass).1 hmore
      exact ⟨hpass', hends', used ++ more, (List.append_assoc ..).symm,
        hext.derives hd (.tighter hlt hder)⟩
    · rintro ⟨hpass, hends, used, rfl, d, hd, hder⟩
      obtain ⟨first, more, rfl, d₁, hd₁, e₁, hfirst, hext⟩ := hder.extends hlt hd
      have hpass' := hpass.append more
      have hends' := hext.ends hends
      exact ⟨e₁, more ++ rest,
        (ih _ _ _).2 ⟨hpass', hends', first, List.append_assoc .., d₁, hd₁, hfirst⟩,
        (continues_iff (mem_tiers_iff ⟨tier, hlt⟩) ih hends' hpass').2
          ⟨hpass, hends, more, rfl, hext⟩⟩

end Chain

/-! ## Expressions -/

section Conditional

variable {parser branch : Parser} {tokens rest : List Token} {e : Expr}

theorem reads_conditional : Reads (conditional fault parser branch) tokens e rest ↔
    (Reads (chain fault parser tiers) tokens e rest ∧ rest.head? ≠ some .question) ∨
    ∃ condition first second more after, e = .choice condition first second ∧
      Reads (chain fault parser tiers) tokens condition (.question :: more) ∧
      Passes fault more ∧ Reads branch more first (.colon :: after) ∧
      Passes fault after ∧ Reads branch after second rest := by
  simp only [Reads, conditional, bind_eq_ok_iff]
  constructor
  · rintro ⟨_, ⟨condition, mid, hlt⟩, hcondition, h⟩
    split at h
    case h_1 more heq =>
      cases heq
      simp only [bind_eq_ok_iff] at h
      obtain ⟨⟨⟩, hgo, ⟨first, _, hlt₁⟩, hfirst, ⟨after, hafter⟩, hcolon, ⟨second, _, hlt₂⟩,
        hsecond, h⟩ := h
      cases h
      obtain ⟨rfl, hpass⟩ := expect_eq_ok_iff.1 ⟨hafter, hcolon⟩
      exact .inr ⟨condition, first, second, more, after, rfl, ⟨hlt, hcondition⟩,
        goOn_eq_ok_iff.1 hgo, ⟨hlt₁, hfirst⟩, hpass, hlt₂, hsecond⟩
    case h_2 hne =>
      cases h
      refine .inl ⟨⟨hlt, hcondition⟩, fun hhead => ?_⟩
      obtain ⟨more, rfl⟩ := List.head?_eq_some_iff.1 hhead
      exact hne more rfl
  · rintro (⟨⟨hlt, h⟩, hhead⟩ | ⟨condition, first, second, more, after, rfl,
      ⟨hlt, hcondition⟩, hgo, ⟨hlt₁, hfirst⟩, hpass, hlt₂, hsecond⟩)
    · refine ⟨hlt, ⟨e, rest, hlt⟩, h, ?_⟩
      split
      case h_1 more heq => exact absurd (congrArg List.head? heq) hhead
      case h_2 => rfl
    · obtain ⟨hafter, hcolon⟩ := expect_eq_ok_iff.2 ⟨rfl, hpass⟩
      have hshorter : rest.length < tokens.length := by
        simp only [List.length_cons] at hlt hlt₁
        omega
      refine ⟨hshorter, ⟨condition, _, hlt⟩, hcondition, ?_⟩
      simp only [bind_eq_ok_iff]
      exact ⟨(), goOn_eq_ok_iff.2 hgo, ⟨first, _, hlt₁⟩, hfirst, ⟨after, hafter⟩, hcolon,
        ⟨second, rest, hlt₂⟩, hsecond, rfl⟩

/-- Expressions are read exactly if operands are, and the branches of a choice, which have
    room for one level less. -/
theorem readsExactly_conditional {room : Nat}
    (hparser : ReadsExactly fault parser .operand (room + 1))
    (hbranch : ReadsExactly fault branch .expression room) :
    ReadsExactly fault (conditional fault parser branch) .expression (room + 1) := by
  have hchain : ReadsExactly fault (chain fault parser tiers) (.chain 0) (room + 1) :=
    readsExactly_chain hparser (Nat.zero_le _)
  intro tokens e rest
  rw [reads_conditional]
  constructor
  · rintro (⟨h, hhead⟩ | ⟨e, e₁, e₂, more, after, rfl, hcondition, _, hfirst, _, hsecond⟩)
    · obtain ⟨hpass, hends, used, rfl, d, hd, hder⟩ := (hchain _ _ _).1 h
      exact ⟨hpass, ⟨hends, hhead⟩, used, rfl, d, hd, .plain hder⟩
    · obtain ⟨_, _, condition, rfl, d, hd, hder⟩ := (hchain _ _ _).1 hcondition
      obtain ⟨_, _, first, rfl, d₁, hd₁, hder₁⟩ := (hbranch _ _ _).1 hfirst
      obtain ⟨hpass, hends, second, rfl, d₂, hd₂, hder₂⟩ := (hbranch _ _ _).1 hsecond
      refine ⟨hpass, hends, condition ++ .question :: first ++ .colon :: second, by simp, _, ?_,
        .choice hder hder₁ hder₂⟩
      exact Nat.max_le.2 ⟨hd, Nat.max_le.2 ⟨Nat.succ_le_succ hd₁, Nat.succ_le_succ hd₂⟩⟩
  · rintro ⟨hpass, hends, used, rfl, d, hd, hder⟩
    cases hder with
    | plain hder =>
      exact .inl ⟨(hchain _ _ _).2 ⟨hpass, hends.1, used, rfl, d, hd, hder⟩, hends.2⟩
    | @choice d d₁ d₂ condition first second e e₁ e₂ hder hder₁ hder₂ =>
      obtain ⟨hd, hd'⟩ := Nat.max_le.1 hd
      obtain ⟨hd₁, hd₂⟩ := Nat.max_le.1 hd'
      -- Neither mark of the choice can go on with what stands in front of it.
      refine .inr ⟨e, e₁, e₂, first ++ .colon :: (second ++ rest), second ++ rest, rfl, ?_,
        .append (.cons _) first, ?_, hpass.append second, ?_⟩
      · exact (hchain _ _ _).2 ⟨.cons _, EndsChain.of_binary?_eq_none rfl 0 _, condition,
          by simp, d, hd, hder⟩
      · exact (hbranch _ _ _).2 ⟨.cons _, ⟨EndsChain.of_binary?_eq_none rfl 0 _, nofun⟩, first,
          rfl, d₁, Nat.le_of_succ_le_succ hd₁, hder₁⟩
      · exact (hbranch _ _ _).2 ⟨hpass, hends, second, rfl, d₂, Nat.le_of_succ_le_succ hd₂, hder₂⟩

end Conditional

/-- The parsers of a level read exactly what there is room for: an expression may open
    `room` levels, its own included, and an operand stands on a level that is open. -/
theorem readsExactly_level (room : Nat) :
    ReadsExactly fault (level fault room).expression .expression room ∧
      ReadsExactly fault (level fault room).operand .operand (room + 1) := by
  induction room with
  | zero =>
    -- Without room there is nothing to read, and no derivation either.
    have hexpression : ReadsExactly fault (level fault 0).expression .expression 0 := by
      intro tokens e rest
      constructor
      · rintro ⟨_, h⟩
        cases h
      · rintro ⟨_, _, _, _, d, hd, hder⟩
        exact absurd hder.pos (Nat.not_lt.2 hd)
    exact ⟨hexpression, readsExactly_operand hexpression (fun _ => rfl) nofun⟩
  | succ room ih =>
    obtain ⟨hexpression, hoperand⟩ := ih
    have hexpression' := readsExactly_conditional hoperand hexpression
    refine ⟨hexpression', readsExactly_operand hexpression' nofun ?_⟩
    rintro _ ⟨⟩
    exact hoperand

/-- A scan is an expression if nothing is wrong with it and all of its tokens are one, nested
    at most `maxDepth` levels deep. -/
theorem Scan.parse_eq_ok_iff {scan : Scan} {e : Expr} : scan.parse = .ok e ↔
    scan.fault = none ∧ ∃ d ≤ maxDepth, Derives .expression d scan.tokens e := by
  have hlevel := (@readsExactly_level scan.fault maxDepth).1 scan.tokens
  simp only [Scan.parse, bind_eq_ok_iff]
  constructor
  · rintro ⟨⟨⟩, _, ⟨e', rest, hlt⟩, hread, h⟩
    cases rest with
    | cons => cases h
    | nil =>
      cases h
      obtain ⟨hpass, _, used, hused, h⟩ := (hlevel e' []).1 ⟨hlt, hread⟩
      rw [List.append_nil] at hused
      exact ⟨hpass rfl, hused ▸ h⟩
  · rintro ⟨hfault, h⟩
    obtain ⟨hlt, hread⟩ := (hlevel e []).2
      ⟨fun _ => hfault, Phrase.ends_nil _, scan.tokens, (List.append_nil _).symm, h⟩
    exact ⟨(), goOn_eq_ok_iff.2 fun _ => hfault, ⟨e, [], hlt⟩, hread, rfl⟩

/-- The grammar is unambiguous: there is a parser that reads all of its expressions. -/
theorem Derives.unique {d d' : Nat} {tokens : List Token} {e e' : Expr}
    (h : Derives .expression d tokens e) (h' : Derives .expression d' tokens e') : e = e' := by
  have hlevel := (@readsExactly_level none (max d d')).1 tokens
  have hends := Phrase.expression.ends_nil
  have htokens : tokens = tokens ++ [] := (List.append_nil _).symm
  obtain ⟨_, hread⟩ := (hlevel e []).2
    ⟨fun _ => rfl, hends, tokens, htokens, d, Nat.le_max_left .., h⟩
  obtain ⟨_, hread'⟩ := (hlevel e' []).2
    ⟨fun _ => rfl, hends, tokens, htokens, d', Nat.le_max_right .., h'⟩
  cases hread.symm.trans hread'
  rfl

/-- A text denotes an expression if it is short enough and what comes before its first
    semicolon splits into tokens that are one, nested at most 64 levels deep. -/
theorem Expr.parse_eq_ok_iff_derives {text : String} {e : Expr} : Expr.parse text = .ok e ↔
    text.utf8ByteSize ≤ 1024 ∧ ∃ tokens, Splits (beforeSemicolon text.toList) tokens ∧
      ∃ d ≤ 64, Derives .expression d tokens e := by
  rw [Expr.parse]
  split
  case isTrue hlong =>
    constructor
    · rintro ⟨⟩
    · rintro ⟨hshort, _⟩
      exact absurd hlong (Nat.not_lt.2 hshort)
  case isFalse hshort =>
    have hle : text.utf8ByteSize ≤ 1024 := Nat.not_lt.1 hshort
    rw [Scan.parse_eq_ok_iff, and_iff_right hle]
    constructor
    · rintro ⟨hfault, h⟩
      refine ⟨(Scan.ofText text.toList).tokens, Scan.ofText_eq_iff.1 ?_, h⟩
      rw [← hfault]
    · rintro ⟨tokens, hsplits, h⟩
      rw [Scan.ofText_eq_iff.2 hsplits]
      exact ⟨rfl, h⟩

end MessageCatalog.Plural
