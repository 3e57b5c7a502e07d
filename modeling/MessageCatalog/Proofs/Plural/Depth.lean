import MessageCatalog.Proofs.Plural.Parser

/-!
# What is nested too deep

A parser that has no room for a phrase says so: it reports the depth, and nothing else, if the
tokens ahead start with a phrase of its kind that is too deep (`RefusesDeeper`). What precedes the
place at which the room runs out is then read as ever, and what follows is not looked at; so, other
than for phrases that are read, it does not matter where the phrase ends. Again each parser refuses
its phrases if the parsers it is made of refuse theirs, up to those of every level
(`refusesDeeper_level`).

* `Derives.depth_unique`: tokens are an expression of one depth only;
* `Expr.parse_eq_of_derives`: depth decides between the tree and the fault.
-/

namespace MessageCatalog.Plural

/-- The parser reports depth on phrases of a kind that are deeper than `limit`. -/
def RefusesDeeper (fault : Option ExprError) (parser : Parser) (phrase : Phrase)
    (limit : Nat) : Prop :=
  ∀ ⦃d : Nat⦄ ⦃used : List Token⦄ ⦃e : Expr⦄, Derives phrase d used e → limit < d →
    ∀ rest, Passes fault rest → parser (used ++ rest) = .error .tooDeep

variable {fault : Option ExprError}

/-! ## Operands -/

section Operand

variable {group : Parser} {deeper : Option Parser}

theorem operand_leftParen_eq_error {tokens : List Token} {x : ExprError}
    (hpass : Passes fault tokens) (h : group tokens = .error x) :
    operand fault group deeper (.leftParen :: tokens) = .error x :=
  bind_eq_error_iff.2 (.inr ⟨(), goOn_eq_ok_iff.2 hpass, bind_eq_error_iff.2 (.inl h)⟩)

theorem operand_unary_none {token : Token} {op : UnaryOp} (hop : token.unary? = some op)
    (tokens : List Token) : operand fault group none (token :: tokens) = .error .tooDeep :=
  operand_unary hop tokens

theorem operand_unary_eq_error {parser : Parser} {token : Token} {op : UnaryOp}
    {tokens : List Token} {x : ExprError} (hop : token.unary? = some op)
    (hpass : Passes fault tokens) (h : parser tokens = .error x) :
    operand fault group (some parser) (token :: tokens) = .error x := by
  rw [operand_unary hop]
  exact bind_eq_error_iff.2 (.inr ⟨(), goOn_eq_ok_iff.2 hpass, bind_eq_error_iff.2 (.inl h)⟩)

/-- Operands are refused if what they contain is. An operator in front of an operand is
    refused by itself if there is no parser for what it is in front of. -/
theorem refusesDeeper_operand {room : Nat} (hgroup : RefusesDeeper fault group .expression room)
    (hsome : ∀ parser ∈ deeper, RefusesDeeper fault parser .operand room) :
    RefusesDeeper fault (operand fault group deeper) .operand (room + 1) := by
  intro d used e hder hd rest hpass
  cases hder with
  | bare hder =>
    cases hder with
    -- These two are on the first level, for which there is room.
    | count => exact absurd hd (by omega)
    | number => exact absurd hd (by omega)
    | @group d used _ hder =>
      rw [List.cons_append, List.cons_append, List.append_assoc]
      have hpass' : Passes fault ([.rightParen] ++ rest) := .cons _
      exact operand_leftParen_eq_error (hpass'.append used)
        (hgroup hder (Nat.lt_of_succ_lt_succ hd) _ hpass')
  | @unary _ _ d used _ hop hder =>
    rw [List.cons_append]
    cases hdeeper : deeper with
    | none => exact operand_unary_none hop _
    | some parser =>
      exact operand_unary_eq_error hop (hpass.append used)
        (hsome _ hdeeper hder (Nat.lt_of_succ_lt_succ hd) _ hpass)

end Operand

/-! ## Chains -/

/-- The tokens would extend a chain at a tier, but for an operand that is deeper than `limit`. -/
inductive Overruns (tier limit : Nat) : List Token → Prop
  | here {token : Token} {op : BinaryOp} {d : Nat} {right : List Token} {e : Expr}
      (more : List Token) : token.binary? = some op → op.tier = tier → limit < d →
      Derives (.chain (tier + 1)) d right e → Overruns tier limit (token :: (right ++ more))
  | later {token : Token} {op : BinaryOp} {d : Nat} {right more : List Token} {e : Expr} :
      token.binary? = some op → op.tier = tier → d ≤ limit →
      Derives (.chain (tier + 1)) d right e → Overruns tier limit more →
      Overruns tier limit (token :: (right ++ more))

namespace Overruns

variable {tier limit : Nat} {tokens : List Token}

theorem append (h : Overruns tier limit tokens) (rest : List Token) :
    Overruns tier limit (tokens ++ rest) := by
  induction h with
  | here more hop htier hd hright =>
    rw [List.cons_append, List.append_assoc]
    exact .here _ hop htier hd hright
  | later hop htier hd hright _ ih =>
    rw [List.cons_append, List.append_assoc]
    exact .later hop htier hd hright ih

theorem ends (h : Overruns tier limit tokens) : EndsChain (tier + 1) tokens := by
  cases h with
  | here _ hop htier => exact htier ▸ EndsChain.of_binary? hop _
  | later hop htier => exact htier ▸ EndsChain.of_binary? hop _

theorem passes (h : Overruns tier limit tokens) : Passes fault tokens := by
  cases h with
  | here => exact .cons _
  | later => exact .cons _

end Overruns

/-- What comes first may be an extension that is not too deep. -/
theorem Extends.overruns {tier limit : Nat} {left e : Expr} {more tokens : List Token}
    (h : Extends tier limit left more e) (htokens : Overruns tier limit tokens) :
    Overruns tier limit (more ++ tokens) := by
  induction h with
  | refl => exact htokens
  | step hop htier hd hright _ ih =>
    rw [List.cons_append, List.append_assoc]
    exact .later hop htier hd hright ih

/-- In a chain that is too deep the first operand is too deep, or one of those that extend it. -/
theorem Derives.overruns {tier limit d : Nat} {used : List Token} {e : Expr}
    (h : Derives (.chain tier) d used e) (htier : tier < tierCount) (hd : limit < d) :
    ∃ first more, used = first ++ more ∧ ∃ d₁ e₁, Derives (.chain (tier + 1)) d₁ first e₁ ∧
      (limit < d₁ ∨ d₁ ≤ limit ∧ Overruns tier limit more) := by
  -- As for the extensions of a chain, the induction follows the left operands.
  generalize hp : Phrase.chain tier = p at h
  induction h with
  | @tighter _ d used e _ h _ =>
    cases hp
    exact ⟨used, [], (List.append_nil _).symm, d, e, h, .inl hd⟩
  | @binary token op d₁ d₂ left right e₁ e₂ hop hleft hright ih _ =>
    cases hp
    rcases Nat.lt_or_ge limit d₁ with hd₁ | hd₁
    · obtain ⟨first, more, rfl, d', e', hfirst, hdeep⟩ := ih hd₁ rfl
      exact ⟨first, _, List.append_assoc .., d', e', hfirst,
        hdeep.imp_right fun ⟨hd', hmore⟩ => ⟨hd', hmore.append _⟩⟩
    · have hd₂ : limit < d₂ := by omega
      obtain ⟨first, more, rfl, d', hd', e', hfirst, hmore⟩ := hleft.extends htier hd₁
      have hlast : Overruns op.tier limit (token :: right) := by
        have := Overruns.here [] hop rfl hd₂ hright
        rwa [List.append_nil] at this
      exact ⟨first, _, List.append_assoc .., d', e', hfirst, .inr ⟨hd', hmore.overruns hlast⟩⟩
  | single =>
    cases hp
    exact absurd htier (Nat.lt_irrefl _)
  | _ => cases hp

section Chain

variable {parser : Parser} {ops : List BinaryOp}

theorem chainFrom_cons_eq_error {token : Token} {op : BinaryOp} {tokens : List Token}
    {x : ExprError} (hop : token.binary?.filter (· ∈ ops) = some op)
    (hpass : Passes fault tokens) (left : Expr)
    (h : parser tokens = .error x ∨ ∃ right mid, Reads parser tokens right mid ∧
      chainFrom fault parser ops (.binary op left right) mid = .error x) :
    chainFrom fault parser ops left (token :: tokens) = .error x := by
  rw [chainFrom, hop]
  refine bind_eq_error_iff.2 (.inr ⟨(), goOn_eq_ok_iff.2 hpass, bind_eq_error_iff.2 ?_⟩)
  refine h.imp_right ?_
  rintro ⟨right, mid, ⟨hlt, hright⟩, hmore⟩
  exact ⟨⟨right, mid, hlt⟩, hright, bind_eq_error_iff.2 (.inl hmore)⟩

/-- The operand that is too deep is met where a chain would be extended. -/
theorem chainFrom_overruns {tier limit : Nat} (hops : ∀ op, op ∈ ops ↔ op.tier = tier)
    (hreads : ReadsExactly fault parser (.chain (tier + 1)) limit)
    (hrefuses : RefusesDeeper fault parser (.chain (tier + 1)) limit)
    {tokens : List Token} (h : Overruns tier limit tokens) {rest : List Token}
    (hpass : Passes fault rest) (left : Expr) :
    chainFrom fault parser ops left (tokens ++ rest) = .error .tooDeep := by
  have hfilter : ∀ {token : Token} {op : BinaryOp}, token.binary? = some op → op.tier = tier →
      token.binary?.filter (· ∈ ops) = some op := fun hop htier =>
    Option.filter_eq_some_iff.2 ⟨hop, decide_eq_true ((hops _).2 htier)⟩
  induction h generalizing left with
  | @here token op d right e more hop htier hd hright =>
    rw [List.cons_append, List.append_assoc]
    have hpass' := hpass.append more
    exact chainFrom_cons_eq_error (hfilter hop htier) (hpass'.append right) left
      (.inl (hrefuses hright hd _ hpass'))
  | @later token op d right more e hop htier hd hright hmore ih =>
    rw [List.cons_append, List.append_assoc]
    have hpass' := hpass.append more
    refine chainFrom_cons_eq_error (hfilter hop htier) (hpass'.append right) left
      (.inr ⟨e, more ++ rest, ?_, ih _⟩)
    exact (hreads _ _ _).2 ⟨hpass', (hmore.append rest).ends, right, rfl, d, hd, hright⟩

theorem chain_cons_eq_error {tighter : List (List BinaryOp)} {tokens : List Token}
    {x : ExprError} (h : chain fault parser tighter tokens = .error x ∨
      ∃ first mid, Reads (chain fault parser tighter) tokens first mid ∧
        chainFrom fault (chain fault parser tighter) ops first mid = .error x) :
    chain fault parser (ops :: tighter) tokens = .error x := by
  rw [chain]
  refine bind_eq_error_iff.2 (h.imp_right ?_)
  rintro ⟨first, mid, ⟨hlt, hfirst⟩, hmore⟩
  exact ⟨⟨first, mid, hlt⟩, hfirst, bind_eq_error_iff.2 (.inl hmore)⟩

/-- Chains are refused if operands are. -/
theorem refusesDeeper_chain {limit : Nat} (hreads : ReadsExactly fault parser .operand limit)
    (hrefuses : RefusesDeeper fault parser .operand limit) {tier : Nat} (htier : tier ≤ tierCount) :
    RefusesDeeper fault (chain fault parser (tiers.drop tier)) (.chain tier) limit := by
  -- As for reading, from the tightest tier down to the loosest one.
  induction htier using Nat.decreasingInduction with
  | self =>
    intro d used e hder hd rest hpass
    generalize hp : Phrase.chain tierCount = p at hder
    cases hder with
    | tighter hlt => cases hp; exact absurd hlt (Nat.lt_irrefl _)
    | binary => injection hp with hp; exact absurd hp.symm (Nat.ne_of_lt (BinaryOp.tier_lt _))
    | single h => exact hrefuses h hd rest hpass
    | _ => cases hp
  | of_succ tier hlt ih =>
    rw [List.drop_eq_getElem_cons (show tier < tiers.length from hlt)]
    intro d used e hder hd rest hpass
    obtain ⟨first, more, rfl, d₁, e₁, hfirst, hdeep⟩ := hder.overruns hlt hd
    rw [List.append_assoc]
    have hreads' : ReadsExactly fault (chain fault parser (tiers.drop (tier + 1)))
        (.chain (tier + 1)) limit := readsExactly_chain hreads hlt
    refine chain_cons_eq_error (hdeep.imp (fun hd₁ => ?_) fun ⟨hd₁, hmore⟩ => ?_)
    · exact ih hfirst hd₁ _ (hpass.append more)
    · refine ⟨e₁, more ++ rest, (hreads' _ _ _).2 ⟨hpass.append more, (hmore.append rest).ends,
        first, rfl, d₁, hd₁, hfirst⟩, ?_⟩
      exact chainFrom_overruns (mem_tiers_iff ⟨tier, hlt⟩) hreads' ih hmore hpass _

end Chain

/-! ## Expressions -/

section Conditional

variable {parser branch : Parser} {tokens : List Token} {x : ExprError}

theorem conditional_eq_error_of_condition (h : chain fault parser tiers tokens = .error x) :
    conditional fault parser branch tokens = .error x :=
  bind_eq_error_iff.2 (.inl h)

theorem conditional_eq_error_of_branch {condition : Expr} {more : List Token}
    (hcondition : Reads (chain fault parser tiers) tokens condition (.question :: more))
    (hpass : Passes fault more)
    (h : branch more = .error x ∨ ∃ first after, Reads branch more first (.colon :: after) ∧
      Passes fault after ∧ branch after = .error x) :
    conditional fault parser branch tokens = .error x := by
  obtain ⟨hlt, hcondition⟩ := hcondition
  refine bind_eq_error_iff.2 (.inr ⟨_, hcondition, ?_⟩)
  refine bind_eq_error_iff.2 (.inr ⟨(), goOn_eq_ok_iff.2 hpass, bind_eq_error_iff.2 ?_⟩)
  refine h.imp_right ?_
  rintro ⟨first, after, ⟨hlt₁, hfirst⟩, hpass', hsecond⟩
  obtain ⟨hafter, hcolon⟩ := expect_eq_ok_iff.2 ⟨rfl, hpass'⟩
  exact ⟨⟨first, _, hlt₁⟩, hfirst, bind_eq_error_iff.2 (.inr ⟨⟨after, hafter⟩, hcolon,
    bind_eq_error_iff.2 (.inl hsecond)⟩)⟩

/-- Expressions are refused if operands are, and the branches of a choice. -/
theorem refusesDeeper_conditional {room : Nat}
    (hreads : ReadsExactly fault parser .operand (room + 1))
    (hrefuses : RefusesDeeper fault parser .operand (room + 1))
    (hbranch : ReadsExactly fault branch .expression room)
    (hbranch' : RefusesDeeper fault branch .expression room) :
    RefusesDeeper fault (conditional fault parser branch) .expression (room + 1) := by
  have hchain : ReadsExactly fault (chain fault parser tiers) (.chain 0) (room + 1) :=
    readsExactly_chain hreads (Nat.zero_le _)
  have hchain' : RefusesDeeper fault (chain fault parser tiers) (.chain 0) (room + 1) :=
    refusesDeeper_chain hreads hrefuses (Nat.zero_le _)
  intro d used e hder hd rest hpass
  cases hder with
  | plain hder => exact conditional_eq_error_of_condition (hchain' hder hd rest hpass)
  | @choice d d₁ d₂ condition first second e e₁ e₂ hder hder₁ hder₂ =>
    have htokens : condition ++ .question :: first ++ .colon :: second ++ rest =
        condition ++ .question :: (first ++ .colon :: (second ++ rest)) := by simp
    have hpass₁ : Passes fault (.colon :: (second ++ rest)) := .cons _
    rw [htokens]
    -- The first of the three parts that is too deep is refused; those before it are read.
    rcases Nat.lt_or_ge (room + 1) d with hdeep | hd₀
    · exact conditional_eq_error_of_condition (hchain' hder hdeep _ (.cons _))
    · refine conditional_eq_error_of_branch ((hchain _ _ _).2 ⟨.cons _,
        EndsChain.of_binary?_eq_none rfl 0 _, condition, rfl, d, hd₀, hder⟩)
        (hpass₁.append first) ?_
      rcases Nat.lt_or_ge room d₁ with hdeep | hd₁
      · exact .inl (hbranch' hder₁ hdeep _ hpass₁)
      · refine .inr ⟨e₁, second ++ rest, (hbranch _ _ _).2 ⟨hpass₁,
          ⟨EndsChain.of_binary?_eq_none rfl 0 _, nofun⟩, first, rfl, d₁, hd₁, hder₁⟩,
          hpass.append second, hbranch' hder₂ ?_ rest hpass⟩
        omega

end Conditional

/-- The parsers of a level refuse what there is no room for. -/
theorem refusesDeeper_level (room : Nat) :
    RefusesDeeper fault (level fault room).expression .expression room ∧
      RefusesDeeper fault (level fault room).operand .operand (room + 1) := by
  induction room with
  | zero =>
    have hexpression : RefusesDeeper fault (level fault 0).expression .expression 0 := by
      intro d used e _ _ rest _
      rfl
    refine ⟨hexpression, refusesDeeper_operand hexpression ?_⟩
    rintro _ ⟨⟩
  | succ room ih =>
    obtain ⟨hexpression, hoperand⟩ := ih
    obtain ⟨hreads, hreads'⟩ := @readsExactly_level fault room
    have hexpression' := refusesDeeper_conditional hreads' hoperand hreads hexpression
    refine ⟨hexpression', refusesDeeper_operand hexpression' ?_⟩
    rintro _ ⟨⟩
    exact hoperand

/-- Tokens are an expression of one depth only: with room for the lesser of two depths, a
    parser would both read and refuse them. -/
theorem Derives.depth_unique {d d' : Nat} {tokens : List Token} {e e' : Expr}
    (h : Derives .expression d tokens e) (h' : Derives .expression d' tokens e') : d = d' := by
  have hle : ∀ {d d' : Nat} {e e' : Expr}, Derives .expression d tokens e →
      Derives .expression d' tokens e' → d' ≤ d := by
    intro d d' e e' h h'
    refine Nat.le_of_not_lt fun hlt => ?_
    have hpass : Passes none [] := fun _ => rfl
    obtain ⟨_, hread⟩ := ((readsExactly_level d).1 _ _ _).2
      ⟨hpass, Phrase.ends_nil _, tokens, (List.append_nil _).symm, d, Nat.le_refl _, h⟩
    have herror := (refusesDeeper_level d).1 h' hlt [] hpass
    rw [List.append_nil] at herror
    cases hread.symm.trans herror
  exact Nat.le_antisymm (hle h' h) (hle h h')

/-- A scan of an expression that is nested too deep has that fault. -/
theorem Scan.parse_eq_tooDeep {scan : Scan} (hfault : scan.fault = none) {d : Nat} {e : Expr}
    (h : Derives .expression d scan.tokens e) (hd : maxDepth < d) :
    scan.parse = .error .tooDeep := by
  have hpass : Passes scan.fault [] := fun _ => hfault
  have herror := (refusesDeeper_level maxDepth).1 h hd [] hpass
  rw [List.append_nil] at herror
  refine bind_eq_error_iff.2 (.inr ⟨(), goOn_eq_ok_iff.2 fun _ => hfault, ?_⟩)
  exact bind_eq_error_iff.2 (.inl herror)

/-- Of a text that is short enough and splits into the tokens of an expression, the depth
    decides whether it denotes this expression or is nested too deep. -/
theorem Expr.parse_eq_of_derives {text : String} (hshort : text.utf8ByteSize ≤ 1024)
    {tokens : List Token} (hsplits : Splits (beforeSemicolon text.toList) tokens)
    {d : Nat} {e : Expr} (h : Derives .expression d tokens e) :
    Expr.parse text = if d ≤ 64 then .ok e else .error .tooDeep := by
  have hlong : ¬maxLength < text.utf8ByteSize := Nat.not_lt.2 hshort
  rw [Expr.parse, if_neg hlong, Scan.ofText_eq_iff.2 hsplits]
  split
  case isTrue hd => exact Scan.parse_eq_ok_iff.2 ⟨rfl, d, hd, h⟩
  case isFalse hd => exact Scan.parse_eq_tooDeep rfl h (Nat.not_le.1 hd)

end MessageCatalog.Plural
