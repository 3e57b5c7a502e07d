import Mathlib.Logic.Function.Iterate
import MessageCatalog.Proofs.Plural.Depth
import MessageCatalog.Proofs.Plural.Header

/-!
# Writing plural rules

Every expression can be written so that it is read back: with each operand of an operator, and each
part of a choice, in parentheses of its own, no operator depends on how tightly it binds. Only a
negative number has no text, since there are no negative numerals. What such a text costs is depth:
it is nested by a level for each operator or choice around, and by one more in the branches of a
choice and behind an operator in front of an operand (`Expr.nest`).

* `Expr.render`, `Rule.header`: the text of an expression, and of the header with it;
* `Expr.parse_render`: the text is that of this expression, up to the depth that is allowed;
* `Rule.parse_header`: a header with two fields has the fault of its expression, if any;
* `Rule.parse_header_render`: so all rules that are not nested too deep can be written.
-/

namespace MessageCatalog.Plural

/-! ### Tokens of operators -/

/-- The token of an operator in front of an operand. -/
def UnaryOp.token : UnaryOp → Token
  | not => .bang
  | neg => .minus

/-- The token of an operator between operands. -/
def BinaryOp.token : BinaryOp → Token
  | add => .plus
  | sub => .minus
  | mul => .star
  | div => .slash
  | mod => .percent
  | eq => .equal
  | ne => .notEqual
  | lt => .less
  | le => .lessEqual
  | gt => .greater
  | ge => .greaterEqual
  | and => .and
  | or => .or

theorem UnaryOp.unary?_token (op : UnaryOp) : op.token.unary? = some op := by
  cases op <;> rfl

theorem BinaryOp.binary?_token (op : BinaryOp) : op.token.binary? = some op := by
  cases op <;> rfl

theorem UnaryOp.symbol?_token (op : UnaryOp) : op.token.symbol? = some op.spelling.toList := by
  cases op <;> decide

theorem BinaryOp.symbol?_token (op : BinaryOp) : op.token.symbol? = some op.spelling.toList := by
  cases op <;> decide

/-! ### Expressions -/

namespace Expr

/-- The text of an expression, in which parentheses leave nothing to binding. -/
def render : Expr → String
  | count => "n"
  | literal v => toString v.toInt
  | unary op e => op.spelling ++ "(" ++ e.render ++ ")"
  | binary op l r => "(" ++ l.render ++ ")" ++ op.spelling ++ "(" ++ r.render ++ ")"
  | choice c t f => "(" ++ c.render ++ ")?(" ++ t.render ++ "):(" ++ f.render ++ ")"

/-- The numbers in an expression are not negative. -/
def HasNumerals : Expr → Prop
  | count => True
  | literal v => 0 ≤ v.toInt
  | unary _ e => e.HasNumerals
  | binary _ l r => l.HasNumerals ∧ r.HasNumerals
  | choice c t f => c.HasNumerals ∧ t.HasNumerals ∧ f.HasNumerals

instance decidableHasNumerals : DecidablePred HasNumerals
  | count => inferInstanceAs (Decidable True)
  | literal v => inferInstanceAs (Decidable (0 ≤ v.toInt))
  | unary _ e => decidableHasNumerals e
  | binary _ l r => @instDecidableAnd _ _ (decidableHasNumerals l) (decidableHasNumerals r)
  | choice c t f => @instDecidableAnd _ _ (decidableHasNumerals c)
      (@instDecidableAnd _ _ (decidableHasNumerals t) (decidableHasNumerals f))

/-- How deep the text of an expression is nested. -/
def nest : Expr → Nat
  | count | literal _ => 1
  | unary _ e => 2 + e.nest
  | binary _ l r => 1 + max l.nest r.nest
  | choice c t f => 1 + max c.nest (max (1 + t.nest) (1 + f.nest))

/-- The tokens of the text of an expression. -/
def tokens : Expr → List Token
  | count => [.count]
  | literal v => [.number v]
  | unary op e => op.token :: .leftParen :: e.tokens ++ [.rightParen]
  | binary op l r => .leftParen :: l.tokens ++ .rightParen :: op.token :: .leftParen :: r.tokens ++
      [.rightParen]
  | choice c t f => .leftParen :: c.tokens ++ .rightParen :: .question :: .leftParen :: t.tokens ++
      .rightParen :: .colon :: .leftParen :: f.tokens ++ [.rightParen]

end Expr

/-- A chain at a tier may lack operators of this tier and of tighter ones. -/
theorem Derives.loosen {tier tier' d : Nat} {tokens : List Token} {e : Expr}
    (h : Derives (.chain tier') d tokens e) (hle : tier ≤ tier') (hcount : tier' ≤ tierCount) :
    Derives (.chain tier) d tokens e := by
  induction hle using Nat.decreasingInduction with
  | self => exact h
  | of_succ tier hlt ih => exact .tighter (Nat.lt_of_lt_of_le hlt hcount) ih

/-- An operand is a chain at every tier. -/
theorem Derives.chain {tier d : Nat} {tokens : List Token} {e : Expr}
    (h : Derives .operand d tokens e) (htier : tier ≤ tierCount) :
    Derives (.chain tier) d tokens e :=
  (Derives.single h).loosen htier (Nat.le_refl _)

theorem Derives.expression {d : Nat} {tokens : List Token} {e : Expr}
    (h : Derives .operand d tokens e) : Derives .expression d tokens e :=
  .plain (h.chain (Nat.zero_le _))

/-- The tokens of the text are an expression for the tree, as deep as the text is nested. -/
theorem Expr.derives_tokens (e : Expr) : Derives .expression e.nest e.tokens e := by
  -- In parentheses an expression is an operand, one level deeper, and so a chain at any tier.
  have hgroup : ∀ {e : Expr}, Derives .expression e.nest e.tokens e →
      Derives .operand (e.nest + 1) (.leftParen :: e.tokens ++ [.rightParen]) e :=
    fun h => .bare (.group h)
  induction e with
  | count => exact (Derives.bare .count).expression
  | literal v => exact (Derives.bare (.number v)).expression
  | unary op e ih =>
    have h := (Derives.unary op.unary?_token (hgroup ih)).expression
    rwa [show e.nest + 1 + 1 = (unary op e).nest by rw [nest]; omega] at h
  | binary op l r ihl ihr =>
    have h := Derives.binary op.binary?_token ((hgroup ihl).chain op.tier_lt.le)
      ((hgroup ihr).chain op.tier_lt)
    rw [show max (l.nest + 1) (r.nest + 1) = (binary op l r).nest by rw [nest]; omega] at h
    have htokens : (.leftParen :: l.tokens ++ [.rightParen]) ++
        op.token :: (.leftParen :: r.tokens ++ [.rightParen]) = (binary op l r).tokens := by
      simp [tokens]
    exact htokens ▸ .plain (h.loosen (Nat.zero_le _) op.tier_lt.le)
  | choice c t f ihc iht ihf =>
    have h := Derives.choice ((hgroup ihc).chain (Nat.zero_le _)) (hgroup iht).expression
      (hgroup ihf).expression
    rw [show max (c.nest + 1) (max (t.nest + 1 + 1) (f.nest + 1 + 1)) = (choice c t f).nest by
      rw [nest]; omega] at h
    have htokens : (.leftParen :: c.tokens ++ [.rightParen]) ++
        .question :: (.leftParen :: t.tokens ++ [.rightParen]) ++
        .colon :: (.leftParen :: f.tokens ++ [.rightParen]) = (choice c t f).tokens := by
      simp [tokens]
    exact htokens ▸ h

/-! ### Texts -/

theorem isDigits_toDigits (n : Nat) : IsDigits (Nat.toDigits 10 n) :=
  ⟨Nat.toDigits_ne_nil, fun _ hc => Nat.isDigit_of_mem_toDigits (by decide) (by decide) hc⟩

theorem value_toDigits (n : Nat) : Numeral.value (Nat.toDigits 10 n) = n :=
  Nat.ofDigitChars_toDigits (by decide) (by decide)

section Splits

variable {text rest : List Char} {tokens more : List Token}

/-- A symbol in front of a parenthesis is a token. -/
theorem splits_symbol (token : Token) (h : token.symbol? = some text)
    (hrest : Splits ('(' :: rest) more) : Splits (text ++ '(' :: rest) (token :: more) := by
  -- There is no symbol whose second character is a parenthesis.
  rcases Token.length_symbol? h with hlength | hlength
  · obtain ⟨a, rfl⟩ := List.length_eq_one_iff.1 hlength
    refine .token (begins_of_one h ?_ ?_) hrest
    · rintro _ ⟨⟩
      simp
    · rintro - _ ⟨⟩
      rfl
  · obtain ⟨a, b, rfl⟩ := List.length_eq_two.1 hlength
    exact .token (begins_of_two h _) hrest

/-- The text splits into the tokens wherever no name or number goes on behind it. -/
def Writes (text : List Char) (tokens : List Token) : Prop :=
  ∀ rest more, (∀ c ∈ rest.head?, isNameChar c = false) → Splits rest more →
    Splits (text ++ rest) (tokens ++ more)

/-- In parentheses the text may be followed by anything. -/
theorem Writes.group (h : Writes text tokens) (hrest : Splits rest more) :
    Splits ('(' :: (text ++ ')' :: rest)) (.leftParen :: (tokens ++ .rightParen :: more)) := by
  have hopen : ∀ rest, Begins ['('] .leftParen rest := fun _ => begins_of_one rfl (by simp) nofun
  have hclose : Begins [')'] .rightParen rest := begins_of_one rfl (by simp) nofun
  have hinner := h _ _ (by rintro _ ⟨⟩; rfl) (Splits.token hclose hrest)
  have hgroup := Splits.token (hopen _) hinner
  exact hgroup

theorem writes_count : Writes ['n'] [.count] :=
  fun _ _ hhead hrest => .token (begins_of_one rfl (by simp) fun _ => hhead) hrest

theorem writes_number {v : Int64} (h : 0 ≤ v.toInt) :
    Writes (toString v.toInt).toList [.number v] := by
  intro rest more hhead hrest
  obtain ⟨m, hm⟩ := Int.eq_ofNat_of_zero_le h
  have htext : (toString v.toInt).toList = Nat.toDigits 10 m := by
    rw [hm]
    exact Nat.toList_repr
  rw [htext]
  refine .token (begins_digits_iff.2 ⟨isDigits_toDigits m, ?_, fun d hd => ?_⟩) hrest
  · rw [value_toDigits, hm]
  · have h := hhead d hd
    simp only [isNameChar, Char.isAlphanum, Bool.or_eq_false_iff] at h
    exact h.1.2

/-- The text of an expression splits into its tokens. -/
theorem Expr.writes_render {e : Expr} (h : e.HasNumerals) : Writes e.render.toList e.tokens := by
  induction e with
  | count => exact writes_count
  | literal v => exact writes_number h
  | unary op e ih =>
    intro rest more _ hrest
    have := splits_symbol op.token op.symbol?_token ((ih h).group hrest)
    simpa [render, tokens] using this
  | binary op l r ihl ihr =>
    intro rest more _ hrest
    have := (ihl h.1).group (splits_symbol op.token op.symbol?_token ((ihr h.2).group hrest))
    simpa [render, tokens] using this
  | choice c t f ihc iht ihf =>
    intro rest more _ hrest
    have hno := splits_symbol .colon rfl ((ihf h.2.2).group hrest)
    have hyes := splits_symbol .question rfl ((iht h.2.1).group hno)
    simpa [render, tokens] using (ihc h.1).group hyes

end Splits

/-- The character separates nothing: neither words nor fields, and no line break starts with it. -/
def IsPlain (c : Char) : Prop :=
  isBlank c = false ∧ c ≠ ';' ∧ c ≠ '\\'

instance : DecidablePred IsPlain := fun _ => instDecidableAnd

theorem isPlain_of_isDigit {c : Char} (hc : c.isDigit = true) : IsPlain c := by
  refine ⟨not_isBlank_of_isDigit hc, ?_, ?_⟩ <;>
  · rintro rfl
    exact absurd hc (by decide)

/-- No character of the text separates anything. -/
def IsPlainText (text : List Char) : Prop :=
  ∀ c ∈ text, IsPlain c

instance : DecidablePred IsPlainText := fun text => List.decidableBAll _ text

theorem IsPlainText.append {text text' : List Char} (h : IsPlainText text)
    (h' : IsPlainText text') : IsPlainText (text ++ text') :=
  List.forall_mem_append.2 ⟨h, h'⟩

theorem isPlainText_toDigits (n : Nat) : IsPlainText (Nat.toDigits 10 n) :=
  fun c hc => isPlain_of_isDigit ((isDigits_toDigits n).2 c hc)

theorem Expr.isPlainText_render {e : Expr} (h : e.HasNumerals) : IsPlainText e.render.toList := by
  have hopen : IsPlainText "(".toList := by decide
  have hclose : IsPlainText ")".toList := by decide
  induction e with
  | count => decide
  | literal v =>
    obtain ⟨m, hm⟩ := Int.eq_ofNat_of_zero_le h
    have htext : (literal v).render.toList = Nat.toDigits 10 m := by
      rw [render, hm]
      exact Nat.toList_repr
    rw [htext]
    exact isPlainText_toDigits m
  | unary op e ih =>
    have hop : IsPlainText op.spelling.toList := by cases op <;> decide
    simp only [render, String.toList_append]
    exact ((hop.append hopen).append (ih h)).append hclose
  | binary op l r ihl ihr =>
    have hop : IsPlainText op.spelling.toList := by cases op <;> decide
    simp only [render, String.toList_append]
    exact (((((hopen.append (ihl h.1)).append hclose).append hop).append hopen).append
      (ihr h.2)).append hclose
  | choice c t f ihc iht ihf =>
    have hquestion : IsPlainText ")?(".toList := by decide
    have hcolon : IsPlainText "):(".toList := by decide
    simp only [render, String.toList_append]
    exact (((((hopen.append (ihc h.1)).append hquestion).append (iht h.2.1)).append hcolon).append
      (ihf h.2.2)).append hclose

/-- The text of an expression denotes it, if it is short enough, unless it is nested too deep. -/
theorem Expr.parse_render {e : Expr} (h : e.HasNumerals) (hshort : e.render.utf8ByteSize ≤ 1024) :
    Expr.parse e.render = if e.nest ≤ 64 then .ok e else .error .tooDeep := by
  refine parse_eq_of_derives hshort ?_ e.derives_tokens
  have hwhole : beforeSemicolon e.render.toList = e.render.toList :=
    List.takeWhile_eq_self_iff.2 fun c hc => bne_iff_ne.2 (e.isPlainText_render h c hc).2.1
  have hsplits := Expr.writes_render h [] [] nofun .nil
  rwa [List.append_nil, List.append_nil, ← hwhole] at hsplits

/-! ### Headers -/

theorem isTrimmed_of_not_isBlank {text : List Char} (h : ∀ c ∈ text, isBlank c = false) :
    IsTrimmed text :=
  trim_eq_self_iff.2 ⟨fun c hc => h c (List.mem_of_head? hc),
    fun c hc => h c (List.mem_of_getLast? hc)⟩

theorem isCount_toDigits {count : Nat} (h : count < 2 ^ 64) :
    IsCount (Nat.toDigits 10 count) count :=
  ⟨_, .inl rfl, isDigits_toDigits count, value_toDigits count, h⟩

namespace Rule

/-- The header with a number of forms and the text of an expression. -/
def header (count : Nat) (text : String) : String :=
  "nplurals=" ++ toString count ++ "; plural=" ++ text ++ ";"

theorem lists_header (count : Nat) {text : String} (htrimmed : IsTrimmed text.toList)
    (hsemicolon : ';' ∉ text.toList) (hbackslash : '\\' ∉ text.toList) :
    Lists (unbroken (header count text))
      [("nplurals".toList, Nat.toDigits 10 count), ("plural".toList, text.toList)] := by
  have hdigits := isPlainText_toDigits count
  have hheader : (header count text).toList = "nplurals=".toList ++ Nat.toDigits 10 count ++
      "; plural=".toList ++ text.toList ++ ";".toList := by
    simp only [header, String.toList_append, Nat.toString_eq_repr, Nat.toList_repr]
  have hunbroken : unbroken (header count text) = (header count text).toList := by
    refine replacePair_eq_self fun h => ?_
    have hmem := h.subset (List.mem_cons_self (a := '\\'))
    simp only [hheader, List.mem_append] at hmem
    rcases hmem with (((hmem | hmem) | hmem) | hmem) | hmem
    · exact absurd hmem (by decide)
    · exact (hdigits _ hmem).2.2 rfl
    · exact absurd hmem (by decide)
    · exact hbackslash hmem
    · exact absurd hmem (by decide)
  have hnames : trim "nplurals".toList = "nplurals".toList ∧
      trim " plural".toList = "plural".toList := by decide
  have hcount : Part ("nplurals=".toList ++ Nat.toDigits 10 count)
      (some ("nplurals".toList, Nat.toDigits 10 count)) :=
    part_some_iff.2 (field?_eq_some_iff.2 ⟨"nplurals".toList, _, rfl, by decide, hnames.1,
      isTrimmed_of_not_isBlank fun c hc => (hdigits c hc).1⟩)
  have hexpr : Part (" plural=".toList ++ text.toList) (some ("plural".toList, text.toList)) :=
    part_some_iff.2 (field?_eq_some_iff.2 ⟨" plural".toList, _, rfl, by decide, hnames.2,
      htrimmed⟩)
  have hfirst : ';' ∉ "nplurals=".toList ++ Nat.toDigits 10 count := fun hmem =>
    (List.mem_append.1 hmem).elim (absurd · (by decide)) fun hmem => (hdigits _ hmem).2.1 rfl
  have hsecond : ';' ∉ " plural=".toList ++ text.toList := fun hmem =>
    (List.mem_append.1 hmem).elim (absurd · (by decide)) hsemicolon
  have hlists := Lists.more hfirst hcount
    (.more hsecond hexpr (.last List.not_mem_nil (.blank .nil)))
  rw [hunbroken, hheader]
  simpa using hlists

/-- What a field with the text of an expression is read as. -/
theorem read_of_expr {segment value : List Char}
    (h : field? segment = some ("plural".toList, value)) :
    Clause.read segment = match Expr.parse (String.ofList value) with
      | .ok e => .ok (.expr e)
      | .error fault => .error (.expression fault) := by
  obtain ⟨before, after, hsegment, hbefore, hname, rfl⟩ := field?_eq_some_iff.1 h
  rw [Clause.read, cut?_eq_some_iff.2 ⟨hsegment, hbefore⟩]
  have hne : "plural".toList ≠ "nplurals".toList := by decide
  cases hparse : Expr.parse (String.ofList (trim after)) with
  | ok e => simp only [hname, if_neg hne, hparse, ↓reduceIte]
  | error fault => simp only [hname, if_neg hne, hparse, ↓reduceIte]

/-- Whether a header with two fields has a rule is up to its expression. -/
theorem parse_header {count : Nat} (hpositive : 0 < count) (hcount : count < 2 ^ 64)
    {text : String} (htrimmed : IsTrimmed text.toList) (hsemicolon : ';' ∉ text.toList)
    (hbackslash : '\\' ∉ text.toList) : parse (header count text) = match Expr.parse text with
      | .ok e => .ok ⟨count, e, hpositive⟩
      | .error fault => .error (.expression fault) := by
  -- There are two segments, of which the first one is well formed.
  have hassigns := lists_iff.1 (lists_header count htrimmed hsemicolon hbackslash)
  rw [← clauseTexts_eq] at hassigns
  obtain ⟨first, segments, hfirst, hsegments, htexts⟩ := List.forall₂_cons_right_iff.1 hassigns
  obtain ⟨second, segments, hsecond, hnil, rfl⟩ := List.forall₂_cons_right_iff.1 hsegments
  cases hnil
  have hread : Clause.read first = .ok (.formCount count) :=
    read_eq_ok_iff_gives.2 ⟨_, hfirst, (if_pos rfl).mpr ⟨count, isCount_toDigits hcount, rfl⟩⟩
  have hread' := read_of_expr hsecond
  rw [String.ofList_toList] at hread'
  rw [parse, htexts, List.mapM_cons, hread]
  simp only [List.mapM_cons, List.mapM_nil, hread']
  cases Expr.parse text with
  | ok e => exact make_eq_ok_iff.2 ⟨rfl, rfl⟩
  | error fault => rfl

/-- The form selected is the value of the expression, or the nearest one that there is. -/
theorem select_eq (rule : Rule) (n : Int64) :
    (rule.select n : Int) = max 0 (min (rule.expr.eval n).toInt (rule.formCount - 1)) := by
  have := rule.positive
  rw [select]
  omega

/-- The text of a rule is read back: for any number of forms from 1 to 2⁶⁴ - 1 and any expression
    with numerals the header with the two has the rule that consists of them, provided that the
    text of the expression has at most 1024 bytes and is nested at most 64 levels deep. If only
    the depth is exceeded, this is the fault of the header. The rule selects the form whose index
    is the value of the expression, or the nearest one that there is. -/
theorem parse_header_render {count : Nat} (hpositive : 1 ≤ count) (hcount : count < 2 ^ 64)
    {e : Expr} (he : e.HasNumerals) (hshort : e.render.utf8ByteSize ≤ 1024) :
    (e.nest ≤ 64 → ∃ rule, parse (header count e.render) = .ok rule ∧ rule.formCount = count ∧
      rule.expr = e ∧
      ∀ n, (rule.select n : Int) = max 0 (min (e.eval n).toInt (count - 1))) ∧
    (64 < e.nest → parse (header count e.render) = .error (.expression .tooDeep)) := by
  have hplain := e.isPlainText_render he
  have hparse := parse_header hpositive hcount
    (isTrimmed_of_not_isBlank fun c hc => (hplain c hc).1)
    (fun hmem => (hplain _ hmem).2.1 rfl) fun hmem => (hplain _ hmem).2.2 rfl
  rw [Expr.parse_render he hshort] at hparse
  constructor
  · intro hnest
    rw [if_pos hnest] at hparse
    exact ⟨_, hparse, rfl, rfl, fun n => select_eq ⟨count, e, hpositive⟩ n⟩
  · intro hnest
    rw [if_neg (Nat.not_le.2 hnest)] at hparse
    exact hparse

/-- An expression that is nested as deep as is allowed. -/
def deepest : Expr := .binary .ne ((Expr.unary .not)^[31] .count) (.literal 1)

/-- An expression that is nested one level deeper. -/
def tooDeep : Expr := (Expr.unary .not)^[32] .count

/-- The first of the two can be read back, the second one cannot. -/
theorem parse_header_render_deepest :
    (deepest.HasNumerals ∧ deepest.render.utf8ByteSize ≤ 1024 ∧ deepest.nest = 64 ∧
      ∃ rule, parse (header 2 deepest.render) = .ok rule ∧ rule.formCount = 2 ∧
        rule.expr = deepest ∧
        ∀ n, (rule.select n : Int) = max 0 (min (deepest.eval n).toInt ((2 : Nat) - 1))) ∧
    tooDeep.HasNumerals ∧ tooDeep.render.utf8ByteSize ≤ 1024 ∧ tooDeep.nest = 65 ∧
      parse (header 2 tooDeep.render) = .error (.expression .tooDeep) := by
  have hdeepest : deepest.HasNumerals := by decide
  have htooDeep : tooDeep.HasNumerals := by decide
  have hshort : deepest.render.utf8ByteSize ≤ 1024 := by decide +kernel
  have hshort' : tooDeep.render.utf8ByteSize ≤ 1024 := by decide +kernel
  have hnest : deepest.nest = 64 := by decide
  have hnest' : tooDeep.nest = 65 := by decide
  exact ⟨⟨hdeepest, hshort, hnest, (parse_header_render (by decide) (by decide) hdeepest hshort).1
    (Nat.le_of_eq hnest)⟩, htooDeep, hshort', hnest',
    (parse_header_render (by decide) (by decide) htooDeep hshort').2 (by rw [hnest']; decide)⟩

end Rule

end MessageCatalog.Plural
