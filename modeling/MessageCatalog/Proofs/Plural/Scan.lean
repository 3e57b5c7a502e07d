import MessageCatalog.Plural.Scan

/-!
# How a text splits into tokens

Blanks separate tokens, and a token is as long as the text allows: no longer start
of the text has the form of a token (`Begins`). The digits of a number have that
form whatever its size, so a number that is too great is not cut short, it is none.

* `Splits`: the texts that are a sequence of tokens;
* `Scan.ofText_eq_iff`: a scan without a fault splits the text before the first
  semicolon.
-/

namespace MessageCatalog.Plural

/-- The one spelling of a token that is no number. -/
def Token.symbol? : Token → Option (List Char)
  | count => some ['n']
  | number _ => none
  | leftParen => some ['(']
  | rightParen => some [')']
  | question => some ['?']
  | colon => some [':']
  | plus => some ['+']
  | minus => some ['-']
  | star => some ['*']
  | slash => some ['/']
  | percent => some ['%']
  | bang => some ['!']
  | equal => some ['=', '=']
  | notEqual => some ['!', '=']
  | less => some ['<']
  | lessEqual => some ['<', '=']
  | greater => some ['>']
  | greaterEqual => some ['>', '=']
  | and => some ['&', '&']
  | or => some ['|', '|']

/-- The text is a run of digits. -/
def IsDigits (text : List Char) : Prop :=
  text ≠ [] ∧ ∀ c ∈ text, c.isDigit = true

/-- The text has the form of a token. -/
def IsLexeme (text : List Char) : Prop :=
  (∃ token : Token, token.symbol? = some text) ∨ IsDigits text

/-- The text is a spelling of the token. A number with more than 63 bits has no token. -/
inductive Spells : List Char → Token → Prop
  | symbol {text : List Char} {token : Token} : token.symbol? = some text → Spells text token
  | digits {text : List Char} {v : Int64} : IsDigits text → v.toInt = Numeral.value text →
      Spells text (.number v)

/-- The text `lexeme ++ after` begins with a token spelled `lexeme`. -/
structure Begins (lexeme : List Char) (token : Token) (after : List Char) : Prop where
  spells : Spells lexeme token
  /-- The spelling is the longest one. -/
  longest : ∀ text, text <+: lexeme ++ after → IsLexeme text → text.length ≤ lexeme.length
  /-- The count is no part of a longer name. -/
  alone : token = .count → ∀ c ∈ after.head?, isNameChar c = false

/-- The text splits into the tokens. -/
inductive Splits : List Char → List Token → Prop
  | nil : Splits [] []
  | blank {c : Char} {text : List Char} {tokens : List Token} : isBlank c = true →
      Splits text tokens → Splits (c :: text) tokens
  | token {lexeme after : List Char} {token : Token} {tokens : List Token} :
      Begins lexeme token after → Splits after tokens →
      Splits (lexeme ++ after) (token :: tokens)

/-! ## Spellings -/

theorem Token.length_symbol? {token : Token} {text : List Char} (h : token.symbol? = some text) :
    text.length = 1 ∨ text.length = 2 := by
  cases token <;> cases h <;> decide

theorem Token.not_isDigit_of_symbol? {token : Token} {text : List Char}
    (h : token.symbol? = some text) : ∀ c ∈ text, c.isDigit = false := by
  have hall : text.all (fun c => !c.isDigit) = true := by
    cases token <;> cases h <;> decide
  intro c hc
  have hc := List.all_eq_true.1 hall c hc
  rwa [Bool.not_eq_true'] at hc

/-- A symbol neither has a blank nor the mark that ends an expression. -/
theorem Token.plain_of_symbol? {token : Token} {text : List Char}
    (h : token.symbol? = some text) : ∀ c ∈ text, isBlank c = false ∧ c ≠ ';' := by
  have hall : text.all (fun c => !isBlank c && c != ';') = true := by
    cases token <;> cases h <;> decide
  intro c hc
  have hc := List.all_eq_true.1 hall c hc
  rw [Bool.and_eq_true, Bool.not_eq_true', bne_iff_ne] at hc
  exact hc

theorem not_isBlank_of_isDigit {c : Char} (h : c.isDigit = true) : isBlank c = false := by
  rw [isBlank]
  simp only [Char.isDigit, Bool.and_eq_true, decide_eq_true_eq, UInt32.le_iff_toNat_le] at h
  simp only [blankRanges, List.any_cons, List.any_nil, Bool.or_false, Bool.or_eq_false_iff,
    Bool.and_eq_false_iff, decide_eq_false_iff_not, Char.toNat]
  have h₁ : 48 ≤ c.val.toNat := h.1
  have h₂ : c.val.toNat ≤ 57 := h.2
  omega

namespace Spells

variable {lexeme : List Char} {token : Token}

theorem ne_nil (h : Spells lexeme token) : lexeme ≠ [] := by
  cases h with
  | symbol h =>
    rintro rfl
    simpa using Token.length_symbol? h
  | digits h => exact h.1

theorem plain (h : Spells lexeme token) : ∀ c ∈ lexeme, isBlank c = false ∧ c ≠ ';' := by
  cases h with
  | symbol h => exact Token.plain_of_symbol? h
  | digits h =>
    intro c hc
    refine ⟨not_isBlank_of_isDigit (h.2 c hc), ?_⟩
    rintro rfl
    exact absurd (h.2 _ hc) (by decide)

end Spells

/-- If a text is longer than a start of it and has the form of a token, so has one that is
    longer by a single character. -/
theorem IsLexeme.extend {lexeme more : List Char} {d : Char} (hne : lexeme ≠ [])
    (h : IsLexeme (lexeme ++ d :: more)) : IsLexeme (lexeme ++ [d]) := by
  rcases h with ⟨token, h⟩ | h
  · have hlength := Token.length_symbol? h
    have hpos := List.length_pos_iff.2 hne
    cases more with
    | nil => exact .inl ⟨token, h⟩
    | cons c more =>
      simp only [List.length_append, List.length_cons] at hlength
      omega
  · refine .inr ⟨by simp, fun c hc => h.2 c ?_⟩
    simp only [List.mem_append, List.mem_cons, List.not_mem_nil, or_false] at hc ⊢
    exact hc.imp_right .inl

/-- A spelling is the longest one if the next character does not make a longer one. -/
theorem longest_iff {lexeme after : List Char} (hne : lexeme ≠ []) :
    (∀ text, text <+: lexeme ++ after → IsLexeme text → text.length ≤ lexeme.length) ↔
      ∀ d ∈ after.head?, ¬IsLexeme (lexeme ++ [d]) := by
  constructor
  · intro h d hd hlexeme
    obtain ⟨more, rfl⟩ := List.head?_eq_some_iff.1 hd
    have hle := h _ ⟨more, by simp⟩ hlexeme
    rw [List.length_append] at hle
    exact Nat.not_succ_le_self _ hle
  · intro h text hprefix hlexeme
    rcases List.prefix_or_prefix_of_prefix hprefix (List.prefix_append lexeme after) with
      hshort | ⟨more, rfl⟩
    · exact hshort.length_le
    · cases more with
      | nil => exact Nat.le_of_eq (congrArg List.length (List.append_nil lexeme))
      | cons d more =>
        obtain ⟨rest, rfl⟩ := (List.prefix_append_right_inj lexeme).1 hprefix
        exact absurd (hlexeme.extend hne) (h d rfl)

theorem isLexeme_pair_iff {a b : Char} : IsLexeme [a, b] ↔
    (a.isDigit = true ∧ b.isDigit = true) ∨
      [a, b] ∈ [['=', '='], ['!', '='], ['<', '='], ['>', '='], ['&', '&'], ['|', '|']] := by
  rw [IsLexeme, or_comm]
  refine or_congr ⟨fun h => ⟨h.2 a (by simp), h.2 b (by simp)⟩, fun ⟨ha, hb⟩ => ?_⟩ ?_
  · refine ⟨by simp, fun c hc => ?_⟩
    rcases List.mem_cons.1 hc with rfl | hc
    · exact ha
    · rwa [List.mem_singleton.1 hc]
  · constructor
    · rintro ⟨token, h⟩
      cases token <;> cases h <;> decide
    · intro h
      simp only [List.mem_cons, List.not_mem_nil, or_false] at h
      rcases h with h | h | h | h | h | h <;> rw [h]
      · exact ⟨.equal, rfl⟩
      · exact ⟨.notEqual, rfl⟩
      · exact ⟨.lessEqual, rfl⟩
      · exact ⟨.greaterEqual, rfl⟩
      · exact ⟨.and, rfl⟩
      · exact ⟨.or, rfl⟩

/-! ## The token at the start of a text -/

theorem begins_iff {lexeme after : List Char} {token : Token} : Begins lexeme token after ↔
    Spells lexeme token ∧ (∀ d ∈ after.head?, ¬IsLexeme (lexeme ++ [d])) ∧
      (token = .count → ∀ c ∈ after.head?, isNameChar c = false) :=
  ⟨fun h => ⟨h.spells, (longest_iff h.spells.ne_nil).1 h.longest, h.alone⟩,
    fun ⟨hspells, hlongest, halone⟩ =>
      ⟨hspells, (longest_iff hspells.ne_nil).2 hlongest, halone⟩⟩

/-- No token is longer than a symbol of two characters that starts with it. -/
theorem not_isLexeme_append_of_two {token : Token} {a b : Char}
    (h : token.symbol? = some [a, b]) (d : Char) : ¬IsLexeme ([a, b] ++ [d]) := by
  rintro (⟨token', h'⟩ | h')
  · have hlength := Token.length_symbol? h'
    simp at hlength
  · have ha := Token.not_isDigit_of_symbol? h a (by simp)
    rw [h'.2 a (by simp)] at ha
    cases ha

/-- A symbol of two characters is the longest token where it stands. -/
theorem begins_of_two {token : Token} {a b : Char} (h : token.symbol? = some [a, b])
    (after : List Char) : Begins [a, b] token after :=
  begins_iff.2 ⟨.symbol h, fun d _ => not_isLexeme_append_of_two h d, by rintro rfl; cases h⟩

/-- A symbol of one character is the longest token where no other one makes it longer. -/
theorem begins_of_one {token : Token} {a : Char} (h : token.symbol? = some [a])
    {after : List Char} (hlonger : ∀ d ∈ after.head?,
      [a, d] ∉ [['=', '='], ['!', '='], ['<', '='], ['>', '='], ['&', '&'], ['|', '|']])
    (halone : token = .count → ∀ c ∈ after.head?, isNameChar c = false) :
    Begins [a] token after := by
  refine begins_iff.2 ⟨.symbol h, fun d hd hlexeme => ?_, halone⟩
  rcases isLexeme_pair_iff.1 hlexeme with ⟨ha, _⟩ | hmem
  · rw [Token.not_isDigit_of_symbol? h a (by simp)] at ha
    cases ha
  · exact hlonger d hd hmem

/-- The digits of a number are the longest token if no more digits follow. -/
theorem begins_digits_iff {lexeme after : List Char} {v : Int64} :
    Begins lexeme (.number v) after ↔
      IsDigits lexeme ∧ v.toInt = Numeral.value lexeme ∧ ∀ d ∈ after.head?, d.isDigit = false := by
  rw [begins_iff]
  constructor
  · rintro ⟨⟨⟩ | ⟨hdigits, hv⟩, hlongest, -⟩
    · contradiction
    · refine ⟨hdigits, hv, fun d hd => Bool.eq_false_iff.2 fun hdigit => ?_⟩
      refine hlongest d hd (.inr ⟨by simp, fun c hc => ?_⟩)
      rcases List.mem_append.1 hc with hc | hc
      · exact hdigits.2 c hc
      · rwa [List.mem_singleton.1 hc]
  · rintro ⟨hdigits, hv, hend⟩
    refine ⟨.digits hdigits hv, fun d hd hlexeme => ?_, nofun⟩
    have hdigit : d.isDigit = true := by
      rcases hlexeme with ⟨token, h⟩ | h
      · -- A symbol has no digits.
        obtain ⟨c, lexeme, rfl⟩ := List.exists_cons_of_ne_nil hdigits.1
        have hc := Token.not_isDigit_of_symbol? h c (by simp)
        rw [hdigits.2 c (by simp)] at hc
        cases hc
      · exact h.2 d (by simp)
    rw [hend d hd] at hdigit
    cases hdigit

theorem takeWhile_digits {lexeme after : List Char} (h : ∀ c ∈ lexeme, c.isDigit = true)
    (hend : ∀ d ∈ after.head?, d.isDigit = false) :
    (lexeme ++ after).takeWhile Char.isDigit = lexeme ∧
      (lexeme ++ after).dropWhile Char.isDigit = after := by
  rw [List.takeWhile_append_of_pos h, List.dropWhile_append_of_pos h]
  cases after with
  | nil => exact ⟨List.append_nil _, rfl⟩
  | cons d after =>
    have hd := Bool.eq_false_iff.1 (hend d rfl)
    rw [List.takeWhile_cons_of_neg hd, List.dropWhile_cons_of_neg hd]
    exact ⟨List.append_nil _, rfl⟩

theorem readNumber_eq_ok_iff {c : Char} {rest after : List Char} {token : Token}
    (hc : c.isDigit = true) : Token.readNumber (c :: rest) = .ok (token, after) ↔
      ∃ v, token = .number v ∧
        ∃ lexeme, c :: rest = lexeme ++ after ∧ Begins lexeme (.number v) after := by
  simp only [Token.readNumber, begins_digits_iff]
  constructor
  · intro h
    split at h
    case isFalse => cases h
    case isTrue hle =>
      cases h
      refine ⟨_, rfl, _, List.takeWhile_append_dropWhile.symm, ⟨?_, ?_⟩, ?_, ?_⟩
      · rw [List.takeWhile_cons_of_pos hc]
        exact List.cons_ne_nil _ _
      · exact List.all_eq_true.1 List.all_takeWhile
      · exact Int64.toInt_ofNat_of_lt (Nat.lt_succ_of_le hle)
      · intro d hd
        have h := List.head?_dropWhile_not Char.isDigit (c :: rest)
        rw [Option.mem_def.1 hd] at h
        exact h
  · rintro ⟨v, rfl, lexeme, htext, ⟨_, hdigits⟩, hv, hend⟩
    obtain ⟨htake, hdrop⟩ := takeWhile_digits hdigits hend
    have hle := Int64.toInt_le v
    rw [htext, htake, hdrop, if_pos (by omega)]
    have hofNat : (Int64.ofNat (Numeral.value lexeme)).toInt = v.toInt := by
      rw [hv, Int64.toInt_ofNat_of_lt]
      have := Int64.toInt_lt v
      omega
    rw [Int64.toInt_inj.1 hofNat]

theorem read_of_isDigit {c : Char} (hc : c.isDigit = true) (rest : List Char) :
    Token.read c rest = Token.readNumber (c :: rest) := by
  rw [Token.read, if_pos hc]
  all_goals
    rintro rfl
    exact absurd hc (by decide)

/-- The text is a token of one character and what follows it. -/
theorem begins_cons_of_one {token : Token} {a : Char} (h : token.symbol? = some [a])
    {rest : List Char} (hlonger : ∀ d ∈ rest.head?,
      [a, d] ∉ [['=', '='], ['!', '='], ['<', '='], ['>', '='], ['&', '&'], ['|', '|']])
    (halone : token = .count → ∀ c ∈ rest.head?, isNameChar c = false) :
    ∃ lexeme, a :: rest = lexeme ++ rest ∧ Begins lexeme token rest :=
  ⟨[a], rfl, begins_of_one h hlonger halone⟩

/-- The text is a token of two characters and what follows it. -/
theorem begins_cons_of_two {token : Token} {a b : Char} (h : token.symbol? = some [a, b])
    {rest : List Char} (hrest : rest.head? = some b) :
    ∃ lexeme, a :: rest = lexeme ++ rest.tail ∧ Begins lexeme token rest.tail := by
  obtain ⟨after, rfl⟩ := List.head?_eq_some_iff.1 hrest
  exact ⟨[a, b], rfl, begins_of_two h after⟩

/-- The token that is read is the one that the text begins with. -/
theorem begins_of_read {c : Char} {rest after : List Char} {token : Token}
    (h : Token.read c rest = .ok (token, after)) :
    ∃ lexeme, c :: rest = lexeme ++ after ∧ Begins lexeme token after := by
  unfold Token.read at h
  split at h
  case h_1 =>
    split at h
    · cases h
    case h_2 hnone =>
      cases h
      refine begins_cons_of_one rfl (by simp) fun _ d hd => ?_
      exact Bool.eq_false_iff.2 (Option.filter_eq_none_iff.1 hnone d hd)
  case h_2 | h_3 | h_4 | h_5 | h_6 | h_7 | h_8 | h_9 | h_10 =>
    cases h
    exact begins_cons_of_one rfl (by simp) nofun
  -- With an `=` behind them, these symbols start a longer one.
  case h_11 | h_12 | h_13 =>
    split at h
    case isTrue hhead =>
      cases h
      exact begins_cons_of_two rfl hhead
    case isFalse hhead =>
      cases h
      refine begins_cons_of_one rfl (fun d hd hmem => hhead ?_) nofun
      have hd' : d = '=' := by simpa using hmem
      rwa [hd'] at hd
  -- These characters are half a symbol.
  case h_14 | h_15 | h_16 =>
    split at h
    case isTrue hhead =>
      cases h
      exact begins_cons_of_two rfl hhead
    case isFalse => cases h
  case h_17 =>
    split at h
    case isTrue hc =>
      obtain ⟨v, rfl, hbegins⟩ := (readNumber_eq_ok_iff hc).1 h
      exact hbegins
    case isFalse => cases h

/-- The token that a text begins with is read. -/
theorem read_of_begins {c : Char} {rest lexeme after : List Char} {token : Token}
    (htext : c :: rest = lexeme ++ after) (h : Begins lexeme token after) :
    Token.read c rest = .ok (token, after) := by
  obtain ⟨hspells, hlonger, halone⟩ := begins_iff.1 h
  cases hspells with
  | digits hdigits hv =>
    obtain ⟨d, lexeme, rfl⟩ := List.exists_cons_of_ne_nil hdigits.1
    cases htext
    have hc : c.isDigit = true := hdigits.2 c (by simp)
    rw [read_of_isDigit hc]
    exact (readNumber_eq_ok_iff hc).2 ⟨_, rfl, c :: lexeme, rfl, h⟩
  | symbol hsymbol =>
    cases token with
    | number => cases hsymbol
    | count =>
      cases hsymbol
      cases htext
      -- The name ends here.
      have hnone : after.head?.filter isNameChar = none :=
        Option.filter_eq_none_iff.2 fun d hd => Bool.eq_false_iff.1 (halone rfl d hd)
      rw [List.append_eq, List.nil_append, Token.read, hnone]
    | bang | less | greater =>
      cases hsymbol
      cases htext
      -- With an `=` behind it, the symbol would not be the longest token.
      refine if_neg fun hhead => hlonger '=' hhead (isLexeme_pair_iff.2 (.inr ?_))
      decide
    | _ =>
      cases hsymbol
      cases htext
      rfl

/-- Reading the start of a text finds the token that it begins with. -/
theorem read_eq_ok_iff {c : Char} {rest after : List Char} {token : Token} :
    Token.read c rest = .ok (token, after) ↔
      ∃ lexeme, c :: rest = lexeme ++ after ∧ Begins lexeme token after :=
  ⟨begins_of_read, fun ⟨_, htext, h⟩ => read_of_begins htext h⟩

/-! ## Splitting -/

/-- What comes before the first semicolon, if there is one. -/
def beforeSemicolon (text : List Char) : List Char :=
  text.takeWhile (· != ';')

theorem beforeSemicolon_cons {c : Char} (hc : c ≠ ';') (rest : List Char) :
    beforeSemicolon (c :: rest) = c :: beforeSemicolon rest := by
  rw [beforeSemicolon, List.takeWhile_cons, if_pos (bne_iff_ne.2 hc), beforeSemicolon]

theorem beforeSemicolon_append {lexeme : List Char} (h : ∀ c ∈ lexeme, c ≠ ';')
    (after : List Char) : beforeSemicolon (lexeme ++ after) = lexeme ++ beforeSemicolon after :=
  List.takeWhile_append_of_pos fun c hc => bne_iff_ne.2 (h c hc)

/-- What follows a semicolon does not matter for the token in front of it. -/
theorem begins_beforeSemicolon_iff {lexeme after : List Char} {token : Token} :
    Begins lexeme token (beforeSemicolon after) ↔ Begins lexeme token after := by
  rw [begins_iff, begins_iff]
  refine and_congr_right fun hspells => ?_
  cases after with
  | nil => rfl
  | cons d after =>
    by_cases hd : d = ';'
    · subst hd
      -- The semicolon makes no token longer, and it is no part of a name.
      have hlonger : ¬IsLexeme (lexeme ++ [';']) := by
        rintro (⟨_, h⟩ | h)
        · exact (Token.plain_of_symbol? h ';' (by simp)).2 rfl
        · exact absurd (h.2 ';' (by simp)) (by decide)
      simp [beforeSemicolon, hlonger, show isNameChar ';' = false from rfl]
    · rw [beforeSemicolon_cons hd]
      rfl

theorem splits_nil_iff {tokens : List Token} : Splits [] tokens ↔ tokens = [] := by
  constructor
  · intro h
    generalize htext : ([] : List Char) = text at h
    cases h with
    | nil => rfl
    | blank => cases htext
    | token h =>
      exact absurd (List.append_eq_nil_iff.1 htext.symm).1 h.spells.ne_nil
  · rintro rfl
    exact .nil

theorem splits_cons_of_isBlank {c : Char} (hc : isBlank c = true) {text : List Char}
    {tokens : List Token} : Splits (c :: text) tokens ↔ Splits text tokens := by
  refine ⟨fun h => ?_, .blank hc⟩
  generalize htext : c :: text = whole at h
  cases h with
  | nil => cases htext
  | blank _ h =>
    cases htext
    exact h
  | @token lexeme _ _ _ h =>
    -- A token does not start with a blank.
    obtain ⟨d, lexeme, rfl⟩ := List.exists_cons_of_ne_nil h.spells.ne_nil
    cases htext
    rw [(h.spells.plain c (by simp)).1] at hc
    cases hc

theorem splits_trimStart_iff {text : List Char} {tokens : List Token} :
    Splits (trimStart text) tokens ↔ Splits text tokens := by
  induction text with
  | nil => rfl
  | cons c text ih =>
    by_cases hc : isBlank c = true
    · rw [trimStart, List.dropWhile_cons_of_pos hc, splits_cons_of_isBlank hc]
      exact ih
    · rw [trimStart, List.dropWhile_cons_of_neg hc]

theorem trimStart_beforeSemicolon (text : List Char) :
    trimStart (beforeSemicolon text) = beforeSemicolon (trimStart text) := by
  induction text with
  | nil => rfl
  | cons c text ih =>
    by_cases hc : isBlank c = true
    · have hne : c ≠ ';' := by
        rintro rfl
        exact absurd hc (by decide)
      rw [beforeSemicolon_cons hne, trimStart, List.dropWhile_cons_of_pos hc, trimStart,
        List.dropWhile_cons_of_pos hc]
      exact ih
    · have hstart : trimStart (c :: text) = c :: text := List.dropWhile_cons_of_neg hc
      rw [hstart, trimStart_eq_self_iff, beforeSemicolon, List.takeWhile_cons]
      intro d hd
      split at hd
      · cases hd
        exact Bool.eq_false_iff.2 hc
      · cases hd

/-- A text that starts neither with a blank nor with a semicolon splits into the token that
    is read and those of the text after it. -/
theorem splits_beforeSemicolon_cons_iff {c : Char} {rest : List Char} {tokens : List Token}
    (hblank : isBlank c = false) (hc : c ≠ ';') :
    Splits (beforeSemicolon (c :: rest)) tokens ↔
      ∃ token after more, Token.read c rest = .ok (token, after) ∧ tokens = token :: more ∧
        Splits (beforeSemicolon after) more := by
  constructor
  · intro h
    generalize htext : beforeSemicolon (c :: rest) = text at h
    cases h with
    | nil =>
      rw [beforeSemicolon_cons hc] at htext
      cases htext
    | blank hblank' =>
      rw [beforeSemicolon_cons hc] at htext
      cases htext
      rw [hblank] at hblank'
      cases hblank'
    | @token lexeme after token more h hmore =>
      -- Put back what comes from the first semicolon on.
      obtain ⟨tail, htail⟩ : beforeSemicolon (c :: rest) <+: c :: rest :=
        List.takeWhile_prefix _
      have hwhole : c :: rest = lexeme ++ (after ++ tail) := by
        rw [← List.append_assoc, ← htext, htail]
      have hafter : beforeSemicolon (after ++ tail) = after := by
        rw [hwhole, beforeSemicolon_append fun d hd => (h.spells.plain d hd).2] at htext
        exact List.append_cancel_left htext
      refine ⟨token, _, more, read_eq_ok_iff.2 ⟨lexeme, hwhole, ?_⟩, rfl, ?_⟩
      · rwa [← begins_beforeSemicolon_iff, hafter]
      · rwa [hafter]
  · rintro ⟨token, after, more, hread, rfl, hmore⟩
    obtain ⟨lexeme, hwhole, h⟩ := read_eq_ok_iff.1 hread
    rw [hwhole, beforeSemicolon_append fun d hd => (h.spells.plain d hd).2]
    exact .token (begins_beforeSemicolon_iff.2 h) hmore

/-- A scan without a fault has the tokens of the text before the first semicolon. -/
theorem Scan.ofText_eq_iff {text : List Char} {tokens : List Token} :
    Scan.ofText text = ⟨tokens, none⟩ ↔ Splits (beforeSemicolon text) tokens := by
  fun_induction Scan.ofText text generalizing tokens with
  | case1 text h =>
    rw [← splits_trimStart_iff, trimStart_beforeSemicolon, h, beforeSemicolon, List.takeWhile_nil,
      splits_nil_iff, Scan.mk.injEq, eq_comm]
    exact and_iff_left rfl
  | case2 text rest h =>
    rw [← splits_trimStart_iff, trimStart_beforeSemicolon, h, beforeSemicolon,
      List.takeWhile_cons_of_neg (by decide), splits_nil_iff, Scan.mk.injEq, eq_comm]
    exact and_iff_left rfl
  | case3 text c rest h hc fault hread =>
    have hblank : isBlank c = false := head?_trimStart text c (by rw [h]; rfl)
    rw [← splits_trimStart_iff, trimStart_beforeSemicolon, h,
      splits_beforeSemicolon_cons_iff hblank hc]
    constructor
    · rintro ⟨⟩
    · rintro ⟨token, after, more, hread', _⟩
      cases hread.symm.trans hread'
  | case4 text c rest h hc token after hread =>
    rename_i scan ih
    have hblank : isBlank c = false := head?_trimStart text c (by rw [h]; rfl)
    rw [← splits_trimStart_iff, trimStart_beforeSemicolon, h,
      splits_beforeSemicolon_cons_iff hblank hc]
    constructor
    · intro hscan
      obtain ⟨rfl, hfault⟩ := Scan.mk.inj hscan
      exact ⟨token, after, scan.tokens, hread, rfl, ih.1 (by rw [← hfault])⟩
    · rintro ⟨token', after', more, hread', rfl, hmore⟩
      cases hread.symm.trans hread'
      have hscan : scan = ⟨more, none⟩ := ih.2 hmore
      rw [hscan]

end MessageCatalog.Plural
