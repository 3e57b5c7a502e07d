import Mathlib
import MessageCatalog.Proofs.Plural.Descent
import MessageCatalog.Proofs.Plural.Rendering

/-!
# What a text can cost

Whatever a text is, reading it stays within bounds. The descent through it has at most 64 levels
open, and two calls for each of them. Chains open no levels, so they may be as long as the text
allows; but each node of a tree has a token of its own and each token a character, so the tree is no
larger than the text. Numbers have no sign, so none of them is negative.

* `Derives.size_le`: a tree has no more nodes than it has tokens;
* `Splits.length_le`: a text has no more tokens than characters;
* `Expr.descent_bounded`: the bounds for the text of an expression.
-/

namespace MessageCatalog.Plural

/-- The greatest number of nodes on a way down an expression. Evaluation goes down these ways, from
    a node to its parts. -/
def Expr.height : Expr → Nat
  | count | literal _ => 1
  | unary _ e => e.height + 1
  | binary _ l r => max l.height r.height + 1
  | choice c t f => max c.height (max t.height f.height) + 1

theorem Expr.height_le_size (e : Expr) : e.height ≤ e.size := by
  induction e with
  | count => exact Nat.le_refl _
  | literal v => exact Nat.le_refl _
  | unary op e ih => exact Nat.succ_le_succ ih
  | binary op l r ihl ihr =>
    rw [height, size]
    omega
  | choice c t f ihc iht ihf =>
    rw [height, size]
    omega

/-! ### Tokens -/

/-- Each node of a tree has a token of its own. -/
theorem Derives.size_le {p : Phrase} {d : Nat} {tokens : List Token} {e : Expr}
    (h : Derives p d tokens e) : e.size ≤ tokens.length := by
  induction h with
  | plain _ ih => exact ih
  | choice _ _ _ ih ih₁ ih₂ =>
    simp only [Expr.size, List.length_append, List.length_cons]
    omega
  | tighter _ _ ih => exact ih
  | binary _ _ _ ih₁ ih₂ =>
    simp only [Expr.size, List.length_append, List.length_cons]
    omega
  | single _ ih => exact ih
  | unary _ _ ih => exact Nat.succ_le_succ ih
  | bare _ ih => exact ih
  | count => exact Nat.le_refl _
  | number v => exact Nat.le_refl _
  | group _ ih =>
    simp only [List.cons_append, List.length_append, List.length_cons]
    omega

/-- The numbers of a tree are among its tokens. -/
theorem Derives.hasNumerals {p : Phrase} {d : Nat} {tokens : List Token} {e : Expr}
    (h : Derives p d tokens e) (hnumbers : ∀ v, .number v ∈ tokens → 0 ≤ v.toInt) :
    e.HasNumerals := by
  induction h with
  | plain _ ih => exact ih hnumbers
  | choice _ _ _ ih ih₁ ih₂ =>
    refine ⟨ih fun v hv => hnumbers v ?_, ih₁ fun v hv => hnumbers v ?_,
      ih₂ fun v hv => hnumbers v ?_⟩ <;> simp [hv]
  | tighter _ _ ih => exact ih hnumbers
  | binary _ _ _ ih₁ ih₂ =>
    refine ⟨ih₁ fun v hv => hnumbers v ?_, ih₂ fun v hv => hnumbers v ?_⟩ <;> simp [hv]
  | single _ ih => exact ih hnumbers
  | unary _ _ ih => exact ih fun v hv => hnumbers v (List.mem_cons_of_mem _ hv)
  | bare _ ih => exact ih hnumbers
  | count => trivial
  | number v => exact hnumbers v (List.mem_singleton_self _)
  | group _ ih => exact ih fun v hv => hnumbers v (by simp [hv])

/-! ### Texts -/

/-- Each token of a text has a character of its own. -/
theorem Splits.length_le {text : List Char} {tokens : List Token} (h : Splits text tokens) :
    tokens.length ≤ text.length := by
  induction h with
  | nil => exact Nat.le_refl _
  | blank _ _ ih => exact Nat.le_succ_of_le ih
  | token hbegins _ ih =>
    have hlexeme := List.length_pos_iff.2 hbegins.spells.ne_nil
    rw [List.length_append, List.length_cons]
    omega

/-- Only digits spell a number. -/
theorem Splits.number_nonneg {text : List Char} {tokens : List Token} (h : Splits text tokens)
    {v : Int64} (hv : .number v ∈ tokens) : 0 ≤ v.toInt := by
  induction h with
  | nil => cases hv
  | blank _ _ ih => exact ih hv
  | token hbegins _ ih =>
    cases hv with
    | head =>
      cases hbegins.spells with
      | symbol h => cases h
      | digits _ hvalue => exact hvalue ▸ Int.natCast_nonneg _
    | tail _ hv => exact ih hv

/-- A character takes at least a byte. -/
theorem length_le_utf8Len (chars : List Char) : chars.length ≤ String.utf8Len chars := by
  induction chars with
  | nil => exact Nat.le_refl _
  | cons c chars ih => exact Nat.add_le_add ih (Char.utf8Size_pos c)

/-- The tree of a text is no larger than the text, and has no negative numbers. -/
theorem Expr.size_le_of_parse {text : String} {e : Expr} (h : parse text = .ok e) :
    e.size ≤ text.utf8ByteSize ∧ text.utf8ByteSize ≤ 1024 ∧ e.HasNumerals := by
  obtain ⟨hshort, tokens, hsplits, d, -, hderives⟩ := parse_eq_ok_iff_derives.1 h
  refine ⟨?_, hshort, hderives.hasNumerals fun v => hsplits.number_nonneg⟩
  calc
    e.size ≤ tokens.length := hderives.size_le
    _ ≤ (beforeSemicolon text.toList).length := hsplits.length_le
    _ ≤ text.toList.length := (List.takeWhile_sublist _).length_le
    _ ≤ String.utf8Len text.toList := length_le_utf8Len _
    _ = text.utf8ByteSize := by rw [← String.utf8ByteSize_ofList, String.ofList_toList]

/-- The descent through a text ends and finds what the text denotes. Of the calls that are open at
    one time, at most 64 open a level, or 65 exactly if the text is nested too deep; with the others
    there are at most two calls for each of 64 levels, and one more. Every pass of a loop takes
    tokens. If there is a tree, all levels are closed again, and the tree is no larger than the
    text, which has at most 1024 bytes; its numbers, which have 64 bits, are not negative. -/
theorem Expr.descent_bounded (text : String) :
    (descent text).result = parse text ∧
      (descent text).levels ≤ 65 ∧
      ((descent text).levels = 65 ↔ parse text = .error .tooDeep) ∧
      (descent text).calls ≤ 129 ∧
      (∀ pass ∈ (descent text).passes, pass.2 < pass.1) ∧
      ∀ e, parse text = .ok e → (descent text).depth = 0 ∧ e.size ≤ text.utf8ByteSize ∧
        e.size ≤ 1024 ∧ e.height ≤ e.size ∧ e.HasNumerals := by
  have h := within_descent text
  have hlevels : (descent text).levels = 65 ↔ 64 < (descent text).levels :=
    ⟨fun heq => heq ▸ Nat.lt_succ_self 64, fun hlt => Nat.le_antisymm h.levels_le hlt⟩
  refine ⟨h.result, h.levels_le, hlevels.trans h.tooDeep_iff, h.calls_le, h.passes,
    fun e he => ?_⟩
  obtain ⟨hsize, hshort, hnumerals⟩ := size_le_of_parse he
  exact ⟨h.depth_eq e he, hsize, hsize.trans hshort, e.height_le_size, hnumerals⟩

/-- A choice with an operator in front of parentheses in a branch: four levels are opened one in
    the other, and all of them are closed again. -/
theorem Expr.descent_bounded_choice :
    let e := choice .count .count (.unary .neg (.binary .add .count .count))
    descent "n ? n : -(n + n)" =
        { result := .ok e, depth := 0, calls := 6, levels := 4, passes := [(3, 1)] } ∧
      e.size ≤ 16 := by
  intro e
  have hrun : descent "n ? n : -(n + n)" =
      { result := .ok e, depth := 0, calls := 6, levels := 4, passes := [(3, 1)] } := by cbv
  obtain ⟨hresult, -, -, -, -, hparsed⟩ := descent_bounded "n ? n : -(n + n)"
  have hparse : parse "n ? n : -(n + n)" = .ok e := by rw [← hresult, hrun]
  exact ⟨hrun, (hparsed e hparse).2.1⟩

set_option maxRecDepth 10000 in
/-- In parentheses the levels are only one half of the calls: 66 of them are open at one time in a
    text that is not nested too deep. -/
theorem Expr.descent_parentheses :
    ∃ run, descent "((((((((((((((((((((((((((((((((n))))))))))))))))))))))))))))))))" = run ∧
      65 < run.calls ∧ run.result = .ok .count := by
  refine ⟨{ result := .ok .count, depth := 0, calls := 66, levels := 33, passes := [] },
    ?_, ?_, rfl⟩
  · cbv
  · exact Nat.lt_succ_self 65

end MessageCatalog.Plural
