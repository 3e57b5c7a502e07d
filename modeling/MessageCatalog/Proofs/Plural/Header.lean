import Mathlib.Algebra.Ring.Nat
import Mathlib.Data.List.Forall2
import MessageCatalog.Plural.Rule
import MessageCatalog.Proofs.Plural.Parser
import MessageCatalog.Proofs.Text.Blank

/-!
# The grammar of plural headers

Between its semicolons a `Plural-Forms` header has parts. A part is blank, or it is a field: a
name and a value with an equals sign between them, the first one of the part, and with blanks
around each of the two. All that the rule of a header depends on is its fields, and of these only
the ones of two names, of which in turn the last ones count.

Reading goes another way. It trims each part as a whole, drops the parts that are then empty,
and only afterwards cuts a part in two and trims the halves. But the equals sign is no blank, so
that what was trimmed first is trimmed again (`field?_trim`).

* `Lists`: the texts that list fields; every segment of such a text has an equals sign
  (`exists_lists_iff`);
* `States`: the number of forms and the expression that fields state;
* `Rule.parse_eq_ok_iff_states`: a header has the rule that its fields state;
* `Rule.parse_determined_by_fields`: so nothing else about a header matters.
-/

namespace MessageCatalog.Plural

/-- A name and a value. -/
abbrev Field := List Char × List Char

/-- A text is its own trim. -/
def IsTrimmed (text : List Char) : Prop :=
  trim text = text

/-- The text of a part between semicolons, and the field in it, if it is not blank. -/
inductive Part : List Char → Option Field → Prop
  | blank {text : List Char} : IsBlanks text → Part text none
  | field {b₁ b₂ b₃ b₄ name value : List Char} : IsBlanks b₁ → IsBlanks b₂ → IsBlanks b₃ →
      IsBlanks b₄ → IsTrimmed name → IsTrimmed value → '=' ∉ name →
      Part (b₁ ++ name ++ b₂ ++ '=' :: (b₃ ++ value ++ b₄)) (some (name, value))

/-- The text lists the fields: they are those of its parts, in order. -/
inductive Lists : List Char → List Field → Prop
  | last {text : List Char} {held : Option Field} : ';' ∉ text → Part text held →
      Lists text held.toList
  | more {text rest : List Char} {held : Option Field} {fields : List Field} : ';' ∉ text →
      Part text held → Lists rest fields → Lists (text ++ ';' :: rest) (held.toList ++ fields)

/-- The text of a header, with a blank for each backslash and `n` that stand for a line break. -/
def unbroken (header : String) : List Char :=
  replacePair '\\' 'n' ' ' header.toList

/-- The text is a numeral for a count that 64 bits can hold, with or without a plus sign. -/
def IsCount (text : List Char) (count : Nat) : Prop :=
  ∃ digits, (text = digits ∨ text = '+' :: digits) ∧ IsDigits digits ∧
    Numeral.value digits = count ∧ count < 2 ^ 64

/-- The values of the fields of a name, in order. -/
def valuesOf (name : String) (fields : List Field) : List (List Char) :=
  (fields.filter (·.1 = name.toList)).map (·.2)

/-- The values of the two names state a number of forms and an expression: all of them are well
    formed, and the last ones are these. -/
structure States (counts exprs : List (List Char)) (count : Nat) (e : Expr) : Prop where
  allCounts : ∀ value ∈ counts, ∃ other, IsCount value other
  allExprs : ∀ value ∈ exprs, ∃ other, Expr.parse (String.ofList value) = .ok other
  lastCount : ∃ value, counts.getLast? = some value ∧ IsCount value count
  lastExpr : ∃ value, exprs.getLast? = some value ∧ Expr.parse (String.ofList value) = .ok e
  /-- There is a form. -/
  positive : 1 ≤ count

/-! ### Parts -/

/-- The field in a text, if it has an equals sign. -/
def field? (text : List Char) : Option Field :=
  (cut? '=' text).map fun (name, value) => (trim name, trim value)

theorem field?_eq_some_iff {text : List Char} {field : Field} :
    field? text = some field ↔ ∃ before after, text = before ++ '=' :: after ∧ '=' ∉ before ∧
      trim before = field.1 ∧ trim after = field.2 := by
  simp only [field?, Option.map_eq_some_iff, Prod.exists, cut?_eq_some_iff, Prod.ext_iff, and_assoc]

theorem field?_eq_none_iff {text : List Char} : field? text = none ↔ '=' ∉ text := by
  rw [field?, Option.map_eq_none_iff, cut?_eq_none_iff]

/-- Trimming a part as a whole does not change its field. -/
theorem field?_trim (text : List Char) : field? (trim text) = field? text := by
  cases h : field? text with
  | none =>
    rw [field?_eq_none_iff] at h ⊢
    exact fun hmem => h ((trim_isInfix text).subset hmem)
  | some field =>
    obtain ⟨before, after, rfl, hbefore, hname, hvalue⟩ := field?_eq_some_iff.1 h
    refine field?_eq_some_iff.2 ⟨trimStart before, trimEnd after,
      trim_append_cons (by decide) before after, ?_, ?_, ?_⟩
    · exact fun hmem => hbefore ((List.dropWhile_suffix _).subset hmem)
    · rw [trim_trimStart, hname]
    · rw [trim_trimEnd, hvalue]

/-- The part of a field is its name and its value with blanks around each. -/
theorem part_some_iff {text : List Char} {field : Field} :
    Part text (some field) ↔ field? text = some field := by
  rw [field?_eq_some_iff]
  constructor
  · intro h
    cases h with
    | @field b₁ b₂ b₃ b₄ name value h₁ h₂ h₃ h₄ hname hvalue hequals =>
      refine ⟨b₁ ++ name ++ b₂, b₃ ++ value ++ b₄, rfl, ?_, ?_, ?_⟩
      · have hblanks : ∀ {blanks : List Char}, IsBlanks blanks → '=' ∉ blanks :=
          fun hblanks hmem => absurd (hblanks _ hmem) (by decide)
        simp [hblanks h₁, hblanks h₂, hequals]
      · rw [trim_append_append h₁ h₂, hname]
      · rw [trim_append_append h₃ h₄, hvalue]
  · rintro ⟨before, after, rfl, hequals, hname, hvalue⟩
    obtain ⟨htrimmed, b₁, b₂, h₁, h₂, rfl⟩ := trim_eq_iff.1 hname
    obtain ⟨htrimmed', b₃, b₄, h₃, h₄, rfl⟩ := trim_eq_iff.1 hvalue
    exact .field h₁ h₂ h₃ h₄ htrimmed htrimmed' fun hmem => hequals (by simp [hmem])

theorem part_none_iff {text : List Char} : Part text none ↔ trim text = [] := by
  rw [trim_eq_nil_iff]
  exact ⟨fun h => by cases h; assumption, .blank⟩

/-! ### Segments -/

/-- What is left of the parts between semicolons when they are trimmed. -/
def segmentsOf (parts : List (List Char)) : List (List Char) :=
  (parts.map trim).filter (· ≠ [])

/-- The field of each segment, in order. -/
def Assigns (segments : List (List Char)) (fields : List Field) : Prop :=
  List.Forall₂ (fun segment field => field? segment = some field) segments fields

theorem assigns_segmentsOf_cons_iff {part : List Char} {parts : List (List Char)}
    {fields : List Field} : Assigns (segmentsOf (part :: parts)) fields ↔
      ∃ held more, fields = Option.toList held ++ more ∧ Part part held ∧
        Assigns (segmentsOf parts) more := by
  have hcons : segmentsOf (part :: parts) =
      if trim part = [] then segmentsOf parts else trim part :: segmentsOf parts := by
    rw [segmentsOf, List.map_cons, List.filter_cons]
    split <;> simp_all [segmentsOf]
  rw [hcons]
  constructor
  · intro h
    split at h
    case isTrue hblank => exact ⟨none, fields, rfl, part_none_iff.2 hblank, h⟩
    case isFalse =>
      cases h with
      | @cons _ field _ more hfield hmore =>
        rw [field?_trim] at hfield
        exact ⟨some field, more, rfl, part_some_iff.2 hfield, hmore⟩
  · rintro ⟨held, more, rfl, hpart, hmore⟩
    cases held with
    | none =>
      rw [if_pos (part_none_iff.1 hpart)]
      exact hmore
    | some field =>
      have hfield := part_some_iff.1 hpart
      rw [← field?_trim] at hfield
      have hne : trim part ≠ [] := fun hnil => by
        rw [hnil] at hfield
        cases hfield
      rw [if_neg hne]
      exact .cons hfield hmore

/-- A text lists the fields of its segments. -/
theorem lists_iff {text : List Char} {fields : List Field} :
    Lists text fields ↔ Assigns (segmentsOf (pieces ';' text)) fields := by
  constructor
  · intro h
    induction h with
    | last hplain hpart =>
      rw [pieces_of_not_mem hplain, assigns_segmentsOf_cons_iff]
      exact ⟨_, [], (List.append_nil _).symm, hpart, .nil⟩
    | more hplain hpart _ ih =>
      rw [pieces_append_cons hplain, assigns_segmentsOf_cons_iff]
      exact ⟨_, _, rfl, hpart, ih⟩
  · intro h
    have hplain : ∀ part ∈ pieces ';' text, ';' ∉ part := fun _ => not_mem_of_mem_pieces
    have hne := pieces_ne_nil ';' text
    rw [← joined_pieces ';' text]
    generalize pieces ';' text = parts at h hplain hne
    induction parts generalizing fields with
    | nil => exact absurd rfl hne
    | cons part parts ih =>
      obtain ⟨held, more, rfl, hpart, hmore⟩ := assigns_segmentsOf_cons_iff.1 h
      have hfirst := hplain part List.mem_cons_self
      by_cases hnil : parts = []
      · subst hnil
        cases hmore
        rw [List.append_nil]
        exact .last hfirst hpart
      · rw [joined_cons hnil]
        exact .more hfirst hpart (ih hmore (fun p hp => hplain p (List.mem_cons_of_mem _ hp)) hnil)

/-- The segments of a header. -/
theorem clauseTexts_eq (header : String) :
    Rule.clauseTexts header.toList = segmentsOf (pieces ';' (unbroken header)) :=
  rfl

/-- A text lists at most one sequence of fields. -/
theorem Lists.unique {text : List Char} {fields fields' : List Field} (h : Lists text fields)
    (h' : Lists text fields') : fields = fields' := by
  refine List.right_unique_forall₂' (fun segment field field' hfield hfield' => ?_)
    (lists_iff.1 h) (lists_iff.1 h')
  exact Option.some.inj (hfield.symm.trans hfield')

/-- A sequence is related to another one element by element if each element is. -/
theorem exists_forall₂_iff {α β : Type} {R : α → β → Prop} {xs : List α} :
    (∃ ys, List.Forall₂ R xs ys) ↔ ∀ x ∈ xs, ∃ y, R x y := by
  induction xs with
  | nil => exact ⟨fun _ => nofun, fun _ => ⟨[], .nil⟩⟩
  | cons x xs ih =>
    rw [List.forall_mem_cons, ← ih]
    constructor
    · rintro ⟨_, _ | ⟨hx, hxs⟩⟩
      exact ⟨⟨_, hx⟩, _, hxs⟩
    · rintro ⟨⟨y, hx⟩, ys, hxs⟩
      exact ⟨y :: ys, .cons hx hxs⟩

/-- A header lists fields iff each of its segments has an equals sign. -/
theorem exists_lists_iff {header : String} : (∃ fields, Lists (unbroken header) fields) ↔
    ∀ segment ∈ Rule.clauseTexts header.toList, '=' ∈ segment := by
  simp only [lists_iff, ← clauseTexts_eq, Assigns, exists_forall₂_iff]
  refine forall₂_congr fun segment _ => ?_
  rw [← not_iff_not, ← field?_eq_none_iff, Option.eq_none_iff_forall_ne_some, not_exists]

/-! ### Clauses -/

theorem unsigned?_eq_some_iff {text : List Char} {count : Nat} :
    Numeral.unsigned? UInt64.size text = some count ↔ IsCount text count := by
  have hplus : ∀ {digits : List Char}, ¬IsDigits ('+' :: digits) := fun h =>
    absurd (h.2 '+' List.mem_cons_self) (by decide)
  simp only [Numeral.unsigned?, Option.filter_eq_some_iff, decide_eq_true_eq]
  split
  case h_1 rest =>
    rw [Numeral.digits?_eq_some_iff]
    constructor
    · rintro ⟨⟨hne, hdigits, hvalue⟩, hlt⟩
      exact ⟨rest, .inr rfl, ⟨hne, hdigits⟩, hvalue, hlt⟩
    · rintro ⟨digits, rfl | h, hdigits, hvalue, hlt⟩
      · exact absurd hdigits hplus
      · cases h
        exact ⟨⟨hdigits.1, hdigits.2, hvalue⟩, hlt⟩
  case h_2 hsign =>
    rw [Numeral.digits?_eq_some_iff]
    constructor
    · rintro ⟨⟨hne, hdigits, hvalue⟩, hlt⟩
      exact ⟨text, .inl rfl, ⟨hne, hdigits⟩, hvalue, hlt⟩
    · rintro ⟨digits, rfl | h, hdigits, hvalue, hlt⟩
      · exact ⟨⟨hdigits.1, hdigits.2, hvalue⟩, hlt⟩
      · exact absurd h (hsign digits)

/-- A field is read as the clause. -/
def Gives (field : Field) (clause : Rule.Clause) : Prop :=
  if field.1 = "nplurals".toList then ∃ count, IsCount field.2 count ∧ clause = .formCount count
  else if field.1 = "plural".toList then
    ∃ e, Expr.parse (String.ofList field.2) = .ok e ∧ clause = .expr e
  else clause = .other

theorem read_eq_ok_iff_gives {segment : List Char} {clause : Rule.Clause} :
    Rule.Clause.read segment = .ok clause ↔
      ∃ field, field? segment = some field ∧ Gives field clause := by
  rw [Rule.Clause.read, field?]
  cases cut? '=' segment with
  | none => simp
  | some halves =>
    simp only [Option.map_some, Option.some.injEq, exists_eq_left', Gives]
    split
    case isTrue =>
      simp only [← unsigned?_eq_some_iff]
      cases Numeral.unsigned? UInt64.size (trim halves.2) <;> simp [eq_comm]
    case isFalse =>
      split
      case isTrue => cases Expr.parse (String.ofList (trim halves.2)) <;> simp [eq_comm]
      case isFalse => simp [eq_comm]

theorem mapM_eq_ok_iff {ε α β : Type} {f : α → Except ε β} {xs : List α} {ys : List β} :
    xs.mapM f = .ok ys ↔ List.Forall₂ (fun x y => f x = .ok y) xs ys := by
  induction xs generalizing ys with
  | nil =>
    rw [List.mapM_nil, List.forall₂_nil_left_iff]
    exact ⟨fun h => by cases h; rfl, fun h => by rw [h]; rfl⟩
  | cons x xs ih =>
    simp only [List.mapM_cons, bind_eq_ok_iff, ih, List.forall₂_cons_left_iff]
    constructor
    · rintro ⟨y, hx, ys, hxs, h⟩
      cases h
      exact ⟨y, ys, hx, hxs, rfl⟩
    · rintro ⟨y, ys, hx, hxs, rfl⟩
      exact ⟨y, hx, ys, hxs, rfl⟩

/-- The segments of a header are read as the clauses of its fields. -/
theorem mapM_read_eq_ok_iff {header : String} {clauses : List Rule.Clause} :
    (Rule.clauseTexts header.toList).mapM Rule.Clause.read = .ok clauses ↔
      ∃ fields, Lists (unbroken header) fields ∧ List.Forall₂ Gives fields clauses := by
  simp only [mapM_eq_ok_iff, read_eq_ok_iff_gives, lists_iff, ← clauseTexts_eq, Assigns]
  generalize Rule.clauseTexts header.toList = segments
  induction segments generalizing clauses with
  | nil => simp
  | cons segment segments ih =>
    simp only [List.forall₂_cons_left_iff, ih]
    constructor
    · rintro ⟨clause, clauses, ⟨field, hfield, hclause⟩, ⟨fields, hfields, hclauses⟩, rfl⟩
      exact ⟨_, ⟨field, fields, hfield, hfields, rfl⟩, .cons hclause hclauses⟩
    · rintro ⟨_, ⟨field, fields, hfield, hfields, rfl⟩, h⟩
      obtain ⟨clause, clauses, hclause, hclauses, rfl⟩ := List.forall₂_cons_left_iff.1 h
      exact ⟨clause, clauses, ⟨field, hfield, hclause⟩, ⟨fields, hfields, hclauses⟩, rfl⟩

/-! ### Values -/

theorem valuesOf_cons (name : String) (field : Field) (fields : List Field) :
    valuesOf name (field :: fields) =
      if field.1 = name.toList then field.2 :: valuesOf name fields else valuesOf name fields := by
  rw [valuesOf, List.filter_cons]
  split <;> simp_all [valuesOf]

/-- The clauses of fields have what the values of the two names are read as. -/
theorem forall₂_values {fields : List Field} {clauses : List Rule.Clause}
    (h : List.Forall₂ Gives fields clauses) :
    List.Forall₂ IsCount (valuesOf "nplurals" fields)
        (clauses.filterMap Rule.Clause.formCount?) ∧
      List.Forall₂ (fun value e => Expr.parse (String.ofList value) = .ok e)
        (valuesOf "plural" fields) (clauses.filterMap Rule.Clause.expr?) := by
  induction h with
  | nil => exact ⟨.nil, .nil⟩
  | @cons field clause fields clauses hfield _ ih =>
    obtain ⟨hcounts, hexprs⟩ := ih
    rw [valuesOf_cons, valuesOf_cons]
    rw [Gives] at hfield
    split at hfield
    case isTrue hname =>
      obtain ⟨count, hcount, rfl⟩ := hfield
      rw [if_pos hname, if_neg (by rw [hname]; decide)]
      exact ⟨.cons hcount hcounts, hexprs⟩
    case isFalse hcount =>
      rw [if_neg hcount]
      split at hfield
      case isTrue hname =>
        obtain ⟨e, he, rfl⟩ := hfield
        rw [if_pos hname]
        exact ⟨hcounts, .cons he hexprs⟩
      case isFalse hexpr =>
        subst hfield
        rw [if_neg hexpr]
        exact ⟨hcounts, hexprs⟩

theorem exists_gives_iff {field : Field} : (∃ clause, Gives field clause) ↔
    (field.1 = "nplurals".toList → ∃ count, IsCount field.2 count) ∧
      (field.1 = "plural".toList → ∃ e, Expr.parse (String.ofList field.2) = .ok e) := by
  simp only [Gives]
  split
  case isTrue hname => simp [hname]
  case isFalse hcount => split <;> simp_all

/-- Fields are read as clauses if all values of the two names are well formed. -/
theorem exists_forall₂_gives_iff {fields : List Field} :
    (∃ clauses, List.Forall₂ Gives fields clauses) ↔
      (∀ value ∈ valuesOf "nplurals" fields, ∃ count, IsCount value count) ∧
        ∀ value ∈ valuesOf "plural" fields, ∃ e, Expr.parse (String.ofList value) = .ok e := by
  simp only [exists_forall₂_iff, exists_gives_iff, valuesOf, List.forall_mem_map,
    List.mem_filter, decide_eq_true_eq, and_imp, ← forall_and]

/-- Of two sequences related element by element, the last elements are related. -/
theorem getLast?_eq_some_iff_of_forall₂ {α β : Type} {R : α → β → Prop} (hR : Relator.RightUnique R)
    {xs : List α} {ys : List β} (h : List.Forall₂ R xs ys) {y : β} :
    ys.getLast? = some y ↔ ∃ x, xs.getLast? = some x ∧ R x y := by
  rw [← List.head?_reverse, ← List.head?_reverse]
  rw [← List.forall₂_reverse_iff] at h
  generalize xs.reverse = xs at h
  generalize ys.reverse = ys at h
  cases h with
  | nil => simp
  | @cons x y' xs ys hx _ =>
    simp only [List.head?_cons, Option.some.injEq, exists_eq_left']
    exact ⟨fun hy => hy ▸ hx, fun hy => hR hx hy⟩

theorem rightUnique_isCount : Relator.RightUnique IsCount := fun _ _ _ h h' =>
  Option.some.inj ((unsigned?_eq_some_iff.2 h).symm.trans (unsigned?_eq_some_iff.2 h'))

theorem rightUnique_parse :
    Relator.RightUnique fun (value : List Char) e => Expr.parse (String.ofList value) = .ok e :=
  fun _ _ _ h h' => Except.ok.inj (h.symm.trans h')

/-- The clauses of fields have as last number of forms and last expression what the fields
    state. -/
theorem states_iff {fields : List Field} {count : Nat} {e : Expr} :
    States (valuesOf "nplurals" fields) (valuesOf "plural" fields) count e ↔
      ∃ clauses, List.Forall₂ Gives fields clauses ∧
      (clauses.filterMap Rule.Clause.formCount?).getLast? = some count ∧
      (clauses.filterMap Rule.Clause.expr?).getLast? = some e ∧ 1 ≤ count := by
  constructor
  · intro h
    obtain ⟨clauses, hclauses⟩ := exists_forall₂_gives_iff.2 ⟨h.allCounts, h.allExprs⟩
    obtain ⟨hcounts, hexprs⟩ := forall₂_values hclauses
    exact ⟨clauses, hclauses, (getLast?_eq_some_iff_of_forall₂ rightUnique_isCount hcounts).2
      h.lastCount, (getLast?_eq_some_iff_of_forall₂ rightUnique_parse hexprs).2 h.lastExpr,
      h.positive⟩
  · rintro ⟨clauses, hclauses, hcount, hexpr, hpositive⟩
    obtain ⟨hcounts, hexprs⟩ := forall₂_values hclauses
    obtain ⟨hvalues, hvalues'⟩ := exists_forall₂_gives_iff.1 ⟨clauses, hclauses⟩
    exact ⟨hvalues, hvalues',
      (getLast?_eq_some_iff_of_forall₂ rightUnique_isCount hcounts).1 hcount,
      (getLast?_eq_some_iff_of_forall₂ rightUnique_parse hexprs).1 hexpr, hpositive⟩

/-! ### Rules -/

theorem toOption_eq_some_iff {ε α : Type} {x : Except ε α} {a : α} :
    x.toOption = some a ↔ x = .ok a := by
  cases x <;> simp [Except.toOption]

namespace Rule

theorem make_eq_ok_iff {count : Nat} {e : Expr} {rule : Rule} :
    make count e = .ok rule ↔ rule.formCount = count ∧ rule.expr = e := by
  rw [make]
  split
  case isTrue hpos =>
    rw [Except.ok.injEq, eq_comm]
    exact ⟨fun h => h ▸ ⟨rfl, rfl⟩, fun ⟨hcount, he⟩ => by cases rule; simp_all⟩
  case isFalse hzero =>
    refine ⟨nofun, fun ⟨hcount, _⟩ => ?_⟩
    exact absurd (hcount ▸ rule.positive) hzero

/-- A header has a rule iff it lists fields that state the rule. -/
theorem parse_eq_ok_iff_states {header : String} {rule : Rule} : parse header = .ok rule ↔
    ∃ fields, Lists (unbroken header) fields ∧
      States (valuesOf "nplurals" fields) (valuesOf "plural" fields) rule.formCount rule.expr := by
  simp only [parse, bind_eq_ok_iff, mapM_read_eq_ok_iff, states_iff]
  constructor
  · rintro ⟨clauses, ⟨fields, hlists, hclauses⟩, h⟩
    refine ⟨fields, hlists, clauses, hclauses, ?_⟩
    split at h
    case h_1 count e hcount he =>
      obtain ⟨rfl, rfl⟩ := make_eq_ok_iff.1 h
      exact ⟨hcount, he, rule.positive⟩
    case h_2 => cases h
    case h_3 => cases h
  · rintro ⟨fields, hlists, clauses, hclauses, hcount, he, -⟩
    refine ⟨clauses, ⟨fields, hlists, hclauses⟩, ?_⟩
    rw [hcount, he]
    exact make_eq_ok_iff.2 ⟨rfl, rfl⟩

theorem parse_eq_ok_iff_of_lists {header : String} {fields : List Field} {rule : Rule}
    (h : Lists (unbroken header) fields) : parse header = .ok rule ↔
      States (valuesOf "nplurals" fields) (valuesOf "plural" fields) rule.formCount rule.expr := by
  rw [parse_eq_ok_iff_states]
  exact ⟨fun ⟨_, hlists, hstates⟩ => hlists.unique h ▸ hstates, fun hstates => ⟨fields, h, hstates⟩⟩

/-- Instead of a rule that a header does not have, the default rule is taken, and this is
    reported. -/
theorem ofHeader_eq (header? : Option String) :
    (ofHeader header?).value =
        ((header?.bind fun header => (parse header).toOption).getD default) ∧
      ((∃ header ∈ header?, ∀ rule, parse header ≠ .ok rule) →
        (ofHeader header?).log.map Event.level = ["WARN"]) ∧
      ((¬∃ header ∈ header?, ∀ rule, parse header ≠ .ok rule) → (ofHeader header?).log = []) := by
  cases header? with
  | none => exact ⟨rfl, (nomatch ·), fun _ => rfl⟩
  | some header =>
    rw [ofHeader, Option.bind_some]
    cases hparse : parse header with
    | ok rule =>
      refine ⟨rfl, fun ⟨_, h, hne⟩ => ?_, fun _ => rfl⟩
      cases h
      exact absurd hparse (hne rule)
    | error fault =>
      refine ⟨rfl, fun _ => rfl, fun h => absurd ⟨header, rfl, fun rule => ?_⟩ h⟩
      rw [hparse]
      exact nofun

/-- A header has a rule iff every segment of it has an equals sign, every value under the two
    names is well formed, both names are there, and the last number of forms is not zero; the rule
    is that of the last values. So headers that differ in the order of the two names, in blanks
    around names and values, in other fields, or in blank parts have the same rule, if any. A
    header that has none is reported, once, and the default rule holds as it does without a
    header. -/
theorem parse_determined_by_fields :
    (∀ header count e, (∃ rule, parse header = .ok rule ∧ rule.formCount = count ∧ rule.expr = e) ↔
      ∃ fields, Lists (unbroken header) fields ∧
        States (valuesOf "nplurals" fields) (valuesOf "plural" fields) count e) ∧
    (∀ header, (∃ fields, Lists (unbroken header) fields) ↔
      ∀ segment ∈ clauseTexts header.toList, '=' ∈ segment) ∧
    (∀ header header' fields fields', Lists (unbroken header) fields →
      Lists (unbroken header') fields' →
      valuesOf "nplurals" fields = valuesOf "nplurals" fields' →
      valuesOf "plural" fields = valuesOf "plural" fields' →
      (parse header).toOption = (parse header').toOption) ∧
    ∀ header?, (ofHeader header?).value =
        ((header?.bind fun header => (parse header).toOption).getD default) ∧
      ((∃ header ∈ header?, ∀ rule, parse header ≠ .ok rule) →
        (ofHeader header?).log.map Event.level = ["WARN"]) ∧
      ((¬∃ header ∈ header?, ∀ rule, parse header ≠ .ok rule) →
        (ofHeader header?).log = []) := by
  refine ⟨fun header count e => ⟨?_, ?_⟩, fun _ => exists_lists_iff, ?_, ofHeader_eq⟩
  · rintro ⟨rule, h, rfl, rfl⟩
    exact parse_eq_ok_iff_states.1 h
  · rintro ⟨fields, hlists, hstates⟩
    exact ⟨⟨count, e, hstates.positive⟩, (parse_eq_ok_iff_of_lists hlists).2 hstates, rfl, rfl⟩
  · intro header header' fields fields' h h' hcounts hexprs
    ext rule
    rw [toOption_eq_some_iff, toOption_eq_some_iff, parse_eq_ok_iff_of_lists h,
      parse_eq_ok_iff_of_lists h', hcounts, hexprs]

/-- A header that has nothing but the two fields that it needs. -/
def plain : String := "nplurals=2;plural=n==1"

/-- The same fields the other way round, with blanks, another field and blank parts. -/
def loose : String := " plural = n==1 ;; x = a=b ;\\nnplurals= 2;"

/-- The two headers have the same rule; a header that lacks one of the two fields is reported. -/
theorem parse_determined_by_fields_loose :
    let count : Field := ("nplurals".toList, ['2'])
    let expr : Field := ("plural".toList, "n==1".toList)
    let other : Field := (['x'], "a=b".toList)
    (Lists (unbroken plain) [count, expr] ∧ Lists (unbroken loose) [expr, other, count] ∧
      valuesOf "nplurals" [count, expr] = valuesOf "nplurals" [expr, other, count] ∧
      valuesOf "plural" [count, expr] = valuesOf "plural" [expr, other, count] ∧
      (parse plain).toOption = (parse loose).toOption) ∧
    (∃ header ∈ some "nplurals=2", ∀ rule, parse header ≠ .ok rule) ∧
      (ofHeader (some "nplurals=2")).log.map Event.level = ["WARN"] := by
  intro count expr other
  obtain ⟨-, -, hsame, hreport⟩ := parse_determined_by_fields
  have hplain : Lists (unbroken plain) [count, expr] :=
    lists_iff.2 (.cons (by decide) (.cons (by decide) .nil))
  have hloose : Lists (unbroken loose) [expr, other, count] :=
    lists_iff.2 (.cons (by decide) (.cons (by decide) (.cons (by decide) .nil)))
  have hnone : ∀ rule, parse "nplurals=2" ≠ .ok rule := by
    have hparse : parse "nplurals=2" = .error .expressionMissing := rfl
    rw [hparse]
    exact nofun
  exact ⟨⟨hplain, hloose, rfl, rfl, hsame _ _ _ _ hplain hloose rfl rfl⟩,
    ⟨_, rfl, hnone⟩, (hreport _).2.1 ⟨_, rfl, hnone⟩⟩

end Rule

end MessageCatalog.Plural
