import MessageCatalog.Event
import MessageCatalog.Plural.Parser
import MessageCatalog.Separated

/-!
# Plural rules

A plural rule says how many forms a message has and which one a count takes. It
is the value of a `Plural-Forms` header,

    nplurals=2; plural=n != 1;

a sequence of `name=value` parts between semicolons, with blanks around names
and values, in any order. Of several parts of one name the last one counts;
parts of other names have no meaning. A backslash and an `n`, which some headers
have in place of a line break, are as good as a blank.

* `Rule.parse`: the rule that a header states;
* `Rule.ofHeader`: the same, with the default rule for a header that is absent
  or states none;
* `Rule.select`: the form for a count, one of the rule's forms (`select_lt`).
-/

namespace MessageCatalog.Plural

/-- A choice among plural forms. -/
structure Rule where
  /-- The number of forms. -/
  formCount : Nat
  /-- The expression that gives the index of the form. -/
  expr : Expr
  /-- There is a form to choose. -/
  positive : 0 < formCount
  deriving DecidableEq

namespace Rule

/-- The rule of languages with a singular for one and a plural otherwise. -/
def default : Rule :=
  ⟨2, .binary .ne .count (.literal 1), by decide⟩

instance : Inhabited Rule := ⟨default⟩

/-- The rule with a number of forms, which must not be zero. -/
def make (formCount : Nat) (expr : Expr) : Except HeaderError Rule :=
  if h : 0 < formCount then .ok ⟨formCount, expr, h⟩ else .error .noForms

/-- What a part of a header states. -/
inductive Clause where
  /-- The number of forms. -/
  | formCount (number : Nat)
  /-- The selecting expression. -/
  | expr (expr : Expr)
  /-- Nothing that matters here. -/
  | other
  deriving DecidableEq

/-- The number of forms that a part states. -/
def Clause.formCount? : Clause → Option Nat
  | formCount number => some number
  | _ => none

/-- The expression that a part states. -/
def Clause.expr? : Clause → Option Expr
  | expr e => some e
  | _ => none

/-- The parts of a header: what is not blank between semicolons, trimmed. -/
def clauseTexts (header : List Char) : List (List Char) :=
  ((pieces ';' (replacePair '\\' 'n' ' ' header)).map trim).filter (· ≠ [])

/-- What a part of a header states. -/
def Clause.read (part : List Char) : Except HeaderError Clause :=
  match cut? '=' part with
  | none => .error (.noEquals (String.ofList part))
  | some (name, value) =>
    if trim name = "nplurals".toList then
      match Numeral.unsigned? UInt64.size (trim value) with
      | some number => .ok (formCount number)
      | none => .error (.invalidCount (String.ofList (trim value)))
    else if trim name = "plural".toList then
      match Expr.parse (String.ofList (trim value)) with
      | .ok e => .ok (expr e)
      | .error fault => .error (.expression fault)
    else .ok other

/-- The rule that a header states. -/
def parse (header : String) : Except HeaderError Rule := do
  let clauses ← (clauseTexts header.toList).mapM Clause.read
  match (clauses.filterMap Clause.formCount?).getLast?,
    (clauses.filterMap Clause.expr?).getLast? with
  | some formCount, some expr => make formCount expr
  | none, _ => throw .countMissing
  | some _, none => throw .expressionMissing

/-- The rule of an optional header. Without a header the default rule holds,
    and so it does for a header that states no rule, which is reported. -/
def ofHeader (header? : Option String) : Logged Rule :=
  match header? with
  | none => pure default
  | some header =>
    match parse header with
    | .ok rule => pure rule
    | .error fault => do
      Logged.report (.ruleIgnored header fault)
      return default

/-- The index of the form for a count: that of the expression if there is such a
    form, otherwise the nearest one. -/
def select (rule : Rule) (n : Int64) : Nat :=
  min (rule.expr.eval n).toInt.toNat (rule.formCount - 1)

/-- The form selected is one of the rule's forms. -/
theorem select_lt (rule : Rule) (n : Int64) : rule.select n < rule.formCount :=
  Nat.lt_of_le_of_lt (Nat.min_le_right ..) (Nat.sub_lt rule.positive Nat.one_pos)

end Rule

end MessageCatalog.Plural
