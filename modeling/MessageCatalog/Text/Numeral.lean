/-!
# Decimal numerals

Numbers written with the ASCII digits. A numeral is a non-empty run of digits,
with any number of leading zeros; it may carry a sign, and its value has to fit
the range it is read for.

* `digits?`: the value of a run of digits;
* `unsigned?`: a numeral for a count below a bound, with an optional `+`;
* `signed?`: a numeral for a 64-bit integer, with an optional `+` or `-`.
-/

namespace MessageCatalog.Numeral

/-- The value of a sequence of digits, the most significant one first. -/
def value (digits : List Char) : Nat :=
  digits.foldl (fun v d => 10 * v + (d.toNat - '0'.toNat)) 0

/-- The value of a text that consists of digits only, at least one of them. -/
def digits? (text : List Char) : Option Nat :=
  if text ≠ [] ∧ text.all Char.isDigit then some (value text) else none

/-- The value of a numeral below `bound`, which may start with a `+`. -/
def unsigned? (bound : Nat) (text : List Char) : Option Nat :=
  let digits := match text with
    | '+' :: rest => rest
    | _ => text
  (digits? digits).filter (· < bound)

/-- The value of a numeral with an optional sign, if 64 bits can hold it. -/
def signed? (text : List Char) : Option Int64 :=
  let number : Option Int := match text with
    | '-' :: rest => (digits? rest).map fun v => -(v : Int)
    | '+' :: rest => (digits? rest).map fun v => (v : Int)
    | _ => (digits? text).map fun v => (v : Int)
  (number.filter fun v => Int64.minValue.toInt ≤ v ∧ v ≤ Int64.maxValue.toInt).map Int64.ofInt

theorem digits?_eq_some_iff {text : List Char} {v : Nat} :
    digits? text = some v ↔ text ≠ [] ∧ (∀ c ∈ text, c.isDigit = true) ∧ value text = v := by
  simp only [digits?, List.all_eq_true, Option.ite_none_right_eq_some, Option.some.injEq, and_assoc]

end MessageCatalog.Numeral
