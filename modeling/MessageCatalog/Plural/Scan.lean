import MessageCatalog.Plural.Error
import MessageCatalog.Text.Blank
import MessageCatalog.Text.Numeral

/-!
# Scanning plural expressions

A text is read as tokens, each as long as possible, with blanks between them.
It ends at the first semicolon that would start a token, as the expression of a
header does, or where the text ends. A fault stops the scan: what precedes it
is still a sequence of tokens, so whoever reads them meets the fault only when
getting there (`Scan.fault` comes after `Scan.tokens`).

* `Token.read`: the token at the start of a text;
* `Scan.ofText`: the tokens of a text.
-/

namespace MessageCatalog.Plural

/-- Whether a character would continue the name of a variable. -/
def isNameChar (c : Char) : Bool :=
  c.isAlphanum || c == '_'

namespace Token

/-- The number at the start of a text. -/
def readNumber (text : List Char) : Except ExprError (Token × List Char) :=
  let value := Numeral.value (text.takeWhile Char.isDigit)
  if value ≤ Int64.maxValue.toInt.toNat then
    .ok (.number (Int64.ofNat value), text.dropWhile Char.isDigit)
  else .error .literalOverflow

/-- The token at the start of the text `c :: rest`, and the text after it. -/
def read (c : Char) (rest : List Char) : Except ExprError (Token × List Char) :=
  match c with
  | 'n' =>
    match rest.head?.filter isNameChar with
    | some d => .error (.unexpectedChar d)
    | none => .ok (.count, rest)
  | '(' => .ok (.leftParen, rest)
  | ')' => .ok (.rightParen, rest)
  | '?' => .ok (.question, rest)
  | ':' => .ok (.colon, rest)
  | '+' => .ok (.plus, rest)
  | '-' => .ok (.minus, rest)
  | '*' => .ok (.star, rest)
  | '/' => .ok (.slash, rest)
  | '%' => .ok (.percent, rest)
  | '!' => if rest.head? = some '=' then .ok (.notEqual, rest.tail) else .ok (.bang, rest)
  | '<' => if rest.head? = some '=' then .ok (.lessEqual, rest.tail) else .ok (.less, rest)
  | '>' => if rest.head? = some '=' then .ok (.greaterEqual, rest.tail) else .ok (.greater, rest)
  | '=' => if rest.head? = some '=' then .ok (.equal, rest.tail) else .error (.single '=')
  | '&' => if rest.head? = some '&' then .ok (.and, rest.tail) else .error (.single '&')
  | '|' => if rest.head? = some '|' then .ok (.or, rest.tail) else .error (.single '|')
  | _ => if c.isDigit then readNumber (c :: rest) else .error (.unexpectedChar c)

/-- A number takes at least its first digit. -/
theorem length_readNumber_le {c : Char} {rest after : List Char} {t : Token}
    (hc : c.isDigit = true) (h : readNumber (c :: rest) = .ok (t, after)) :
    after.length ≤ rest.length := by
  simp only [readNumber] at h
  split at h
  · cases h
    simpa [hc] using (List.dropWhile_suffix Char.isDigit (l := rest)).length_le
  · cases h

/-- A token takes at least its first character. -/
theorem length_read_le {c : Char} {rest after : List Char} {t : Token}
    (h : read c rest = .ok (t, after)) : after.length ≤ rest.length := by
  unfold read at h
  split at h
  case h_17 =>
    split at h
    · exact length_readNumber_le ‹_› h
    · cases h
  all_goals first
    | (cases h; exact Nat.le_refl _)
    | (split at h <;> cases h <;> simp)

/-- The text after a token is shorter than the text in which it was found. -/
theorem length_read_lt {text rest after : List Char} {c : Char} {t : Token}
    (h : trimStart text = c :: rest) (hr : read c rest = .ok (t, after)) :
    after.length < text.length := by
  have h₁ := length_read_le hr
  have h₂ := length_trimStart_le text
  rw [h, List.length_cons] at h₂
  omega

end Token

/-- The tokens of a text up to its end or up to its first fault. -/
structure Scan where
  /-- The tokens, in order. -/
  tokens : List Token
  /-- What follows the tokens, if it is not the end. -/
  fault : Option ExprError
  deriving DecidableEq, Repr

/-- Reads the tokens of a text. -/
def Scan.ofText (text : List Char) : Scan :=
  match h : trimStart text with
  | [] => ⟨[], none⟩
  | c :: rest =>
    if c = ';' then ⟨[], none⟩
    else match hr : Token.read c rest with
      | .error fault => ⟨[], some fault⟩
      | .ok (token, after) =>
        have := Token.length_read_lt h hr
        let scan := ofText after
        { scan with tokens := token :: scan.tokens }
termination_by text.length

end MessageCatalog.Plural
