import MessageCatalog.PoText

/-!
# Quoted strings, read back

Quoting loses nothing. Between quotes a byte stands for itself or is an escape, and what stands
first tells which: a backslash is the start of an escape, and a quote is the end of the line.
So a line is read byte by byte, whatever follows. No part of it is a line break, as all control
bytes are escaped, so that the lines of a quoted string are found in a text.

* `Spells`: the ways to write a byte between quotes, of which `escape` takes one (`spells_escape`);
* `contents`: the lines that a quoted string is written on. They are all of it
  (`flatten_contents`);
* `unescape?`, `unquoteLine?`: the readers of a quoted line, after and with the opening quote;
* `unquoteLine?_quoteLine`: the quoted line is read as what was quoted.
-/

namespace MessageCatalog.PoText

/-! ### Escapes -/

/-- The byte that a letter after a backslash stands for. -/
def ofLetter? (letter : UInt8) : Option UInt8 :=
  if letter = ascii 'n' then some (ascii '\n')
  else if letter = ascii 't' then some (ascii '\t')
  else if letter = ascii 'r' then some (ascii '\r')
  else if letter = ascii '\\' ∨ letter = ascii '"' then some letter
  else none

/-- The number that an octal digit stands for. -/
def ofDigit? (digit : UInt8) : Option UInt8 :=
  if ascii '0' ≤ digit ∧ digit ≤ ascii '7' then some (digit - ascii '0') else none

/-- The byte that three octal digits stand for. -/
def ofDigits? (first second third : UInt8) : Option UInt8 := do
  return 64 * (← ofDigit? first) + 8 * (← ofDigit? second) + (← ofDigit? third)

/-- Bytes that are no control bytes. -/
def IsPrintable (b : UInt8) : Prop :=
  0x20 ≤ b ∧ b ≠ 0x7F

instance : DecidablePred IsPrintable := fun _ => inferInstanceAs (Decidable (_ ∧ _))

/-- The ways to write a byte between quotes. -/
inductive Spells : Bytes → UInt8 → Prop
  | letter {letter b : UInt8} : ofLetter? letter = some b → Spells [ascii '\\', letter] b
  | octal {first second third b : UInt8} : ofLetter? first = none →
      ofDigits? first second third = some b → Spells [ascii '\\', first, second, third] b
  | plain {b : UInt8} : b ≠ ascii '"' → b ≠ ascii '\\' → IsPrintable b → Spells [b] b

/-- The digit of a number below 8 is read as the number, and not taken for a letter. -/
theorem ofDigit?_digit {d : UInt8} (h : d < 8) :
    ofDigit? (ascii '0' + d) = some d ∧ ofLetter? (ascii '0' + d) = none := by
  have hall : ∀ n : Fin 8, ofDigit? (ascii '0' + .ofNat n) = some (.ofNat n) ∧
      ofLetter? (ascii '0' + .ofNat n) = none := by decide
  have hd := hall ⟨d.toNat, UInt8.lt_iff_toNat_lt.1 h⟩
  rwa [UInt8.ofNat_toNat] at hd

theorem div_lt_eight (b : UInt8) : b / 64 < 8 := by
  rw [UInt8.lt_iff_toNat_lt, UInt8.toNat_div]
  have hb : b.toNat < 256 := b.toNat_lt
  simp only [UInt8.reduceToNat]
  omega

/-- The three octal digits of a byte are read as the byte. -/
theorem ofDigits?_digits (b : UInt8) :
    ofDigits? (ascii '0' + b / 64) (ascii '0' + b / 8 % 8) (ascii '0' + b % 8) = some b := by
  have hdigits : 64 * (b / 64) + 8 * (b / 8 % 8) + b % 8 = b := by
    rw [← UInt8.toNat_inj]
    simp only [UInt8.toNat_add, UInt8.toNat_mul, UInt8.toNat_div, UInt8.toNat_mod,
      UInt8.reduceToNat]
    have hb : b.toNat < 256 := b.toNat_lt
    omega
  have hmod : ∀ d : UInt8, d % 8 < 8 := fun d => UInt8.mod_lt d (by decide)
  simp only [ofDigits?, (ofDigit?_digit (div_lt_eight b)).1, (ofDigit?_digit (hmod _)).1]
  exact congrArg some hdigits

/-- An escape is one of the ways to write its byte. -/
theorem spells_escape (b : UInt8) : Spells (escape b) b := by
  unfold escape
  dsimp only
  split
  case isTrue h => exact .letter (h ▸ rfl)
  split
  case isTrue h => exact .letter (h ▸ rfl)
  split
  case isTrue h => exact .letter (h ▸ rfl)
  split
  case isTrue h =>
    refine .letter ?_
    rcases h with rfl | rfl <;> rfl
  case isFalse hb =>
    rw [not_or] at hb
    split
    case isTrue =>
      exact .octal (ofDigit?_digit (div_lt_eight b)).2 (ofDigits?_digits b)
    case isFalse h =>
      rw [not_or] at h
      exact .plain hb.2 hb.1 ⟨UInt8.not_lt.1 h.1, h.2⟩

theorem isPrintable_of_ofLetter? {letter b : UInt8} (h : ofLetter? letter = some b) :
    IsPrintable letter := by
  unfold ofLetter? at h
  split at h
  case isTrue hn => exact hn ▸ by decide
  split at h
  case isTrue ht => exact ht ▸ by decide
  split at h
  case isTrue hr => exact hr ▸ by decide
  split at h
  case isTrue hself => rcases hself with rfl | rfl <;> decide
  case isFalse => exact nomatch h

theorem isPrintable_of_ofDigit? {digit d : UInt8} (h : ofDigit? digit = some d) :
    IsPrintable digit := by
  obtain ⟨⟨hlow, hhigh⟩, -⟩ := Option.ite_none_right_eq_some.1 h
  refine ⟨UInt8.le_trans (by decide) hlow, ?_⟩
  rintro rfl
  exact absurd hhigh (by decide)

/-- No control byte is part of an escape. -/
theorem Spells.isPrintable {bytes : Bytes} {b : UInt8} (h : Spells bytes b) :
    ∀ x ∈ bytes, IsPrintable x := by
  have hbackslash : IsPrintable (ascii '\\') := by decide
  cases h with
  | letter hletter => simp [hbackslash, isPrintable_of_ofLetter? hletter]
  | octal _ hdigits =>
    simp only [ofDigits?, Option.pure_def, Option.bind_eq_bind, Option.bind_eq_some_iff] at hdigits
    obtain ⟨_, hfirst, _, hsecond, _, hthird, -⟩ := hdigits
    simp [hbackslash, isPrintable_of_ofDigit? hfirst, isPrintable_of_ofDigit? hsecond,
      isPrintable_of_ofDigit? hthird]
  | plain _ _ hb => simpa using hb

/-! ### Quoted lines -/

/-- The bytes that stand between an opening quote and the closing quote at the end. -/
def unescape? : Bytes → Option Bytes
  | [] => none
  | b :: bytes =>
    if b = ascii '"' then
      -- The closing quote ends the line.
      if bytes = [] then some [] else none
    else if b ≠ ascii '\\' then (unescape? bytes).map (b :: ·)
    else match bytes with
      | [] => none
      | letter :: rest =>
        match ofLetter? letter with
        | some b => (unescape? rest).map (b :: ·)
        | none =>
          match rest with
          | second :: third :: rest =>
            (ofDigits? letter second third).bind fun b => (unescape? rest).map (b :: ·)
          | _ => none

/-- The bytes that a quoted line is a line of. -/
def unquoteLine? : Bytes → Option Bytes
  | [] => none
  | b :: bytes => if b = ascii '"' then unescape? bytes else none

/-- However a byte is written, it is read as the byte, and the reading goes on behind it. -/
theorem Spells.unescape?_append {bytes : Bytes} {b : UInt8} (h : Spells bytes b) (rest : Bytes) :
    unescape? (bytes ++ rest) = (unescape? rest).map (b :: ·) := by
  have hquote : ascii '\\' ≠ ascii '"' := by decide
  cases h with
  | letter hletter =>
    rw [List.cons_append, List.cons_append, List.nil_append, unescape?.eq_def]
    simp [hquote, hletter]
  | octal hletter hdigits => simp [unescape?, hquote, hletter, hdigits]
  | plain hq hb _ =>
    rw [List.cons_append, List.nil_append, unescape?.eq_def]
    simp [hq, hb]

/-- What was escaped is read back. -/
theorem unescape?_escaped (line : Bytes) :
    unescape? (line.flatMap escape ++ [ascii '"']) = some line := by
  induction line with
  | nil => rfl
  | cons b line ih =>
    rw [List.flatMap_cons, List.append_assoc, (spells_escape b).unescape?_append, ih]
    rfl

/-- A quoted line is read as what was quoted. -/
theorem unquoteLine?_quoteLine (line : Bytes) : unquoteLine? (quoteLine line) = some line :=
  unescape?_escaped line

theorem isPrintable_of_mem_quoteLine {line : Bytes} {x : UInt8} (h : x ∈ quoteLine line) :
    IsPrintable x := by
  rw [quoteLine, List.mem_append, List.mem_cons, List.mem_flatMap, List.mem_singleton] at h
  obtain (rfl | ⟨b, -, hx⟩) | rfl := h
  · decide
  · exact (spells_escape b).isPrintable x hx
  · decide

/-- A quoted line is one line. -/
theorem newline_not_mem_quoteLine (line : Bytes) : ascii '\n' ∉ quoteLine line :=
  fun hmem => absurd (isPrintable_of_mem_quoteLine hmem) (by decide)

/-! ### Quoted strings -/

theorem lines_ne_nil (bytes : Bytes) : lines bytes ≠ [] := by
  cases bytes with
  | nil => simp [lines]
  | cons b bytes =>
    rw [lines]
    split
    · simp
    · split <;> simp

/-- What a byte string is written as, line by line. -/
def contents (bytes : Bytes) : List Bytes :=
  if (lines bytes).length = 1 then lines bytes else [] :: lines bytes

/-- The lines are all of the byte string: the empty first one adds nothing. -/
theorem flatten_contents (bytes : Bytes) : (contents bytes).flatten = bytes := by
  rw [contents]
  split
  · exact flatten_lines bytes
  · rw [List.flatten_cons, List.nil_append, flatten_lines]

theorem contents_ne_nil (bytes : Bytes) : contents bytes ≠ [] := by
  rw [contents]
  split
  · exact lines_ne_nil bytes
  · simp

theorem quote_eq (bytes : Bytes) :
    quote bytes = joined (ascii '\n') ((contents bytes).map quoteLine) := by
  rw [quote, contents, List.length_map]
  split <;> rfl

end MessageCatalog.PoText
