import Mathlib.Data.List.Forall2
import MessageCatalog.Proofs.PoText.Quoted

/-!
# The lines of a quoted string

A quoted string is a column of lines between quotes. To see where such a line ends, it is taken
apart from the left: a backslash goes with the byte behind it, whatever this is, and every other
byte is alone. A quote ends the line iff it is alone. What is written for a byte never is a quote
alone, nor a backslash without a byte to go with, and it is an escaped newline only for a newline.
So whatever bytes are quoted, the last byte of every line is the quote that ends it, and newlines
are escaped where the byte string is divided into lines, which is behind each of them.

* `symbols`: bytes taken apart;
* `symbols_append`: two parts are taken apart one after the other, if the first one does not end
  in a backslash that goes with the second;
* `newline_not_mem_dropLast`, `length_lines_eq_one_iff`: where a byte string is divided into lines;
* `quote_faithful`: what the lines of a quoted string look like, and what is read from them.
-/

namespace MessageCatalog.PoText

/-! ### Symbols -/

/-- Bytes taken apart: every backslash with the byte that it escapes, and all others alone. At the
    end a backslash escapes nothing, and is alone, too. -/
def symbols : Bytes → List Bytes
  | [] => []
  | [b] => [[b]]
  | b :: next :: rest =>
    if b = ascii '\\' then [b, next] :: symbols rest else [b] :: symbols (next :: rest)

theorem symbols_cons {b : UInt8} (h : b ≠ ascii '\\') (rest : Bytes) :
    symbols (b :: rest) = [b] :: symbols rest := by
  cases rest with
  | nil => rfl
  | cons next rest => rw [symbols, if_neg h]

theorem symbols_backslash_cons (b : UInt8) (rest : Bytes) :
    symbols (ascii '\\' :: b :: rest) = [ascii '\\', b] :: symbols rest := by
  rw [symbols, if_pos rfl]

/-- Parts are taken apart on their own, unless the first one ends in a backslash that escapes
    nothing in it. -/
theorem symbols_append {first : Bytes} (h : [ascii '\\'] ∉ symbols first) (second : Bytes) :
    symbols (first ++ second) = symbols first ++ symbols second := by
  fun_induction symbols first with
  | case1 => rfl
  | case2 b =>
    have hb : b ≠ ascii '\\' := fun hb => h (hb ▸ List.mem_singleton_self _)
    exact symbols_cons hb second
  | case3 next rest ih =>
    rw [List.cons_append, List.cons_append, symbols_backslash_cons,
      ih fun hmem => h (List.mem_cons_of_mem _ hmem), List.cons_append]
  | case4 b next rest hb ih =>
    rw [List.cons_append, symbols_cons hb, ih fun hmem => h (List.mem_cons_of_mem _ hmem),
      List.cons_append]

/-- What can be said of the symbols that are written for a byte. -/
structure IsSymbolFor (b : UInt8) (symbol : Bytes) : Prop where
  /-- A backslash escapes something. -/
  complete : symbol ≠ [ascii '\\']
  /-- A quote is escaped. -/
  unquoted : symbol ≠ [ascii '"']
  /-- An escaped newline is one. -/
  newline : symbol = [ascii '\\', ascii 'n'] → b = ascii '\n'

/-- A digit is no backslash and no quote. -/
theorem ne_of_ofDigit? {digit d : UInt8} (h : ofDigit? digit = some d) :
    digit ≠ ascii '\\' ∧ digit ≠ ascii '"' := by
  obtain ⟨⟨hlow, hhigh⟩, -⟩ := Option.ite_none_right_eq_some.1 h
  constructor
  · rintro rfl
    exact absurd hhigh (by decide)
  · rintro rfl
    exact absurd hlow (by decide)

theorem isSymbolFor_digit {digit d : UInt8} (h : ofDigit? digit = some d) (b : UInt8) :
    IsSymbolFor b [digit] where
  complete := by simpa using (ne_of_ofDigit? h).1
  unquoted := by simpa using (ne_of_ofDigit? h).2
  newline heq := by simp at heq

/-- However a byte is written, its symbols do not end the line or run on behind it. -/
theorem Spells.isSymbolFor {bytes : Bytes} {b : UInt8} (h : Spells bytes b) :
    ∀ symbol ∈ symbols bytes, IsSymbolFor b symbol := by
  cases h with
  | @letter letter _ hletter =>
    rw [symbols_backslash_cons]
    intro symbol hmem
    obtain rfl := List.mem_singleton.1 hmem
    refine ⟨by simp, by simp, fun heq => ?_⟩
    obtain rfl : letter = ascii 'n' := by simpa using heq
    exact (Option.some.inj hletter).symm
  | @octal first second third _ hletter hdigits =>
    simp only [ofDigits?, Option.pure_def, Option.bind_eq_bind, Option.bind_eq_some_iff] at hdigits
    obtain ⟨_, -, _, hsecond, _, hthird, -⟩ := hdigits
    rw [symbols_backslash_cons, symbols_cons (ne_of_ofDigit? hsecond).1]
    simp only [symbols, List.forall_mem_cons, List.not_mem_nil, false_imp_iff, implies_true,
      and_true]
    refine ⟨⟨by simp, by simp, fun heq => ?_⟩, isSymbolFor_digit hsecond _,
      isSymbolFor_digit hthird _⟩
    -- An `n` behind a backslash is a letter, and no digit.
    obtain rfl : first = ascii 'n' := by simpa using heq
    exact absurd hletter (by decide)
  | plain hquote hbackslash _ =>
    intro symbol hmem
    obtain rfl := List.mem_singleton.1 hmem
    exact ⟨by simpa using hbackslash, by simpa using hquote, by simp⟩

/-- The symbols of an escaped line are those that are written for its bytes. -/
theorem symbols_escaped (line : Bytes) :
    symbols (line.flatMap escape) = line.flatMap fun b => symbols (escape b) := by
  induction line with
  | nil => rfl
  | cons b line ih =>
    have hcomplete : [ascii '\\'] ∉ symbols (escape b) := fun hmem =>
      ((spells_escape b).isSymbolFor _ hmem).complete rfl
    rw [List.flatMap_cons, symbols_append hcomplete, ih, List.flatMap_cons]

theorem exists_isSymbolFor {line symbol : Bytes} (h : symbol ∈ symbols (line.flatMap escape)) :
    ∃ b ∈ line, IsSymbolFor b symbol := by
  rw [symbols_escaped, List.mem_flatMap] at h
  obtain ⟨b, hb, hsymbol⟩ := h
  exact ⟨b, hb, (spells_escape b).isSymbolFor symbol hsymbol⟩

/-- An escaped line does not run on behind its end. -/
theorem backslash_not_mem_escaped (line : Bytes) :
    [ascii '\\'] ∉ symbols (line.flatMap escape) := by
  intro hmem
  obtain ⟨b, -, hsymbol⟩ := exists_isSymbolFor hmem
  exact hsymbol.complete rfl

/-- Only the last symbol of a line is an escaped newline, if only its last byte is a newline. -/
theorem escapedNewline_not_mem_dropLast {line : Bytes} (h : ascii '\n' ∉ line.dropLast) :
    [ascii '\\', ascii 'n'] ∉ (symbols (line.flatMap escape)).dropLast := by
  rcases List.eq_nil_or_concat' line with rfl | ⟨init, last, rfl⟩
  · exact List.not_mem_nil
  rw [List.dropLast_concat] at h
  have hinit : [ascii '\\', ascii 'n'] ∉ symbols (init.flatMap escape) := by
    intro hmem
    obtain ⟨b, hb, hsymbol⟩ := exists_isSymbolFor hmem
    exact h (hsymbol.newline rfl ▸ hb)
  rw [List.flatMap_append, List.flatMap_singleton, symbols_append (backslash_not_mem_escaped init),
    List.dropLast_append]
  split
  case isTrue => exact fun hmem => hinit ((List.dropLast_sublist _).subset hmem)
  case isFalse =>
    rw [List.mem_append, not_or]
    refine ⟨hinit, fun hmem => ?_⟩
    have hlast := (spells_escape last).isSymbolFor _ ((List.dropLast_sublist _).subset hmem)
    -- An escaped newline is the only symbol of its byte, so it is dropped.
    obtain rfl := hlast.newline rfl
    exact absurd hmem (by decide)

/-! ### Lines -/

/-- A newline that something follows is a line of its own, in front of the others; any other byte
    goes to the first one. -/
theorem lines_cons (b : UInt8) (bytes : Bytes) :
    (b = ascii '\n' ∧ bytes ≠ [] ∧ lines (b :: bytes) = [b] :: lines bytes) ∨
      (b = ascii '\n' → bytes = []) ∧ ∃ first more, lines bytes = first :: more ∧
        lines (b :: bytes) = (b :: first) :: more := by
  rw [lines]
  split
  case isTrue hb => exact .inl ⟨hb.1, hb.2, rfl⟩
  case isFalse hb =>
    refine .inr ⟨fun hn => not_not.1 fun hbytes => hb ⟨hn, hbytes⟩, ?_⟩
    cases hlines : lines bytes with
    | nil => exact absurd hlines (lines_ne_nil bytes)
    | cons first more => exact ⟨first, more, rfl, rfl⟩

/-- A line has no newline but at its end. -/
theorem newline_not_mem_dropLast {bytes line : Bytes} (h : line ∈ lines bytes) :
    ascii '\n' ∉ line.dropLast := by
  induction bytes generalizing line with
  | nil =>
    obtain rfl := List.mem_singleton.1 h
    exact List.not_mem_nil
  | cons b bytes ih =>
    obtain ⟨-, -, hlines⟩ | ⟨hb, first, more, hbytes, hlines⟩ := lines_cons b bytes
    · rw [hlines] at h
      rcases List.mem_cons.1 h with rfl | h
      · exact List.not_mem_nil
      · exact ih h
    · rw [hlines] at h
      rw [hbytes] at ih
      rcases List.mem_cons.1 h with rfl | h
      · by_cases hfirst : first = []
        · subst hfirst
          exact List.not_mem_nil
        · -- Something follows on the line, so the byte is no newline.
          have hnewline : ascii '\n' ≠ b := by
            rintro rfl
            obtain rfl := hb rfl
            exact hfirst (List.cons.inj hbytes).1.symm
          rw [List.dropLast_cons_of_ne_nil hfirst, List.mem_cons, not_or]
          exact ⟨hnewline, ih List.mem_cons_self⟩
      · exact ih (List.mem_cons_of_mem _ h)

/-- There is one line alone iff no newline stands before the last byte. -/
theorem length_lines_eq_one_iff (bytes : Bytes) :
    (lines bytes).length = 1 ↔ ascii '\n' ∉ bytes.dropLast := by
  induction bytes with
  | nil => simp [lines]
  | cons b bytes ih =>
    obtain ⟨rfl, hne, hlines⟩ | ⟨hb, first, more, hbytes, hlines⟩ := lines_cons b bytes
    · simp [hlines, List.dropLast_cons_of_ne_nil hne, lines_ne_nil]
    · rw [hbytes, List.length_cons] at ih
      rw [hlines, List.length_cons]
      by_cases hnil : bytes = []
      · subst hnil
        simpa using ih
      · have hnewline : ascii '\n' ≠ b := fun heq => hnil (hb heq.symm)
        rw [List.dropLast_cons_of_ne_nil hnil, List.mem_cons, not_or]
        exact ih.trans (and_iff_right hnewline).symm

/-! ### Quoted lines -/

/-- A quoted line, and what is between its quotes. -/
structure IsQuoted (line inner : Bytes) : Prop where
  /-- There is a quote at either end. -/
  enclosed : line = ascii '"' :: inner ++ [ascii '"']
  /-- Neither of the two is escaped. -/
  ends : symbols line = [ascii '"'] :: symbols inner ++ [[ascii '"']]
  /-- Between them is no control byte. -/
  printable : ∀ b ∈ inner, IsPrintable b
  /-- Every quote between them is escaped. -/
  unquoted : [ascii '"'] ∉ symbols inner
  /-- Every backslash between them escapes a byte, or is escaped. -/
  complete : [ascii '\\'] ∉ symbols inner
  /-- Only the last symbol may be an escaped newline. -/
  newline : [ascii '\\', ascii 'n'] ∉ (symbols inner).dropLast
  /-- The line is read, and a newline, however it is escaped, may only be its last byte. -/
  reads : ∃ bytes, unescape? (inner ++ [ascii '"']) = some bytes ∧ ascii '\n' ∉ bytes.dropLast

/-- A line that has no newline but at its end, between quotes. -/
theorem isQuoted_quoteLine {line : Bytes} (h : ascii '\n' ∉ line.dropLast) :
    IsQuoted (quoteLine line) (line.flatMap escape) where
  enclosed := rfl
  ends := by
    rw [quoteLine, List.cons_append, symbols_cons (by decide),
      symbols_append (backslash_not_mem_escaped line)]
    rfl
  printable b hb := by
    obtain ⟨x, -, hx⟩ := List.mem_flatMap.1 hb
    exact (spells_escape x).isPrintable b hx
  unquoted hmem := by
    obtain ⟨b, -, hsymbol⟩ := exists_isSymbolFor hmem
    exact hsymbol.unquoted rfl
  complete := backslash_not_mem_escaped line
  newline := escapedNewline_not_mem_dropLast h
  reads := ⟨line, unescape?_escaped line, h⟩

/-- The empty line in front of several lines has no newline at all. -/
theorem newline_not_mem_dropLast_of_mem_contents {bytes line : Bytes} (h : line ∈ contents bytes) :
    ascii '\n' ∉ line.dropLast := by
  rw [contents] at h
  split at h
  · exact newline_not_mem_dropLast h
  · rcases List.mem_cons.1 h with rfl | h
    · exact List.not_mem_nil
    · exact newline_not_mem_dropLast h

theorem pieces_quote (bytes : Bytes) :
    pieces (ascii '\n') (quote bytes) = (contents bytes).map quoteLine := by
  rw [quote_eq]
  refine pieces_joined (by simpa using contents_ne_nil bytes) fun line hline => ?_
  obtain ⟨content, -, rfl⟩ := List.mem_map.1 hline
  exact newline_not_mem_quoteLine content

/-- Whatever the bytes are, they are quoted as lines with single newlines between them, each of
    which ends where it seems to end, without control bytes, and without newlines but at the ends of
    lines. What is read from the lines, without the quotes around them, is the bytes. There are
    several lines exactly if a newline stands before the last byte, and then the first one is
    empty. -/
theorem quote_faithful (bytes : Bytes) : ∃ inners : List Bytes,
    List.Forall₂ IsQuoted (pieces (ascii '\n') (quote bytes)) inners ∧
    unescape? (inners.flatten ++ [ascii '"']) = some bytes ∧
    (inners.head? = some [] ∧ 1 < inners.length ↔ ascii '\n' ∈ bytes.dropLast) ∧
    (ascii '\n' ∉ bytes.dropLast → inners.length = 1) := by
  have hlength := length_lines_eq_one_iff bytes
  refine ⟨(contents bytes).map (·.flatMap escape), ?_, ?_, ?_, ?_⟩
  · rw [pieces_quote, List.forall₂_map_left_iff, List.forall₂_map_right_iff, List.forall₂_same]
    exact fun line hline => isQuoted_quoteLine (newline_not_mem_dropLast_of_mem_contents hline)
  · have hflatten : ((contents bytes).map (·.flatMap escape)).flatten = bytes.flatMap escape := by
      conv_rhs => rw [← flatten_contents bytes, ← List.flatMap_id, List.flatMap_assoc]
      rfl
    rw [hflatten, unescape?_escaped]
  · rw [contents]
    split
    case isTrue hone =>
      simp [hone, hlength.1 hone]
    case isFalse hmany =>
      have hpos := List.length_pos_of_ne_nil (lines_ne_nil bytes)
      simp [hpos, not_not.1 (mt hlength.2 hmany)]
  · intro hnone
    rw [contents, if_pos (hlength.2 hnone), List.length_map, hlength.2 hnone]

end MessageCatalog.PoText
