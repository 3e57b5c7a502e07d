import MessageCatalog.Catalog

/-!
# PO text

The text form of a catalog: per entry, lines of a keyword and a quoted string,
and an empty line. The headers come first, as the form of the empty
message. Messages need not be text, so the result is a byte string.

* `PoText.quote`: a byte string between double quotes. It is broken into lines
  after the newlines in it, and then starts with an empty string;
* `PoText.ofEntry`, `PoText.ofCatalog`: the text of an entry, and of a catalog.
-/

namespace MessageCatalog.PoText

/-- The byte of an ASCII character. -/
def ascii (c : Char) : UInt8 :=
  c.toNat.toUInt8

/-- How a byte is written between quotes: control bytes, quotes and backslashes
    as escapes, with three octal digits where there is no letter for them. -/
def escape (b : UInt8) : Bytes :=
  let backslash := ascii '\\'
  if b = ascii '\n' then [backslash, ascii 'n']
  else if b = ascii '\t' then [backslash, ascii 't']
  else if b = ascii '\r' then [backslash, ascii 'r']
  else if b = backslash ∨ b = ascii '"' then [backslash, b]
  else if b < 0x20 ∨ b = 0x7F then
    [backslash, ascii '0' + b / 64, ascii '0' + b / 8 % 8, ascii '0' + b % 8]
  else [b]

/-- The lines of a byte string, each with the newline at its end. A newline at
    the very end does not start another line. -/
def lines : Bytes → List Bytes
  | [] => [[]]
  | b :: bytes =>
    if b = ascii '\n' ∧ bytes ≠ [] then [b] :: lines bytes
    else match lines bytes with
      | [] => [[b]]
      | line :: more => (b :: line) :: more

/-- A line between quotes. -/
def quoteLine (line : Bytes) : Bytes :=
  ascii '"' :: line.flatMap escape ++ [ascii '"']

/-- A byte string as quoted lines, after an empty one if there are several. -/
def quote (bytes : Bytes) : Bytes :=
  let quoted := (lines bytes).map quoteLine
  -- Several lines line up under an empty first one.
  joined (ascii '\n') (if quoted.length = 1 then quoted else quoteLine [] :: quoted)

/-- A keyword and its string. -/
def field (keyword : String) (bytes : Bytes) : Bytes :=
  Utf8.encode keyword.toList ++ ascii ' ' :: quote bytes ++ [ascii '\n']

/-- The forms of an entry: the first one of a message without a plural, and all
    of them, numbered, of a message with one. -/
def formFields (e : Entry) : Bytes :=
  match e.plural with
  | none => field "msgstr" ((e.form? 0).getD [])
  | some plural =>
    field "msgid_plural" plural ++
      e.forms.zipIdx.flatMap fun (form, index) => field s!"msgstr[{index}]" form

/-- The text of an entry. -/
def ofEntry (e : Entry) : Bytes :=
  (match e.context with
    | some context => field "msgctxt" context
    | none => []) ++
    field "msgid" e.singular ++ formFields e ++ [ascii '\n']

/-- The text of the headers, if there are any. -/
def ofHeaders (h : Headers) : Bytes :=
  if h.fields = [] then []
  else
    field "msgid" [] ++ field "msgstr" (Utf8.encode h.block.toList ++ [ascii '\n']) ++ [ascii '\n']

/-- The text of a catalog, its entries by ascending key. -/
def ofCatalog (c : Catalog) : Bytes :=
  ofHeaders c.headers ++ c.entries.values.flatMap ofEntry

/-- The lines of a byte string are all of it. -/
theorem flatten_lines (bytes : Bytes) : (lines bytes).flatten = bytes := by
  induction bytes with
  | nil => rfl
  | cons b bytes ih =>
    rw [lines]
    split
    · simp [ih]
    · split
      case h_1 h => simp_all
      case h_2 h => simp_all

end MessageCatalog.PoText
