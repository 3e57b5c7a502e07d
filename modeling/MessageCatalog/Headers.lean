import MessageCatalog.Separated
import MessageCatalog.Text.Blank

/-!
# Headers

A catalog describes itself by headers: values under names, each name in the
place where it was first set. In a file they stand one per line in a block, as
`name: value`.

* `Headers.set`, `Headers.get?`: writing and reading a value;
* `Headers.block`: the block of the headers;
* `parseBlock`: the names and values in a block, in order and with repetitions.
-/

namespace MessageCatalog

/-- The headers of a catalog. -/
structure Headers where
  /-- Names and values, in order. -/
  fields : List (String × String)
  deriving DecidableEq, Repr

namespace Headers

/-- No headers. -/
def empty : Headers :=
  ⟨[]⟩

/-- The value under a name. -/
def get? (h : Headers) (name : String) : Option String :=
  h.fields.lookup name

/-- Sets the value under a name: in its place, or else in a new last one. -/
def set (h : Headers) (name value : String) : Headers :=
  if h.fields.any (·.1 == name) then
    ⟨h.fields.map fun field => if field.1 = name then (name, value) else field⟩
  else ⟨h.fields ++ [(name, value)]⟩

/-- Sets values under names, in order. -/
def setAll (h : Headers) (fields : List (String × String)) : Headers :=
  fields.foldl (fun h field => h.set field.1 field.2) h

/-- A header as a line. -/
def line (field : String × String) : List Char :=
  field.1.toList ++ ':' :: ' ' :: field.2.toList

/-- The headers as a block of lines. -/
def block (h : Headers) : String :=
  String.ofList (joined '\n' (h.fields.map line))

end Headers

/-- The name and the value on a line, trimmed. A line without a colon, or
    without a name before it, has none. -/
def parseLine (line : List Char) : Option (String × String) :=
  match cut? ':' line with
  | none => none
  | some (name, value) =>
    if trim name = [] then none
    else some (String.ofList (trim name), String.ofList (trim value))

/-- The names and values in a block. A backslash and an `n`, which some blocks
    have in place of a line break, are one. -/
def parseBlock (block : String) : List (String × String) :=
  (pieces '\n' (replacePair '\\' 'n' '\n' block.toList)).filterMap parseLine

end MessageCatalog
