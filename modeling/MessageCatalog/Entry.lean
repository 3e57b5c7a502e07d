import MessageCatalog.Bytes
import MessageCatalog.Separated
import MessageCatalog.Text.Utf8

/-!
# Entries

An entry of a catalog: a message, perhaps with a plural and a context that tells
it from messages of the same wording, and the forms it takes in the language of
the catalog.

In a file an entry is a pair of byte strings. The msgid is the context, an
end-of-transmission byte, the message, a zero byte and the plural, where a
missing context or plural is left out with its separator; the msgstr is the
forms with zero bytes between them. Context and message alone are the key of the
entry: no catalog has two entries of one key.

* `Entry.msgid`, `Entry.msgstr`: the pair of an entry;
* `Entry.ofStrings`: the entry of a pair, which gives the pair back
  (`msgid_ofStrings`, `msgstr_ofStrings`).
-/

namespace MessageCatalog

/-- The byte between a context and a message (end of transmission). -/
def contextSeparator : UInt8 := 0x04

/-- The byte between plural forms. -/
def formSeparator : UInt8 := 0x00

/-- The key of a message in a context. -/
def entryKey (singular : Bytes) (context : Option Bytes) : Bytes :=
  match context with
  | some context => context ++ contextSeparator :: singular
  | none => singular

/-- A message and its translated forms. -/
structure Entry where
  /-- The message. -/
  singular : Bytes
  /-- The message for other counts, if it depends on one. -/
  plural : Option Bytes
  /-- What tells the message from others of the same wording. -/
  context : Option Bytes
  /-- The translated forms, by index. -/
  forms : List Bytes
  deriving DecidableEq, Repr

namespace Entry

/-- The key of an entry. -/
def key (e : Entry) : Bytes :=
  entryKey e.singular e.context

/-- Whether the entry has a message. -/
def hasMessage (e : Entry) : Bool :=
  !e.singular.isEmpty

/-- Whether the message depends on a count. -/
def isPlural (e : Entry) : Bool :=
  e.plural.isSome

/-- Whether no form has any text. -/
def isUntranslated (e : Entry) : Bool :=
  e.forms.all List.isEmpty

/-- The form at an index. -/
def form? (e : Entry) (index : Nat) : Option Bytes :=
  e.forms[index]?

/-- The message as text, if it is UTF-8. -/
def singularText? (e : Entry) : Option String :=
  (Utf8.decode? e.singular).map String.ofList

/-- The form at an index as text, if there is one and it is UTF-8. -/
def formText? (e : Entry) (index : Nat) : Option String :=
  ((e.form? index).bind Utf8.decode?).map String.ofList

/-- The msgid of an entry. -/
def msgid (e : Entry) : Bytes :=
  match e.plural with
  | some plural => e.key ++ formSeparator :: plural
  | none => e.key

/-- The msgstr of an entry. -/
def msgstr (e : Entry) : Bytes :=
  joined formSeparator e.forms

/-- The forms in a msgstr; an empty one has none. -/
def formsOf (msgstr : Bytes) : List Bytes :=
  if msgstr = [] then [] else pieces formSeparator msgstr

/-- The context at the start of a msgid, if it has one, and the rest. -/
def splitContext (msgid : Bytes) : Option Bytes × Bytes :=
  match cut? contextSeparator msgid with
  | some (context, message) => (some context, message)
  | none => (none, msgid)

/-- The message at the start of a msgid without its context, and the plural after
    it, if there is one. -/
def splitPlural (message : Bytes) : Bytes × Option Bytes :=
  match cut? formSeparator message with
  | some (singular, plural) => (singular, some plural)
  | none => (message, none)

/-- The entry of a msgid and a msgstr. -/
def ofStrings (msgid msgstr : Bytes) : Entry :=
  let (context, message) := splitContext msgid
  let (singular, plural) := splitPlural message
  { singular, plural, context, forms := formsOf msgstr }

theorem entryKey_splitContext (bytes : Bytes) :
    entryKey (splitContext bytes).2 (splitContext bytes).1 = bytes := by
  unfold splitContext
  split
  case h_1 h => exact (cut?_eq_some_iff.1 h).1.symm
  case h_2 => rfl

/-- The msgid of the entry of a pair is that of the pair. -/
theorem msgid_ofStrings (first second : Bytes) : (ofStrings first second).msgid = first := by
  conv => rhs; rw [← entryKey_splitContext first]
  simp only [ofStrings, msgid, key, splitPlural]
  cases h : cut? formSeparator (splitContext first).2 with
  | none => rfl
  | some parts =>
    have hparts : (splitContext first).2 = parts.1 ++ formSeparator :: parts.2 :=
      (cut?_eq_some_iff.1 h).1
    rw [hparts]
    cases (splitContext first).1 <;> simp [entryKey]

/-- The msgstr of the entry of a pair is that of the pair. -/
theorem msgstr_ofStrings (first second : Bytes) : (ofStrings first second).msgstr = second := by
  show joined formSeparator (formsOf second) = second
  unfold formsOf
  split
  case isTrue h => rw [h]; rfl
  case isFalse => exact joined_pieces ..

end Entry

end MessageCatalog
