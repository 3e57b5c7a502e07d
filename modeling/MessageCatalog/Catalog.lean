import MessageCatalog.Entry
import MessageCatalog.Headers
import MessageCatalog.KeyMap
import MessageCatalog.Plural.Rule

/-!
# Catalogs

A catalog holds entries under their keys, headers, and the plural rule that its
`Plural-Forms` header states. The rule is compiled when it is first needed and
kept until that header is written again, so a lookup that needs it gives back
the catalog along with its answer, and a fault in the header is reported once
per compilation.

* `Catalog.add`, `Catalog.remove`, `Catalog.merge`: changing the entries; an
  entry without a message is not taken;
* `Catalog.setHeader`: changing the headers;
* `Catalog.translate`, `Catalog.translatePlural`: the text for a message, which
  is the message itself if the catalog has no form for it.
-/

namespace MessageCatalog

open Plural (Rule)

/-- The header that states the plural rule. -/
def pluralFormsHeader : String := "Plural-Forms"

/-- A message catalog. -/
structure Catalog where
  /-- The entries, under their keys. -/
  entries : KeyMap Entry
  /-- The headers. -/
  headers : Headers
  /-- The plural rule, once it is compiled. -/
  compiled : Option Rule

namespace Catalog

/-- The catalog without entries and headers. -/
def empty : Catalog :=
  ⟨KeyMap.empty, Headers.empty, none⟩

instance : Inhabited Catalog := ⟨empty⟩

/-- The number of entries. -/
def size (c : Catalog) : Nat :=
  c.entries.size

/-- The entry of a message in a context. -/
def find? (c : Catalog) (singular : Bytes) (context : Option Bytes) : Option Entry :=
  c.entries.find? (entryKey singular context)

/-- Adds an entry, in place of the one with the same key. Without a message it
    is not added. -/
def add (c : Catalog) (e : Entry) : Catalog :=
  if e.hasMessage then { c with entries := c.entries.insert e.key e } else c

/-- Removes the entry of a message in a context. -/
def remove (c : Catalog) (singular : Bytes) (context : Option Bytes) : Catalog :=
  { c with entries := c.entries.erase (entryKey singular context) }

/-- Adds the entries of another catalog, each in place of the one with the same
    key. Headers and rule stay as they are. -/
def merge (c guest : Catalog) : Catalog :=
  { c with entries := c.entries.union guest.entries }

/-- The value of a header. -/
def header? (c : Catalog) (name : String) : Option String :=
  c.headers.get? name

/-- Sets a header. The header that states the plural rule lets go of the rule
    compiled from it. -/
def setHeader (c : Catalog) (name value : String) : Catalog :=
  { c with
    headers := c.headers.set name value
    compiled := if name = pluralFormsHeader then none else c.compiled }

/-- Sets headers, in order. -/
def setHeaders (c : Catalog) (fields : List (String × String)) : Catalog :=
  fields.foldl (fun c field => c.setHeader field.1 field.2) c

/-- The translated entries, by ascending key. -/
def translated (c : Catalog) : List Entry :=
  c.entries.values.filter fun e => !e.isUntranslated

/-- The untranslated entries, by ascending key. -/
def untranslated (c : Catalog) : List Entry :=
  c.entries.values.filter Entry.isUntranslated

/-- The plural rule, and the catalog that keeps it. -/
def rule (c : Catalog) : Logged (Rule × Catalog) :=
  match c.compiled with
  | some rule => pure (rule, c)
  | none => do
    -- Compiled now, and never again until the header is set.
    let rule ← Rule.ofHeader (c.header? pluralFormsHeader)
    return (rule, { c with compiled := some rule })

/-- The number of plural forms. -/
def formCount (c : Catalog) : Logged (Nat × Catalog) := do
  let (rule, c) ← c.rule
  return (rule.formCount, c)

/-- The index of the plural form for a count. -/
def select (c : Catalog) (n : Int64) : Logged (Nat × Catalog) := do
  let (rule, c) ← c.rule
  return (rule.select n, c)

/-- The text for a message in a context. -/
def translate (c : Catalog) (singular : Bytes) (context : Option Bytes) : Bytes :=
  ((c.find? singular context).bind (·.form? 0)).getD singular

/-- The text for the form at an index of a message with a plural. Without such a
    form it is the message for the first form, and the plural for all others. -/
def textAt (c : Catalog) (singular plural : Bytes) (index : Nat) (context : Option Bytes) :
    Bytes :=
  match (c.find? singular context).bind (·.form? index) with
  | some form => form
  | none => if index = 0 then singular else plural

/-- The text for a message with a plural, for a count. -/
def translatePlural (c : Catalog) (singular plural : Bytes) (n : Int64)
    (context : Option Bytes) : Logged (Bytes × Catalog) := do
  let (index, c) ← c.select n
  return (c.textAt singular plural index context, c)

theorem headers_setHeaders (c : Catalog) (fields : List (String × String)) :
    (c.setHeaders fields).headers = c.headers.setAll fields := by
  induction fields generalizing c with
  | nil => rfl
  | cons field fields ih => exact ih (c.setHeader field.1 field.2)

end Catalog

end MessageCatalog
