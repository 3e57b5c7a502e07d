import MessageCatalog.Catalog
import MessageCatalog.Image

/-!
# Reading catalogs from images

Every pair of an image is a record. One with an empty msgid is a block of
headers. The others are entries; those without a message, and untranslated ones,
are skipped. Records take effect in order, so the last one counts.
An image with a fault gives no catalog at all, but what was skipped before the
fault has been reported.

* `Record.ofPair`: what a pair is;
* `Catalog.decode`: the catalog of a byte string.
-/

namespace MessageCatalog

/-- What a pair of an image is. -/
inductive Record where
  /-- Headers. -/
  | headers (fields : List (String × String))
  /-- An entry without a message. -/
  | empty
  /-- An entry whose forms have no text. -/
  | untranslated (entry : Entry)
  /-- An entry. -/
  | entry (entry : Entry)
  deriving DecidableEq, Repr

namespace Record

/-- What a pair is. -/
def ofPair (msgid msgstr : Bytes) : Record :=
  if msgid = [] then .headers (parseBlock (String.ofList (Utf8.decodeLossy msgstr)))
  else
    let e := Entry.ofStrings msgid msgstr
    if !e.hasMessage then .empty
    else if e.isUntranslated then .untranslated e
    else .entry e

/-- What is reported of a record at an index. -/
def event? (index : Nat) : Record → Option Event
  | empty => some (.emptySkipped index)
  | untranslated e => some (.untranslatedSkipped index e.singular)
  | headers _ | entry _ => none

end Record

namespace Catalog

/-- Takes over a record. -/
def absorb (c : Catalog) : Record → Catalog
  | .headers fields => c.setHeaders fields
  | .entry e => c.add e
  | .empty | .untranslated _ => c

/-- The catalog of records. -/
def ofRecords (records : List Record) : Catalog :=
  records.foldl absorb empty

/-- The records of a reading. -/
def recordsOf (pairs : List (Bytes × Bytes)) : List Record :=
  pairs.map fun pair => Record.ofPair pair.1 pair.2

/-- What is reported of records. -/
def skipped (records : List Record) : List Event :=
  records.zipIdx.filterMap fun (record, index) => record.event? index

/-- The catalog of an image. -/
def ofImage (image : Image) : Logged (Except Image.Fault Catalog) :=
  let reading := image.reading
  let records := recordsOf reading.pairs
  match reading.fault with
  | some fault => ⟨.error fault, skipped records⟩
  | none =>
    let c := ofRecords records
    ⟨.ok c, skipped records ++
      [.decoded image.order image.header.revision image.header.count c.size]⟩

/-- The catalog of a byte string. -/
def decode (bytes : Bytes) : Logged (Except Image.Fault Catalog) :=
  match Image.read bytes with
  | .error fault => pure (.error fault)
  | .ok image => ofImage image

end Catalog

end MessageCatalog
