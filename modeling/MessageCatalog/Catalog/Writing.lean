import MessageCatalog.Catalog
import MessageCatalog.Image.Layout

/-!
# Writing catalogs to images

The image of a catalog starts with its headers, as the pair of the empty msgid
and the header block. The translated entries follow by ascending key, so that a
reader of the file can search the msgids.

* `Catalog.pairs`: the pairs of a catalog;
* `Catalog.encode`: its image.
-/

namespace MessageCatalog.Catalog

/-- The pairs of a catalog. -/
def pairs (c : Catalog) : List (Bytes × Bytes) :=
  ([], Utf8.encode c.headers.block.toList) ::
    c.translated.map fun e => (e.msgid, e.msgstr)

/-- The image of a catalog. -/
def image (c : Catalog) (order : ByteOrder) : Bytes :=
  Image.layout order c.pairs

/-- The image of a catalog, reported. -/
def encode (c : Catalog) (order : ByteOrder) : Logged Bytes := do
  let bytes := c.image order
  Logged.report (.encoded order c.pairs.length bytes.length)
  return bytes

end MessageCatalog.Catalog
