import MessageCatalog.Catalog
import MessageCatalog.Proofs.Headers

/-!
# Header blocks in normal form

Many blocks say the same. There may be blanks around names and values, lines without a header,
names that come again, and line breaks that are spelled out. All of this is gone once the block
is read: what is read is legible, and setting it keeps one header of each name. So the headers of
a block have a block of their own from which exactly they are read, which is the normal form of
all blocks that say the same.

Headers that are set otherwise need not be legible, and then no block is theirs: a line break in
a value makes two lines, and a colon in a name ends it early.

* `parseBlock_block_iff`: headers are read from their own block iff all of them are legible;
* `ofBlock_block`: the block of legible headers of different names is in normal form;
* `Catalog.headerBlock_normal`: both for catalogs, whose headers come from a block or from
  anywhere.
-/

namespace MessageCatalog

namespace Headers

/-- The headers of a block: the last value of each name, where the name came first. -/
def ofBlock (block : String) : Headers :=
  empty.setAll (parseBlock block)

theorem legible_ofBlock (block : String) : ∀ field ∈ (ofBlock block).fields, Legible field :=
  legible_setAll nofun fun _ hfield => legible_of_mem_parseBlock hfield

theorem nodup_names_ofBlock (block : String) : (ofBlock block).names.Nodup :=
  nodup_names_setAll (h := empty) List.nodup_nil _

/-- Headers are read from their own block iff all of them are legible: nothing else is read from
    any block. -/
theorem parseBlock_block_iff {h : Headers} :
    parseBlock h.block = h.fields ↔ ∀ field ∈ h.fields, Legible field := by
  refine ⟨fun hread field hfield => ?_, parseBlock_block⟩
  rw [← hread] at hfield
  exact legible_of_mem_parseBlock hfield

/-- A line break in a value makes two headers of one. -/
example : parseBlock (Headers.set empty "a" "b\nc: d").block = [("a", "b"), ("c", "d")] := by
  decide

/-- Legible headers of different names are those of their own block. -/
theorem ofBlock_block {h : Headers} (hnames : h.names.Nodup)
    (hfields : ∀ field ∈ h.fields, Legible field) : ofBlock h.block = h := by
  rw [ofBlock, parseBlock_block hfields, setAll_empty hnames]

end Headers

namespace Catalog

/-- A catalog that takes its headers from a text writes them as a block from which exactly they
    are read, and a catalog that takes them from there writes the same block. Of the other catalogs,
    whatever their headers are and however they were set, this holds of those with legible
    headers, and of no others. -/
theorem headerBlock_normal :
    (∀ text, let c := empty.setHeaders (parseBlock text)
      parseBlock c.headers.block = c.headers.fields ∧
        (empty.setHeaders (parseBlock c.headers.block)).headers = c.headers) ∧
    ∀ c : Catalog, parseBlock c.headers.block = c.headers.fields ↔
      ∀ field ∈ c.headers.fields, Legible field := by
  refine ⟨fun text => ?_, fun c => Headers.parseBlock_block_iff⟩
  have hset : ∀ block, (empty.setHeaders (parseBlock block)).headers = Headers.ofBlock block :=
    fun block => headers_setHeaders empty _
  simp only [hset]
  have hlegible := Headers.legible_ofBlock text
  exact ⟨parseBlock_block hlegible,
    Headers.ofBlock_block (Headers.nodup_names_ofBlock text) hlegible⟩

end Catalog

end MessageCatalog
