import MessageCatalog.Proofs.Catalog.RoundTrip
import MessageCatalog.Proofs.Image.Extents
import MessageCatalog.Proofs.Image.Overflow

/-!
# The file of a catalog

A catalog is written pair by pair, and nothing is asked of its strings: separators in them, or
headers that are no headers, may make the file hard to understand, but not to read. It is the image
of the pairs of the catalog, and only of them, as long as 32 bits can hold its length; until then
no number in it wraps around.

* `mem_stored_iff`: the entries that are stored are those with a form that is not empty;
* `encode_exact`: all there is in the file of a catalog, in both byte orders.
-/

namespace MessageCatalog.Catalog

open Image (LaidOut layoutBy wrapping checked reverseWords)

/-- The entries that are stored are those with a form that is not empty. -/
theorem mem_stored_iff {c : Catalog} {key : Bytes} {e : Entry} :
    (key, e) ∈ c.stored.entries.toList ↔
      c.entries.find? key = some e ∧ ∃ form ∈ e.forms, form ≠ [] := by
  rw [← KeyMap.find?_eq_some_iff, stored, KeyMap.find?_filter, Option.filter_eq_some_iff,
    Bool.not_eq_true', Entry.isUntranslated_eq_false_iff]

/-- Whatever its strings are, the file of a catalog of which 32 bits can hold the length is the
    image of its header block and of the entries that have a form with text, by ascending key. It
    has no other parts and no gaps; none of its numbers would be another one if the arithmetic did
    not wrap around; and the byte order matters only for the bytes of its words, all of which are
    in front of its strings. -/
theorem encode_exact {c : Catalog} (hsize : c.imageLength ≤ 2 ^ 32 - 1) :
    (∃ written : List (Bytes × Entry),
      written.Pairwise (fun first second => first.1 < second.1) ∧
      (∀ key e, (key, e) ∈ written ↔
        c.entries.find? key = some e ∧ ∃ form ∈ e.forms, form ≠ []) ∧
      c.pairs = ([], Utf8.encode c.headers.block.toList) ::
        written.map fun p => (p.2.msgid, p.2.msgstr)) ∧
    (∀ order, LaidOut order c.pairs (c.encode order).value ∧
      Id.run (layoutBy wrapping order c.pairs) = (c.encode order).value ∧
      layoutBy checked order c.pairs = some (c.encode order).value) ∧
    (c.encode .big).value = reverseWords (7 + 4 * c.pairs.length) (c.encode .little).value := by
  have hlt : Image.layoutLength c.pairs < 2 ^ 32 := Nat.lt_of_le_pred (by decide) hsize
  refine ⟨⟨c.stored.entries.toList, c.stored.entries.ascending, fun _ _ => mem_stored_iff,
    c.pairs_eq⟩, fun order => ⟨?_, ?_, ?_⟩, Image.layout_big c.pairs⟩
  · exact Image.laidOut_layout order hlt
  · exact Image.layoutBy_wrapping order c.pairs
  · exact Image.layoutBy_checked_of_lt order hlt

/-- A catalog whose strings have zero bytes in them, and an entry without a translation. -/
def smudged : Catalog :=
  (empty.add ⟨[0x61, 0x00], none, none, [[0x00]]⟩).add grey

theorem encode_exact_smudged : smudged.imageLength ≤ 2 ^ 32 - 1 ∧
    smudged.pairs = [([], []), ([0x61, 0x00], [0x00])] ∧
    LaidOut .big smudged.pairs (smudged.encode .big).value ∧
    Id.run (layoutBy wrapping .big smudged.pairs) = (smudged.encode .big).value ∧
    layoutBy checked .big smudged.pairs = some (smudged.encode .big).value ∧
    (smudged.encode .big).value = reverseWords 15 (smudged.encode .little).value := by
  have hsize : smudged.imageLength ≤ 2 ^ 32 - 1 := by decide
  obtain ⟨-, hfile, hbig⟩ := encode_exact hsize
  obtain ⟨hlaid, hwrapping, hchecked⟩ := hfile .big
  exact ⟨hsize, by decide, hlaid, hwrapping, hchecked, hbig⟩

end MessageCatalog.Catalog
