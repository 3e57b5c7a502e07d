import MessageCatalog.Catalog.Writing
import MessageCatalog.Proofs.Catalog.Reachable
import MessageCatalog.Proofs.Entry
import MessageCatalog.Proofs.Image.Layout
import MessageCatalog.Proofs.Text.Utf8

/-!
# Catalogs and their images

A catalog is written as an image, and an image read as a catalog. The one undoes
the other, in both byte orders, on the catalogs whose separators and lines tell
their parts and whose image 32 bits can address (`Writable`): nothing is lost but
the entries without a translation, which are not written.

Reading first, nothing is asked of the image. Whatever it is — its strings may
overlap, its headers be repeated or no UTF-8 —, the catalog that it gives is
*settled*: it is writable but for its length, and all its entries are
translated. So it is written to an image that gives the same catalog.

* `pairs_eq`: the pairs of a catalog are those of the entries that are stored, by ascending key;
* `decode_image_of_sound`: the catalog of the image of a writable catalog;
* `decode_encode`: what is lost, and what is not, from a catalog to its image and
  back;
* `encode_decode`: nothing is lost from an image to its catalog, to the image of
  this one, and so on.
-/

namespace MessageCatalog

namespace Catalog

/-- The length of the image of a catalog: that of a header, of two descriptors for
    each pair, and of the strings with their terminators. -/
def imageLength (c : Catalog) : Nat :=
  Image.layoutLength c.pairs

theorem length_encode (c : Catalog) (order : ByteOrder) :
    (c.encode order).value.length = c.imageLength :=
  Image.length_layout_eq order c.pairs

/-- A catalog whose image tells its parts. -/
structure Writable (c : Catalog) : Prop where
  /-- The parts of every entry are told by their separators. -/
  entries : ∀ e ∈ c.entries.values, e.Separable
  /-- The headers are told by their lines. -/
  headers : ∀ field ∈ c.headers.fields, Legible field
  /-- The words of the image hold its length. -/
  length : c.imageLength ≤ 2 ^ 32 - 1

/-- What an image keeps of a catalog: its translated entries and its headers. -/
def stored (c : Catalog) : Catalog where
  entries := c.entries.filter fun e => !e.isUntranslated
  headers := c.headers
  compiled := none

/-- The pairs of a catalog are its header block and the strings of the entries that are stored. -/
theorem pairs_eq (c : Catalog) : c.pairs = ([], Utf8.encode c.headers.block.toList) ::
    c.stored.entries.toList.map fun p => (p.2.msgid, p.2.msgstr) := by
  have htranslated : c.translated = c.stored.entries.toList.map (·.2) :=
    (KeyMap.values_filter c.entries fun e => !e.isUntranslated).symm
  rw [pairs, htranslated, List.map_map]
  rfl

/-! ### The records of an image -/

theorem decode_layout {pairs : List (Bytes × Bytes)} (h : Image.layoutLength pairs < 2 ^ 32)
    (order : ByteOrder) :
    (decode (Image.layout order pairs)).value = .ok (ofRecords (recordsOf pairs)) := by
  have hreading := Image.reading_layout order h
  refine decode_eq_ok_iff.2 ⟨Image.ofLayout order pairs, Image.read_layout order pairs, ?_, ?_⟩
  · rw [hreading]
  · rw [hreading]

/-- The first pair of an image gives the headers back. -/
theorem ofPair_headers {h : Headers} (hfields : ∀ field ∈ h.fields, Legible field) :
    Record.ofPair [] (Utf8.encode h.block.toList) = .headers h.fields := by
  rw [Record.ofPair, if_pos rfl, Utf8.decodeLossy_encode, String.ofList_toList,
    parseBlock_block hfields]

theorem msgid_ne_nil {e : Entry} (h : e.hasMessage = true) : e.msgid ≠ [] := by
  have hsingular : e.singular ≠ [] := fun hnil => by simp [Entry.hasMessage, hnil] at h
  rw [Entry.msgid, Entry.key]
  cases e.plural <;> cases e.context <;> simp [entryKey, hsingular]

/-- The pair of a translated entry gives the entry back. -/
theorem ofPair_entry {e : Entry} (hs : e.Separable) (hm : e.hasMessage = true)
    (ht : e.isUntranslated = false) : Record.ofPair e.msgid e.msgstr = .entry e := by
  -- A single empty form would be read as none, but it is no translation.
  have hforms : e.forms ≠ [[]] := fun hf => by simp [Entry.isUntranslated, hf] at ht
  rw [Record.ofPair, if_neg (msgid_ne_nil hm)]
  simp only [Entry.ofStrings_strings hs hforms, hm, ht]
  rfl

theorem recordsOf_pairs {c : Catalog} (hs : Sound c) (he : ∀ e ∈ c.entries.values, e.Separable)
    (hh : ∀ field ∈ c.headers.fields, Legible field) :
    recordsOf c.pairs =
      .headers c.headers.fields :: c.stored.entries.toList.map fun p => .entry p.2 := by
  rw [recordsOf, pairs_eq, List.map_cons, ofPair_headers hh, List.map_map]
  refine congrArg _ (List.map_congr_left fun p hp => ?_)
  obtain ⟨hmem, hkeep⟩ := List.mem_filter.1 hp
  exact ofPair_entry (he p.2 (List.mem_map_of_mem hmem)) (hs.message p hmem)
    (by simpa using hkeep)

/-- Records of entries write them under their keys. -/
theorem foldl_absorb_entries {l : List (Bytes × Entry)} (hkeyed : ∀ p ∈ l, p.1 = p.2.key)
    (hmessage : ∀ p ∈ l, p.2.hasMessage = true) (c : Catalog) :
    (l.map fun p => Record.entry p.2).foldl absorb c =
      { c with entries := l.foldl (fun m p => m.insert p.1 p.2) c.entries } := by
  induction l generalizing c with
  | nil => rfl
  | cons p l ih =>
    have hadd : c.add p.2 = { c with entries := c.entries.insert p.1 p.2 } := by
      rw [add, if_pos (hmessage p List.mem_cons_self), hkeyed p List.mem_cons_self]
    rw [List.map_cons, List.foldl_cons, absorb,
      ih (fun q hq => hkeyed q (List.mem_cons_of_mem _ hq))
        (fun q hq => hmessage q (List.mem_cons_of_mem _ hq)), hadd, List.foldl_cons]

/-- The records of a catalog put together what is stored of it. -/
theorem ofRecords_recordsOf {c : Catalog} (hs : Sound c)
    (he : ∀ e ∈ c.entries.values, e.Separable) (hh : ∀ field ∈ c.headers.fields, Legible field) :
    ofRecords (recordsOf c.pairs) = c.stored := by
  have hheaders : empty.setHeaders c.headers.fields = ⟨KeyMap.empty, c.headers, none⟩ := by
    have hset : empty.headers.setAll c.headers.fields = c.headers :=
      Headers.setAll_empty hs.names
    rw [setHeaders_eq, hset, show empty.compiled = none from rfl, ite_self]
    rfl
  have hunion := KeyMap.empty_union c.stored.entries
  rw [KeyMap.union] at hunion
  rw [recordsOf_pairs hs he hh, ofRecords, List.foldl_cons, absorb, hheaders,
    foldl_absorb_entries, hunion]
  · rfl
  · exact fun p hp => hs.keyed p (List.mem_filter.1 hp).1
  · exact fun p hp => hs.message p (List.mem_filter.1 hp).1

/-! ### From catalogs to images and back -/

/-- The image of a writable catalog is read as what is stored of it. -/
theorem decode_image_of_sound {c : Catalog} (hs : Sound c) (hw : Writable c) (order : ByteOrder) :
    (decode (c.encode order).value).value = .ok c.stored := by
  have hlength : Image.layoutLength c.pairs < 2 ^ 32 := Nat.lt_of_le_pred (by decide) hw.length
  rw [← ofRecords_recordsOf hs hw.entries hw.headers]
  exact decode_layout hlength order

/-- A writable catalog survives its image, in both byte orders: all translated
    entries are there again, with their keys, and no others, and all headers in
    their order. -/
theorem decode_encode {c : Catalog} (hc : Reachable c) (hw : Writable c) (order : ByteOrder) :
    ∃ d, (decode (c.encode order).value).value = .ok d ∧
      (∀ key e, d.entries.find? key = some e ↔
        c.entries.find? key = some e ∧ ∃ form ∈ e.forms, form ≠ []) ∧
      d.headers.fields = c.headers.fields := by
  refine ⟨c.stored, decode_image_of_sound hc.sound hw order, fun key e => ?_, rfl⟩
  rw [stored, KeyMap.find?_filter, Option.filter_eq_some_iff, Bool.not_eq_true',
    Entry.isUntranslated_eq_false_iff]

/-- A message with a context and a plural, whose first form is empty. -/
def red : Entry :=
  ⟨[0x72], some [0x73], some [0x63], [[], [0x78]]⟩

/-- A message without a translation. -/
def grey : Entry :=
  ⟨[0x67], none, none, []⟩

/-- A catalog of both, in which only the first one is stored. -/
def colors : Catalog :=
  ((empty.setHeader "Language" "bg").add red).add grey

theorem reachable_colors : Reachable colors :=
  .add _ (.add _ (.setHeader _ _ .empty))

theorem writable_colors : Writable colors where
  entries e he := by
    have hvalues : colors.entries.values = [red, grey] := by decide
    rw [hvalues] at he
    rcases List.mem_pair.1 he with rfl | rfl
    · exact ⟨by decide, by decide, by decide, by decide⟩
    · exact ⟨by decide, by decide, by decide, by decide⟩
  headers field hf := by
    have hfields : colors.headers.fields = [("Language", "bg")] := by decide
    rw [hfields] at hf
    obtain rfl := List.mem_singleton.1 hf
    exact ⟨by decide, by decide, ⟨by decide, by decide, writtenBreak_not_infix (by decide)⟩,
      ⟨by decide, by decide, writtenBreak_not_infix (by decide)⟩⟩
  length := by decide

theorem decode_encode_colors : Reachable colors ∧ Writable colors ∧
    ∃ d, (decode (colors.encode .big).value).value = .ok d ∧
      (∀ key e, d.entries.find? key = some e ↔
        colors.entries.find? key = some e ∧ ∃ form ∈ e.forms, form ≠ []) ∧
      d.headers.fields = colors.headers.fields :=
  ⟨reachable_colors, writable_colors, decode_encode reachable_colors writable_colors .big⟩

/-! ### From images to catalogs and back -/

/-- What can be said of a catalog that was read from an image. -/
structure Settled (c : Catalog) : Prop where
  entries : ∀ p ∈ c.entries.toList, p.2.Separable ∧ p.2.isUntranslated = false
  headers : ∀ field ∈ c.headers.fields, Legible field
  compiled : c.compiled = none

/-- A record that was read from a pair, whatever the pair is. -/
def IsRead : Record → Prop
  | .headers fields => ∀ field ∈ fields, Legible field
  | .entry e => e.Separable ∧ e.isUntranslated = false
  | .empty | .untranslated _ => True

theorem isRead_ofPair (msgid msgstr : Bytes) : IsRead (Record.ofPair msgid msgstr) := by
  rw [Record.ofPair]
  split
  · exact fun field hfield => legible_of_mem_parseBlock hfield
  · dsimp only
    split
    · trivial
    · split
      · trivial
      case isFalse ht => exact ⟨Entry.separable_ofStrings .., by simpa using ht⟩

theorem Settled.empty : Settled empty where
  entries _ hp := nomatch hp
  headers _ hf := nomatch hf
  compiled := rfl

/-- Taking over a record that was read keeps a catalog settled. -/
theorem Settled.absorb {c : Catalog} (h : Settled c) {record : Record} (hr : IsRead record) :
    Settled (c.absorb record) := by
  cases record with
  | headers fields =>
    rw [Catalog.absorb, setHeaders_eq]
    exact ⟨h.entries, Headers.legible_setAll h.headers hr, by simp [h.compiled]⟩
  | entry e =>
    refine ⟨fun p hp => ?_, (headers_add c e).symm ▸ h.headers,
      (compiled_add c e).trans h.compiled⟩
    rcases mem_entries_add c hp with ⟨rfl, -⟩ | hp
    · exact hr
    · exact h.entries p hp
  | empty => exact h
  | untranslated e => exact h

/-- Whatever an image is, the catalog read from it is settled. -/
theorem settled_of_decode {bytes : Bytes} {c : Catalog} (h : (decode bytes).value = .ok c) :
    Settled c := by
  obtain ⟨image, -, -, rfl⟩ := decode_eq_ok_iff.1 h
  generalize image.reading.pairs = pairs
  suffices hfold : ∀ d, Settled d → Settled ((recordsOf pairs).foldl Catalog.absorb d) from
    hfold _ .empty
  induction pairs with
  | nil => exact fun _ hd => hd
  | cons pair pairs ih => exact fun d hd => ih _ (hd.absorb (isRead_ofPair pair.1 pair.2))

/-- All of a settled catalog is stored. -/
theorem Settled.stored_eq {c : Catalog} (h : Settled c) : c.stored = c := by
  have hfilter : c.entries.filter (fun e => !e.isUntranslated) = c.entries :=
    KeyMap.filter_eq_self fun p hp => by simp [(h.entries p hp).2]
  rw [stored, hfilter, ← h.compiled]

/-- Reading and writing again loses nothing, whatever image is read first: the
    catalog is read again from its image, so that writing it once more gives the
    same bytes, however often and in whatever byte orders it was written before. -/
theorem encode_decode {bytes : Bytes} {c : Catalog} (h : (decode bytes).value = .ok c)
    (hlength : c.imageLength ≤ 2 ^ 32 - 1) :
    (∀ order, ∃ d, (decode (c.encode order).value).value = .ok d ∧
      d.entries = c.entries ∧ d.headers = c.headers) ∧
    ∀ order order', ∃ d, (decode (c.encode order').value).value = .ok d ∧
      (d.encode order).value = (c.encode order).value := by
  -- What was read is writable, so it is read again from its own image.
  have hsettled := settled_of_decode h
  have hw : Writable c := by
    refine ⟨fun e he => ?_, hsettled.headers, hlength⟩
    obtain ⟨p, hp, rfl⟩ := List.mem_map.1 he
    exact (hsettled.entries p hp).1
  have hagain : ∀ order, (decode (c.encode order).value).value = .ok c := fun order => by
    rw [decode_image_of_sound (reachable_of_decode h).sound hw, hsettled.stored_eq]
  exact ⟨fun order => ⟨c, hagain order, rfl, rfl⟩, fun _ order' => ⟨c, hagain order', rfl⟩⟩

/-- An image in which everything overlaps: both tables are one, and its only string,
    msgid and msgstr in one, is the magic number. -/
def folded : Bytes :=
  [0xDE, 0x12, 0x04, 0x95, 0, 0, 0, 0, 1, 0, 0, 0, 28, 0, 0, 0, 28, 0, 0, 0, 0, 0, 0, 0,
    0, 0, 0, 0, 4, 0, 0, 0, 0, 0, 0, 0]

/-- The catalog of that image: the magic number is a message in a context. -/
def unfolded : Catalog :=
  empty.add ⟨[0x95], none, some [0xDE, 0x12], [[0xDE, 0x12, 0x04, 0x95]]⟩

theorem encode_decode_folded :
    (decode folded).value = .ok unfolded ∧ unfolded.imageLength ≤ 2 ^ 32 - 1 ∧
    (∀ order, ∃ d, (decode (unfolded.encode order).value).value = .ok d ∧
      d.entries = unfolded.entries ∧ d.headers = unfolded.headers) ∧
    ∀ order order', ∃ d, (decode (unfolded.encode order').value).value = .ok d ∧
      (d.encode order).value = (unfolded.encode order).value :=
  have hdecode : (decode folded).value = .ok unfolded := rfl
  ⟨hdecode, by decide, encode_decode hdecode (by decide)⟩

end Catalog

end MessageCatalog
