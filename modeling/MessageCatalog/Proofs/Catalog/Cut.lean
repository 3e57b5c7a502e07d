import MessageCatalog.Proofs.Catalog.Acceptance
import MessageCatalog.Proofs.Catalog.RoundTrip
import MessageCatalog.Proofs.Except
import MessageCatalog.Proofs.Image.Words

/-!
# Cut files

Reading looks at the ranges that the header and the descriptors tell, and nowhere else. So
nothing that follows an image matters, and a file that was cut is still an image only if all
these ranges are left. In the image of a catalog the last of them, which is that of the last
msgstr, ends one byte before the end, where its terminator stands. This byte is all that can
be missing.

* `decode_append`: bytes behind an image change nothing;
* `isSound_cut_layout_iff`: of a layout, all but the last byte is needed;
* `isTruncated_of_cut`: a cut of an image that is no image has a part outside;
* `decode_cut_image`: what becomes of the image of a catalog when it is cut.
-/

namespace MessageCatalog

/-! ### Appended bytes -/

theorem ByteOrder.word?_append {order : ByteOrder} {bytes : Bytes} (h : 4 ≤ bytes.length)
    (rest : Bytes) : order.word? (bytes ++ rest) = order.word? bytes := by
  rw [← word?_take order _ (Nat.le_refl 4), List.take_append_of_le_length h,
    word?_take order _ (Nat.le_refl 4)]

/-- What is inside of bytes is there if other bytes follow. -/
theorem slice?_append {bytes part : Bytes} {offset length : Nat}
    (h : slice? bytes offset length = some part) (rest : Bytes) :
    slice? (bytes ++ rest) offset length = some part := by
  obtain ⟨before, after, rfl, hoffset, hlength⟩ := slice?_eq_some_iff.1 h
  exact slice?_eq_some_iff.2 ⟨before, after ++ rest, List.append_assoc .., hoffset, hlength⟩

namespace Image

section Header

variable {bytes : Bytes}

theorem orderOf_append (h : 4 ≤ bytes.length) (rest : Bytes) :
    orderOf (bytes ++ rest) = orderOf bytes := by
  rw [orderOf, List.take_append_of_le_length h, ← orderOf]

theorem wordAt_append {offset : Nat} (h : offset + 4 ≤ bytes.length) (rest : Bytes) :
    wordAt (bytes ++ rest) offset = wordAt bytes offset := by
  have hdrop : 4 ≤ (bytes.drop offset).length := by
    rw [List.length_drop]
    omega
  rw [wordAt, orderOf_append (by omega), List.drop_append_of_le_length (by omega),
    ByteOrder.word?_append hdrop, ← wordAt]

theorem headerOf_append (h : headerLength ≤ bytes.length) (rest : Bytes) :
    headerOf (bytes ++ rest) = headerOf bytes := by
  have hword : ∀ offset, offset ≤ 24 → wordAt (bytes ++ rest) offset = wordAt bytes offset :=
    fun offset hoffset => wordAt_append (by rw [headerLength] at h; omega) rest
  simp only [headerOf, hword _ (by decide : 0 ≤ 24), hword _ (by decide : 4 ≤ 24),
    hword _ (by decide : 8 ≤ 24), hword _ (by decide : 12 ≤ 24), hword _ (by decide : 16 ≤ 24),
    hword _ (by decide : 20 ≤ 24), hword _ (Nat.le_refl 24)]

/-- A byte string is read as an image iff the checks of its header pass. -/
theorem read_eq_ok_iff {image : Image} : Image.read bytes = .ok image ↔
    (∀ check ∈ headerChecks, check.Passes bytes) ∧ image = ofBytes bytes := by
  rw [read_eq, ← firstFault_eq_none_iff]
  cases firstFault bytes headerChecks <;> simp [eq_comm]

/-- Other bytes behind a header that is complete do not change what its checks find. -/
theorem passes_append_iff (h : headerLength ≤ bytes.length) (rest : Bytes) {check : Check}
    (hcheck : check ∈ headerChecks) : check.Passes (bytes ++ rest) ↔ check.Passes bytes := by
  rw [headerLength] at h
  simp only [headerChecks, List.mem_cons, List.not_mem_nil, or_false] at hcheck
  rcases hcheck with rfl | rfl | rfl
  · rw [Check.Passes, Check.Passes, orderOf_append (by omega),
      List.take_append_of_le_length (by omega)]
  · rw [Check.passes_header_iff, Check.passes_header_iff, List.length_append, headerLength]
    omega
  · rw [Check.Passes, Check.Passes, wordAt_append (by omega)]

end Header

/-- The image with other bytes behind it. -/
def followedBy (image : Image) (rest : Bytes) : Image :=
  { image with bytes := image.bytes ++ rest }

theorem read_append {bytes : Bytes} {image : Image} (h : Image.read bytes = .ok image)
    (rest : Bytes) : Image.read (bytes ++ rest) = .ok (image.followedBy rest) := by
  obtain ⟨hpasses, rfl⟩ := read_eq_ok_iff.1 h
  have hlength : headerLength ≤ bytes.length :=
    Check.passes_header_iff.1 (hpasses .header (by decide))
  refine read_eq_ok_iff.2 ⟨fun check hcheck => ?_, ?_⟩
  · exact (passes_append_iff hlength rest hcheck).2 (hpasses check hcheck)
  · have horder : orderOf (bytes ++ rest) = orderOf bytes :=
      orderOf_append (Nat.le_trans (by decide) hlength) rest
    have hheader := headerOf_append hlength rest
    show Image.mk (bytes ++ rest) (orderOf bytes) (headerOf bytes) = _
    rw [← horder, ← hheader, ← ofBytes]

variable {image : Image} {index : Nat}

/-- A string is read iff its descriptor is inside, and the range that this tells. -/
theorem string_eq_ok_iff {table : UInt32} {part : Part} {string : Bytes} :
    image.string table index part = .ok string ↔
      ∃ bytes descriptor,
        slice? image.bytes (descriptorOffset table index) descriptorLength = some bytes ∧
        Descriptor.read? image.order bytes = some descriptor ∧
        slice? image.bytes descriptor.offset.toNat descriptor.length.toNat = some string := by
  rw [Image.string]
  dsimp only
  cases slice? image.bytes (descriptorOffset table index) descriptorLength with
  | none => simp
  | some bytes =>
    rw [Option.bind_some]
    cases hread : Descriptor.read? image.order bytes with
    | none => simp [hread]
    | some descriptor =>
      cases hslice : slice? image.bytes descriptor.offset.toNat descriptor.length.toNat <;>
        simp [hread, hslice]

theorem string_append {table : UInt32} {part : Part} {string : Bytes}
    (h : image.string table index part = .ok string) (rest : Bytes) :
    (image.followedBy rest).string table index part = .ok string := by
  obtain ⟨bytes, descriptor, hplace, hread, hstring⟩ := string_eq_ok_iff.1 h
  exact string_eq_ok_iff.2
    ⟨bytes, descriptor, slice?_append hplace rest, hread, slice?_append hstring rest⟩

theorem pair_eq_ok_iff {pair : Bytes × Bytes} :
    image.pair index = .ok pair ↔
      image.string image.header.msgids index .msgid = .ok pair.1 ∧
        image.string image.header.msgstrs index .msgstr = .ok pair.2 :=
  both_eq_ok_iff

theorem pair_append {pair : Bytes × Bytes} (h : image.pair index = .ok pair) (rest : Bytes) :
    (image.followedBy rest).pair index = .ok pair := by
  obtain ⟨hmsgid, hmsgstr⟩ := pair_eq_ok_iff.1 h
  exact pair_eq_ok_iff.2 ⟨string_append hmsgid rest, string_append hmsgstr rest⟩

theorem readingFrom_append {count : Nat} (h : (image.readingFrom index count).fault = none)
    (rest : Bytes) :
    (image.followedBy rest).readingFrom index count = image.readingFrom index count := by
  induction count generalizing index with
  | zero => rfl
  | succ count ih =>
    rw [readingFrom] at h
    rw [readingFrom, readingFrom]
    cases hpair : image.pair index with
    | error fault =>
      rw [hpair] at h
      cases h
    | ok pair =>
      rw [hpair] at h
      rw [pair_append hpair rest]
      dsimp only
      rw [ih h]

/-- A reading without a fault is the same if other bytes follow. -/
theorem reading_append (h : image.reading.fault = none) (rest : Bytes) :
    (image.followedBy rest).reading = image.reading :=
  readingFrom_append h rest

/-! ### Layouts -/

section Layout

variable {order : ByteOrder} {pairs : List (Bytes × Bytes)}

/-- All strings of a layout end before its last byte. -/
theorem exists_placed (hsize : layoutLength pairs < 2 ^ 32) {index : Nat}
    (hindex : index < pairs.length) {table : UInt32}
    (htable : table ∈ [wordAt (layout order pairs) 12, wordAt (layout order pairs) 16]) :
    table.toNat + 8 * index + 8 ≤ 28 + 16 * pairs.length ∧
      ∃ string offset, Placed (layout order pairs) (table.toNat + 8 * index) string offset ∧
        offset + string.length < layoutLength pairs := by
  have hlength := layoutLength_eq pairs
  rcases List.mem_pair.1 htable with rfl | rfl
  · obtain ⟨before, string, after, hpairs, rfl⟩ :=
      exists_split (pairs.map (·.1)) (by rwa [List.length_map])
    have hroom := room_split_le before after string
    rw [← hpairs] at hroom
    rw [wordAt_layout_msgids]
    exact ⟨by omega, string, _, placed_msgid order hsize hpairs, by omega⟩
  · obtain ⟨before, string, after, hpairs, rfl⟩ :=
      exists_split (pairs.map (·.2)) (by rwa [List.length_map])
    have hroom := room_split_le before after string
    rw [← hpairs] at hroom
    rw [wordAt_layout_msgstrs order hsize]
    exact ⟨by omega, string, _, placed_msgstr order hsize hpairs, by omega⟩

/-- The last msgstr of a layout ends where only its terminator follows. -/
theorem exists_placed_last (order : ByteOrder) (hsize : layoutLength pairs < 2 ^ 32)
    (hne : pairs ≠ []) :
    ∃ index string offset, index + 1 = pairs.length ∧
      Placed (layout order pairs) (28 + 8 * pairs.length + 8 * index) string offset ∧
      offset + string.length + 1 = layoutLength pairs := by
  obtain ⟨first, last, rfl⟩ := (List.eq_nil_or_concat pairs).resolve_left hne
  have hpairs : (first.concat last).map (·.2) = first.map (·.2) ++ [last.2] := by simp
  have hroom : room ((first.concat last).map (·.2)) =
      room (first.map (·.2)) + (last.2.length + 1) := by
    rw [hpairs, room_append, room, room, Nat.add_zero]
  have hplaced := placed_msgstr order hsize hpairs
  rw [List.length_map] at hplaced
  refine ⟨first.length, last.2, _, ?_, hplaced, ?_⟩
  · rw [List.length_concat]
  · rw [layoutLength_eq, hroom]
    omega

theorem length_le_room (strings : List Bytes) : strings.length ≤ room strings := by
  induction strings with
  | nil => exact Nat.le_refl 0
  | cons string strings ih =>
    rw [List.length_cons, room]
    omega

/-- What is left of a layout is an image iff no more than the last byte is missing. -/
theorem isSound_cut_layout_iff (hsize : layoutLength pairs < 2 ^ 32) (hne : pairs ≠ [])
    {cut rest : Bytes} (h : cut ++ rest = layout order pairs) : IsSound cut ↔ rest.length ≤ 1 := by
  have hlength : cut.length + rest.length = layoutLength pairs := by
    rw [← List.length_append, h, length_layout_eq]
  have hword : ∀ {offset}, offset + 4 ≤ cut.length →
      wordAt cut offset = wordAt (layout order pairs) offset := fun hoffset => by
    rw [← h, wordAt_append hoffset]
  have hpos := List.length_pos_of_ne_nil hne
  have hroom := layoutLength_eq pairs
  have hmsgids := length_le_room (pairs.map (·.1))
  rw [List.length_map] at hmsgids
  constructor
  · intro hsound
    have hheader := hsound.header
    obtain ⟨index, string, offset, hindex, hplaced, hend⟩ := exists_placed_last order hsize hne
    have hpair := hsound.pairs index ?_ (wordAt cut 16) (by simp)
    · simp only [hword (show 16 + 4 ≤ cut.length by omega),
        wordAt_layout_msgstrs order hsize] at hpair
      rw [hword (by omega), hword (by omega), hplaced.length_eq, hplaced.offset_eq] at hpair
      omega
    · rw [hword (by omega), wordAt_layout_count order hsize]
      omega
  · intro hrest
    have hheader : ∀ check ∈ headerChecks, check.Passes cut := by
      intro check hcheck
      rw [← passes_append_iff (by rw [headerLength]; omega) rest hcheck, h]
      exact firstFault_eq_none_iff.1 (ofBytes_layout order pairs).1 check hcheck
    refine ⟨by omega, Check.passes_magic_iff.1 (hheader .magic (by decide)),
      hheader .revision (by decide), fun index hindex table htable => ?_⟩
    rw [hword (by omega), wordAt_layout_count order hsize] at hindex
    rw [hword (by omega), hword (by omega)] at htable
    obtain ⟨hplace, string, offset, hplaced, hend⟩ := exists_placed hsize hindex htable
    refine ⟨by omega, ?_⟩
    rw [hword (by omega), hword (by omega), hplaced.length_eq, hplaced.offset_eq]
    omega

end Layout

end Image

namespace Catalog

open Image

/-- Bytes behind an image change nothing, not even what is reported. -/
theorem decode_append {bytes : Bytes} {c : Catalog} (h : (decode bytes).value = .ok c)
    (rest : Bytes) : decode (bytes ++ rest) = decode bytes := by
  obtain ⟨image, hread, hfault, -⟩ := decode_eq_ok_iff.1 h
  rw [decode, decode, read_append hread, hread]
  dsimp only
  rw [ofImage, ofImage, reading_append hfault]
  rfl

/-! ### Cuts -/

/-- A byte string has a catalog iff it is a sound image. -/
theorem exists_decode_iff_isSound {bytes : Bytes} :
    (∃ c, (decode bytes).value = .ok c) ↔ IsSound bytes := by
  rw [← faultOf_eq_none_iff, faultOf_decode, firstFault_eq_none_iff, isSound_iff]

/-- A byte string is refused because some part of it lies outside. -/
def IsTruncated (bytes : Bytes) : Prop :=
  ∃ part offset length, (decode bytes).value = .error (.outside part offset length) ∧
    bytes.length < offset + length

/-- A check that fails, and is neither of the magic number nor of the revision, is of a range
    that does not lie inside. -/
theorem isTruncated_of_fault {bytes : Bytes} {check : Check} (hfails : ¬check.Passes bytes)
    (hmagic : check ≠ .magic) (hrevision : check ≠ .revision)
    (h : (decode bytes).value = .error (check.fault bytes)) : IsTruncated bytes := by
  cases check with
  | magic => exact absurd rfl hmagic
  | revision => exact absurd rfl hrevision
  | header => exact ⟨_, _, _, h, Nat.not_le.1 hfails⟩
  | descriptor place => exact ⟨_, _, _, h, Nat.not_le.1 hfails⟩
  | string part place => exact ⟨_, _, _, h, Nat.not_le.1 hfails⟩

theorem decode_of_length_lt_four {bytes : Bytes} (h : bytes.length < 4) :
    (decode bytes).value = .error (.badMagic 0) := by
  rw [decode, Image.read, ByteOrder.word?_eq_none_iff.2 h]
  rfl

/-- If an image is cut and no image is left, something in it lies outside: the magic number
    and the revision are those of the image. -/
theorem isTruncated_of_cut {cut rest : Bytes} (hsound : IsSound (cut ++ rest))
    (hcut : ¬IsSound cut) (hlength : 4 ≤ cut.length) : IsTruncated cut := by
  have hmagic : Check.magic.Passes cut := by
    rw [Check.passes_magic_iff, ← List.take_append_of_le_length hlength]
    exact hsound.magic
  by_cases hheader : headerLength ≤ cut.length
  · have hpasses : ∀ check ∈ headerChecks, check.Passes cut := by
      intro check hcheck
      rw [← passes_append_iff hheader rest hcheck]
      exact isSound_iff.1 hsound check (List.mem_append_left _ hcheck)
    obtain ⟨fault, hfault⟩ : ∃ fault, (decode cut).value = .error fault := by
      cases hdecode : (decode cut).value with
      | error fault => exact ⟨fault, rfl⟩
      | ok c => exact absurd (exists_decode_iff_isSound.1 ⟨c, hdecode⟩) hcut
    have hfirst := faultOf_decode cut
    rw [hfault, eq_comm, faultOf, firstFault_eq_some_iff] at hfirst
    obtain ⟨-, check, -, -, -, hfails, rfl⟩ := hfirst
    refine isTruncated_of_fault hfails ?_ ?_ hfault
    · rintro rfl
      exact hfails (hpasses _ (by decide))
    · rintro rfl
      exact hfails (hpasses _ (by decide))
  · -- The length of the header is tested before its words are looked at.
    have hfails : ¬Check.header.Passes cut := mt Check.passes_header_iff.1 hheader
    have hfirst := faultOf_decode cut
    rw [checks, headerChecks, List.cons_append, firstFault_cons, if_pos hmagic, List.cons_append,
      firstFault_cons, if_neg hfails, faultOf_eq_some_iff] at hfirst
    exact isTruncated_of_fault hfails (by simp) (by simp) hfirst

/-- A file that was cut is not taken for a catalog, unless it lacks nothing but the last
    terminator of the image of a catalog: then it has the catalog of this image. Any other part
    of the image, from its start on, is no image, because it is too short for a magic number or
    for something that it tells. What follows an image, on the other hand, changes nothing. -/
theorem decode_cut_image :
    (∀ (c : Catalog) (order : ByteOrder), (c.encode order).value.length ≤ 2 ^ 32 - 1 →
      ∃ d, (decode (c.encode order).value).value = .ok d ∧
        ∀ cut rest, cut ++ rest = (c.encode order).value →
          (rest.length = 1 → (decode cut).value = .ok d) ∧
          (2 ≤ rest.length → if cut.length < 4 then (decode cut).value = .error (.badMagic 0)
            else IsTruncated cut)) ∧
    ∀ bytes d, (decode bytes).value = .ok d → ∀ rest, decode (bytes ++ rest) = decode bytes := by
  refine ⟨fun c order hlength => ?_, fun bytes d h rest => decode_append h rest⟩
  have hsize : layoutLength c.pairs < 2 ^ 32 := by
    rw [length_encode, imageLength] at hlength
    omega
  have hdecode := decode_layout hsize order
  refine ⟨_, hdecode, fun cut rest hcut => ?_⟩
  have hsound := isSound_cut_layout_iff hsize (List.cons_ne_nil _ _) hcut
  refine ⟨fun hrest => ?_, fun hrest => ?_⟩
  · obtain ⟨d, hd⟩ := exists_decode_iff_isSound.2 (hsound.2 (Nat.le_of_eq hrest))
    have hsame := decode_append hd rest
    rw [hcut] at hsame
    rw [← hsame]
    exact hdecode
  · split
    case isTrue hshort => exact decode_of_length_lt_four hshort
    case isFalse hlong =>
      have hwhole : IsSound (cut ++ rest) := by
        rw [hcut, ← exists_decode_iff_isSound]
        exact ⟨_, hdecode⟩
      exact isTruncated_of_cut hwhole (by rw [hsound]; omega) (Nat.not_lt.1 hlong)

/-- Without its last two bytes, the image is no image. -/
theorem decode_cut_image_colors :
    (colors.encode .big).value.length ≤ 2 ^ 32 - 1 ∧
      IsTruncated ((colors.encode .big).value.take 81) := by
  have hlength : (colors.encode .big).value.length ≤ 2 ^ 32 - 1 := by decide
  obtain ⟨d, -, hcut⟩ := decode_cut_image.1 colors .big hlength
  exact ⟨hlength, (hcut _ _ (List.take_append_drop 81 _)).2 (by decide)⟩

end Catalog

end MessageCatalog
