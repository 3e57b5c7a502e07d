import Mathlib.Algebra.Ring.Nat
import Mathlib.Data.List.Basic
import MessageCatalog.Image.Layout

/-!
# The layout is where the header says it is

A layout puts its sections one after the other, and computes in 32 bits where
they are. If the whole has fewer than 2³² bytes the words are exact, and an
image is read as the pairs it was laid out from.

* `layoutLength`: the length of a layout, as a sum over its pairs;
* `read_layout`: the header of a layout, of any length, is read as it was written;
* `pair_layout`: the pair at an index is the one laid out there;
* `reading_layout`: so reading gives all the pairs, and no fault.
-/

namespace MessageCatalog.Image

/-- The length of the layout of pairs: a header, two descriptors for every pair, and
    the strings with their terminators. -/
def layoutLength (pairs : List (Bytes × Bytes)) : Nat :=
  28 + 16 * pairs.length + (pairs.map fun pair => pair.1.length + 1).sum +
    (pairs.map fun pair => pair.2.length + 1).sum

theorem room_eq_sum (strings : List Bytes) : room strings = (strings.map (·.length + 1)).sum := by
  induction strings with
  | nil => rfl
  | cons string strings ih => rw [room, ih, List.map_cons, List.sum_cons]

theorem layoutLength_eq (pairs : List (Bytes × Bytes)) :
    layoutLength pairs =
      28 + 16 * pairs.length + room (pairs.map (·.1)) + room (pairs.map (·.2)) := by
  simp only [layoutLength, room_eq_sum, List.map_map]
  rfl

theorem length_layout_eq (order : ByteOrder) (pairs : List (Bytes × Bytes)) :
    (layout order pairs).length = layoutLength pairs := by
  rw [length_layout, layoutLength_eq]

/-! ### Places -/

/-- The byte string `part` stands in `bytes` at an offset. -/
def StandsAt (bytes : Bytes) (offset : Nat) (part : Bytes) : Prop :=
  ∃ before after, bytes = before ++ part ++ after ∧ before.length = offset

theorem StandsAt.slice? {bytes part : Bytes} {offset : Nat} (h : StandsAt bytes offset part) :
    MessageCatalog.slice? bytes offset part.length = some part :=
  let ⟨before, after, hbytes, hoffset⟩ := h
  slice?_eq_some_iff.2 ⟨before, after, hbytes, hoffset, rfl⟩

/-- What stands in a part stands in the whole, behind what precedes the part. -/
theorem StandsAt.trans {bytes part piece : Bytes} {offset inner : Nat}
    (h : StandsAt bytes offset part) (hpiece : StandsAt part inner piece) :
    StandsAt bytes (offset + inner) piece := by
  obtain ⟨before, after, rfl, rfl⟩ := h
  obtain ⟨before', after', rfl, rfl⟩ := hpiece
  exact ⟨before ++ before', after' ++ after, by simp, by simp⟩

theorem StandsAt.of_append {bytes part rest : Bytes} {offset : Nat}
    (h : StandsAt bytes offset (part ++ rest)) : StandsAt bytes offset part := by
  obtain ⟨before, after, rfl, rfl⟩ := h
  exact ⟨before, rest ++ after, by simp, rfl⟩

/-! ### Words -/

/-- A word that is made of a number below 2³² holds it. -/
theorem toNat_word {n : Nat} (h : n < 2 ^ 32) : (UInt32.ofNat n).toNat = n := by
  rw [UInt32.toNat_ofNat', Nat.mod_eq_of_lt h]

/-- The room for strings is counted in words as it is in numbers, up to wrapping. -/
theorem roomWord_eq (strings : List Bytes) : roomWord strings = UInt32.ofNat (room strings) := by
  suffices h : ∀ start, strings.foldl (fun room string => room + (lengthWord string + 1)) start =
      start + UInt32.ofNat (room strings) by
    rw [roomWord, h, UInt32.zero_add]
  induction strings with
  | nil => exact fun start => (UInt32.add_zero start).symm
  | cons string strings ih =>
    intro start
    rw [List.foldl_cons, ih, room, lengthWord, UInt32.ofNat_add, UInt32.ofNat_add,
      UInt32.add_assoc]
    rfl

/-- Where the words of a sequence stand in its bytes. -/
theorem word?_drop_flatMap {order : ByteOrder} {words : List UInt32} {index : Nat} {word : UInt32}
    (h : words[index]? = some word) (rest : Bytes) :
    order.word? ((words.flatMap order.bytes ++ rest).drop (4 * index)) = some word := by
  induction words generalizing index with
  | nil => cases h
  | cons first words ih =>
    rw [List.flatMap_cons, List.append_assoc]
    cases index with
    | zero =>
      cases h
      exact ByteOrder.word?_bytes order word _
    | succ index =>
      have hdrop : ∀ bytes : Bytes, (order.bytes first ++ bytes).drop (4 * (index + 1)) =
          bytes.drop (4 * index) := fun bytes => by
        rw [Nat.mul_add, Nat.add_comm, ← List.drop_drop,
          List.drop_left' (by rw [ByteOrder.length_bytes])]
      rw [hdrop]
      exact ih h

/-- A header that was written is read. -/
theorem read?_words (order : ByteOrder) (h : Header) (rest : Bytes) :
    Header.read? order (h.words.flatMap order.bytes ++ rest) = some h := by
  have hword : ∀ (index : Nat) {word : UInt32}, h.words[index]? = some word →
      order.word? ((h.words.flatMap order.bytes ++ rest).drop (4 * index)) = some word :=
    fun _ _ hi => word?_drop_flatMap hi rest
  simp only [Header.read?, hword 0 rfl, hword 1 rfl, hword 2 rfl,
    hword 3 rfl, hword 4 rfl, hword 5 rfl,
    hword 6 rfl]
  rfl

/-! ### Sections -/

/-- The word where the strings of `n` pairs start. -/
theorem start_eq (n : Nat) :
    (layoutHeader (UInt32.ofNat n)).msgstrs +
        (layoutHeader (UInt32.ofNat n)).count * UInt32.ofNat descriptorLength =
      UInt32.ofNat (28 + 16 * n) := by
  have hn : 28 + 16 * n = headerLength + n * descriptorLength + n * descriptorLength := by
    rw [headerLength, descriptorLength]
    omega
  rw [hn, UInt32.ofNat_add, UInt32.ofNat_add, UInt32.ofNat_mul]
  rfl

/-- The sections of a layout. -/
theorem layout_eq (order : ByteOrder) (pairs : List (Bytes × Bytes)) :
    layout order pairs =
      (layoutHeader (UInt32.ofNat pairs.length)).words.flatMap order.bytes ++
        descriptors order (UInt32.ofNat (28 + 16 * pairs.length)) (pairs.map (·.1)) ++
        descriptors order (UInt32.ofNat (28 + 16 * pairs.length + room (pairs.map (·.1))))
          (pairs.map (·.2)) ++
        terminated (pairs.map (·.1)) ++ terminated (pairs.map (·.2)) := by
  simp only [layout, start_eq, roomWord_eq, UInt32.ofNat_add]

theorem length_words (order : ByteOrder) (h : Header) :
    (h.words.flatMap order.bytes).length = 28 := by
  simp [Header.words]

theorem room_append (first second : List Bytes) :
    room (first ++ second) = room first + room second := by
  simp [room_eq_sum]

theorem descriptors_append (order : ByteOrder) (start : Nat) (first second : List Bytes) :
    descriptors order (UInt32.ofNat start) (first ++ second) =
      descriptors order (UInt32.ofNat start) first ++
        descriptors order (UInt32.ofNat (start + room first)) second := by
  induction first generalizing start with
  | nil => rfl
  | cons string first ih =>
    have hnext : UInt32.ofNat start + (lengthWord string + 1) =
        UInt32.ofNat (start + (string.length + 1)) := by
      rw [UInt32.ofNat_add, UInt32.ofNat_add]
      rfl
    simp only [List.cons_append, descriptors, hnext, ih, room, List.append_assoc, Nat.add_assoc]

theorem terminated_append (first second : List Bytes) :
    terminated (first ++ second) = terminated first ++ terminated second :=
  List.flatMap_append

/-- The bytes of a descriptor. -/
def descriptorBytes (order : ByteOrder) (length offset : UInt32) : Bytes :=
  order.bytes length ++ order.bytes offset

theorem length_descriptorBytes (order : ByteOrder) (length offset : UInt32) :
    (descriptorBytes order length offset).length = descriptorLength := by
  rw [descriptorBytes, List.length_append, ByteOrder.length_bytes, ByteOrder.length_bytes]
  rfl

/-- The descriptor of a string stands behind those of the strings before it. -/
theorem standsAt_descriptors (order : ByteOrder) (start : Nat) (before after : List Bytes)
    (string : Bytes) :
    StandsAt (descriptors order (UInt32.ofNat start) (before ++ string :: after))
      (8 * before.length)
      (descriptorBytes order (lengthWord string) (UInt32.ofNat (start + room before))) := by
  refine ⟨descriptors order (UInt32.ofNat start) before,
    descriptors order (UInt32.ofNat (start + room before) + (lengthWord string + 1)) after,
    ?_, length_descriptors ..⟩
  simp only [descriptors_append, descriptors, descriptorBytes, List.append_assoc]

/-- A string stands with its terminator behind the strings before it and theirs. -/
theorem standsAt_terminated (before after : List Bytes) (string : Bytes) :
    StandsAt (terminated (before ++ string :: after)) (room before) (string ++ [0]) := by
  refine ⟨terminated before, terminated after, ?_, length_terminated before⟩
  rw [terminated_append]
  simp [terminated]

variable (order : ByteOrder) (pairs : List (Bytes × Bytes))

/-- Where the table of msgids stands. -/
theorem standsAt_msgids : StandsAt (layout order pairs) 28
    (descriptors order (UInt32.ofNat (28 + 16 * pairs.length)) (pairs.map (·.1))) :=
  ⟨_, _, by rw [layout_eq, List.append_assoc, List.append_assoc], length_words ..⟩

/-- Where the table of msgstrs stands. -/
theorem standsAt_msgstrs : StandsAt (layout order pairs) (28 + 8 * pairs.length)
    (descriptors order (UInt32.ofNat (28 + 16 * pairs.length + room (pairs.map (·.1))))
      (pairs.map (·.2))) :=
  ⟨_, _, by rw [layout_eq, List.append_assoc], by
    rw [List.length_append, length_words, length_descriptors, List.length_map]⟩

/-- Where the msgids stand. -/
theorem standsAt_terminated_msgids :
    StandsAt (layout order pairs) (28 + 16 * pairs.length) (terminated (pairs.map (·.1))) :=
  ⟨_, _, layout_eq order pairs, by
    simp only [List.length_append, length_words, length_descriptors, List.length_map]
    omega⟩

/-- Where the msgstrs stand. -/
theorem standsAt_terminated_msgstrs :
    StandsAt (layout order pairs) (28 + 16 * pairs.length + room (pairs.map (·.1)))
      (terminated (pairs.map (·.2))) :=
  ⟨_, [], by rw [layout_eq, List.append_nil], by
    simp only [List.length_append, length_words, length_descriptors, length_terminated,
      List.length_map]
    omega⟩

variable {order pairs}

/-! ### Reading -/

theorem orderOfMagic?_layout (order : ByteOrder) (rest : Bytes) :
    ∃ word, ByteOrder.little.word? (order.bytes magicNumber ++ rest) = some word ∧
      orderOfMagic? word = some order := by
  -- The magic number is read in little-endian order, and tells the order of the rest.
  cases order
  · exact ⟨magicNumber, rfl, rfl⟩
  · exact ⟨swappedMagicNumber, rfl, rfl⟩

/-- A header with the magic number and a known revision is read, whatever follows it. -/
theorem read_words (order : ByteOrder) {header : Header} (hmagic : header.magic = magicNumber)
    (hmajor : header.major = 0) (rest : Bytes) :
    Image.read (header.words.flatMap order.bytes ++ rest) =
      .ok ⟨header.words.flatMap order.bytes ++ rest, order, header⟩ := by
  obtain ⟨word, hword, horder⟩ := orderOfMagic?_layout order
    (header.words.tail.flatMap order.bytes ++ rest)
  have hfirst : ByteOrder.little.word? (header.words.flatMap order.bytes ++ rest) = some word := by
    rw [← hword, ← List.append_assoc, ← hmagic]
    rfl
  simp only [Image.read, hfirst, horder, read?_words, hmajor, ↓reduceIte]

/-- The header of a layout is read as it was written. -/
theorem read_layout (order : ByteOrder) (pairs : List (Bytes × Bytes)) :
    Image.read (layout order pairs) =
      .ok ⟨layout order pairs, order, layoutHeader (UInt32.ofNat pairs.length)⟩ := by
  let header := layoutHeader (UInt32.ofNat pairs.length)
  have hprefix : header.words.flatMap order.bytes <+: layout order pairs := by
    rw [layout_eq, List.append_assoc, List.append_assoc, List.append_assoc]
    exact List.prefix_append ..
  obtain ⟨rest, hrest⟩ := hprefix
  have hmajor : header.major = 0 := by simp [header, Header.major, layoutHeader]
  rw [← hrest]
  exact read_words order rfl hmajor rest

theorem read?_descriptorBytes (order : ByteOrder) (length offset : UInt32) :
    Descriptor.read? order (descriptorBytes order length offset) = some ⟨length, offset⟩ := by
  have hoffset := ByteOrder.word?_bytes order offset []
  rw [List.append_nil] at hoffset
  rw [Descriptor.read?, descriptorBytes, ByteOrder.word?_bytes,
    List.drop_left' (ByteOrder.length_bytes order length), hoffset]
  rfl

/-- The string that a descriptor in a table describes. -/
theorem string_eq_ok {image : Image} {table length offset : UInt32} {index place : Nat}
    {string : Bytes} (part : Part) (htable : table.toNat + 8 * index = place)
    (hplace : StandsAt image.bytes place (descriptorBytes image.order length offset))
    (hlength : string.length = length.toNat) (hstring : StandsAt image.bytes offset.toNat string) :
    image.string table index part = .ok string := by
  have hindex : descriptorOffset table index = place := htable
  have hdescriptor := hplace.slice?
  rw [length_descriptorBytes] at hdescriptor
  have hslice := hstring.slice?
  rw [hlength] at hslice
  simp only [Image.string, hindex, hdescriptor, Option.bind_some, read?_descriptorBytes, hslice]

/-- The image that a layout is read as. -/
def ofLayout (order : ByteOrder) (pairs : List (Bytes × Bytes)) : Image :=
  ⟨layout order pairs, order, layoutHeader (UInt32.ofNat pairs.length)⟩

/-- The table of msgstrs starts behind that of the msgids. -/
theorem toNat_msgstrs {n : Nat} (h : 28 + 16 * n < 2 ^ 32) :
    (layoutHeader (UInt32.ofNat n)).msgstrs.toNat = 28 + 8 * n := by
  have hword : (layoutHeader (UInt32.ofNat n)).msgstrs = UInt32.ofNat (28 + n * 8) := by
    rw [UInt32.ofNat_add, UInt32.ofNat_mul]
    rfl
  rw [hword, toNat_word (by omega)]
  omega

theorem room_split_le (before after : List Bytes) (string : Bytes) :
    room before + string.length < room (before ++ string :: after) := by
  rw [room_append, room]
  omega

variable (order) {before after : List Bytes} {string : Bytes}

/-- The msgid at an index is the one laid out there. -/
theorem msgid_layout (hsize : layoutLength pairs < 2 ^ 32)
    (hpairs : pairs.map (·.1) = before ++ string :: after) :
    (ofLayout order pairs).string (ofLayout order pairs).header.msgids before.length .msgid =
      .ok string := by
  have hlength := layoutLength_eq pairs
  have hroom := room_split_le before after string
  rw [← hpairs] at hroom
  have hplace := (standsAt_msgids order pairs).trans
    (hpairs ▸ standsAt_descriptors order _ before after string)
  have hstring := (standsAt_terminated_msgids order pairs).trans
    (hpairs ▸ standsAt_terminated before after string)
  refine string_eq_ok .msgid rfl hplace ?_ ?_
  · rw [lengthWord, toNat_word (by omega)]
  · rw [toNat_word (by omega)]
    exact hstring.of_append

/-- The msgstr at an index is the one laid out there. -/
theorem msgstr_layout (hsize : layoutLength pairs < 2 ^ 32)
    (hpairs : pairs.map (·.2) = before ++ string :: after) :
    (ofLayout order pairs).string (ofLayout order pairs).header.msgstrs before.length .msgstr =
      .ok string := by
  have hlength := layoutLength_eq pairs
  have hroom := room_split_le before after string
  rw [← hpairs] at hroom
  have hplace := (standsAt_msgstrs order pairs).trans
    (hpairs ▸ standsAt_descriptors order _ before after string)
  have hstring := (standsAt_terminated_msgstrs order pairs).trans
    (hpairs ▸ standsAt_terminated before after string)
  refine string_eq_ok .msgstr ?_ hplace ?_ ?_
  · rw [ofLayout, toNat_msgstrs (by omega)]
  · rw [lengthWord, toNat_word (by omega)]
  · rw [toNat_word (by omega)]
    exact hstring.of_append

/-- The pair at an index is the one laid out there. -/
theorem pair_layout {first second : List (Bytes × Bytes)} {pair : Bytes × Bytes}
    (hsize : layoutLength pairs < 2 ^ 32) (hpairs : pairs = first ++ pair :: second) :
    (ofLayout order pairs).pair first.length = .ok pair := by
  have hmsgids : pairs.map (·.1) = first.map (·.1) ++ pair.1 :: second.map (·.1) := by
    simp [hpairs]
  have hmsgstrs : pairs.map (·.2) = first.map (·.2) ++ pair.2 :: second.map (·.2) := by
    simp [hpairs]
  have hmsgid := msgid_layout order hsize hmsgids
  have hmsgstr := msgstr_layout order hsize hmsgstrs
  rw [List.length_map] at hmsgid hmsgstr
  rw [Image.pair, hmsgid, hmsgstr]
  rfl

/-- Reading a layout gives the pairs it was laid out from. -/
theorem reading_layout (hsize : layoutLength pairs < 2 ^ 32) :
    (ofLayout order pairs).reading = ⟨pairs, none⟩ := by
  -- From the index behind the pairs `first` on, the pairs `second` are read.
  have hfrom : ∀ second first, pairs = first ++ second →
      (ofLayout order pairs).readingFrom first.length second.length = ⟨second, none⟩ := by
    intro second
    induction second with
    | nil => exact fun first _ => rfl
    | cons pair second ih =>
      intro first hpairs
      have hnext := ih (first ++ [pair]) (by rw [hpairs, List.append_assoc]; rfl)
      rw [List.length_append, List.length_singleton] at hnext
      rw [List.length_cons, readingFrom, pair_layout order hsize hpairs]
      simp only [hnext]
  have hcount : (ofLayout order pairs).count = pairs.length := by
    have hlength := layoutLength_eq pairs
    exact toNat_word (by omega)
  rw [reading, hcount]
  exact hfrom pairs [] rfl

end MessageCatalog.Image
