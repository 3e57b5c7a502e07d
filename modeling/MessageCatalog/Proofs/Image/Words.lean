import MessageCatalog.Proofs.Image.Checks
import MessageCatalog.Proofs.Image.Layout

/-!
# The words of a layout

All that a reader knows of a file is the words at its offsets. Those of a layout of fewer than
2³² bytes say what was laid out: the words of a descriptor are the length of a string, and the
offset at which the string stands, with a zero byte behind it.

* `ofBytes_layout`: the header of a layout;
* `placed_msgid`, `placed_msgstr`: where the descriptor of a string stands, and what it says;
* `split_of_getElem?`, `exists_split`: at every index stands a string, between others;
* `layout_big`: the words are all in front, and only they depend on the byte order.
-/

namespace MessageCatalog.Image

/-- The word that stands at an offset. -/
theorem wordAt_of_standsAt {bytes : Bytes} {offset : Nat} {word : UInt32}
    (h : StandsAt bytes offset ((orderOf bytes).bytes word)) : wordAt bytes offset = word := by
  obtain ⟨before, after, hbytes, rfl⟩ := h
  have hdrop : bytes.drop before.length = (orderOf bytes).bytes word ++ after := by
    conv_lhs => rw [hbytes]
    rw [List.append_assoc, List.drop_left]
  rw [wordAt, hdrop, ByteOrder.word?_bytes, Option.getD_some]

/-- The words of the descriptor that stands at an offset. -/
theorem wordAt_descriptorBytes {bytes : Bytes} {order : ByteOrder} {place : Nat}
    {length offset : UInt32} (horder : orderOf bytes = order)
    (h : StandsAt bytes place (descriptorBytes order length offset)) :
    wordAt bytes place = length ∧ wordAt bytes (place + 4) = offset := by
  subst horder
  have hlength : StandsAt (descriptorBytes (orderOf bytes) length offset) 0
      ((orderOf bytes).bytes length) := ⟨[], _, rfl, rfl⟩
  have hoffset : StandsAt (descriptorBytes (orderOf bytes) length offset) 4
      ((orderOf bytes).bytes offset) :=
    ⟨_, [], (List.append_nil _).symm, ByteOrder.length_bytes ..⟩
  exact ⟨wordAt_of_standsAt (h.trans hlength), wordAt_of_standsAt (h.trans hoffset)⟩

variable {order : ByteOrder} {pairs : List (Bytes × Bytes)}

/-- The header checks of a layout pass, and its header is the one that was written. -/
theorem ofBytes_layout (order : ByteOrder) (pairs : List (Bytes × Bytes)) :
    firstFault (layout order pairs) headerChecks = none ∧
      ofBytes (layout order pairs) = ofLayout order pairs := by
  have hread := read_layout order pairs
  rw [read_eq] at hread
  cases hfault : firstFault (layout order pairs) headerChecks with
  | some fault =>
    rw [hfault] at hread
    cases hread
  | none =>
    rw [hfault] at hread
    exact ⟨rfl, Except.ok.inj hread⟩

theorem orderOf_layout (order : ByteOrder) (pairs : List (Bytes × Bytes)) :
    orderOf (layout order pairs) = order :=
  congrArg Image.order (ofBytes_layout order pairs).2

theorem headerOf_layout (order : ByteOrder) (pairs : List (Bytes × Bytes)) :
    headerOf (layout order pairs) = layoutHeader (UInt32.ofNat pairs.length) :=
  congrArg Image.header (ofBytes_layout order pairs).2

section Header

variable (order) (hsize : layoutLength pairs < 2 ^ 32)
include hsize

theorem wordAt_layout_count : (wordAt (layout order pairs) 8).toNat = pairs.length := by
  have hword : wordAt (layout order pairs) 8 = UInt32.ofNat pairs.length :=
    congrArg Header.count (headerOf_layout order pairs)
  have hlength := layoutLength_eq pairs
  rw [hword, toNat_word (by omega)]

omit hsize in
theorem wordAt_layout_msgids : (wordAt (layout order pairs) 12).toNat = 28 :=
  congrArg (·.msgids.toNat) (headerOf_layout order pairs)

theorem wordAt_layout_msgstrs :
    (wordAt (layout order pairs) 16).toNat = 28 + 8 * pairs.length := by
  have hword : wordAt (layout order pairs) 16 =
      (layoutHeader (UInt32.ofNat pairs.length)).msgstrs :=
    congrArg Header.msgstrs (headerOf_layout order pairs)
  have hlength := layoutLength_eq pairs
  rw [hword, toNat_msgstrs (by omega)]

end Header

/-! ### Strings -/

/-- The descriptor at a place says that a string stands at an offset. -/
structure Placed (bytes : Bytes) (place : Nat) (string : Bytes) (offset : Nat) : Prop where
  /-- The first word is the length of the string. -/
  length_eq : (wordAt bytes place).toNat = string.length
  /-- The second word is the offset. -/
  offset_eq : (wordAt bytes (place + 4)).toNat = offset
  /-- The string is there, with its terminator. -/
  stands : StandsAt bytes offset (string ++ [0])

variable {before after : List Bytes} {string : Bytes}

/-- Where the descriptor of a msgid stands, and what it says. -/
theorem placed_msgid (order : ByteOrder) (hsize : layoutLength pairs < 2 ^ 32)
    (hpairs : pairs.map (·.1) = before ++ string :: after) :
    Placed (layout order pairs) (28 + 8 * before.length) string
      (28 + 16 * pairs.length + room before) := by
  have hlength := layoutLength_eq pairs
  have hroom := room_split_le before after string
  rw [← hpairs] at hroom
  have hplace := (standsAt_msgids order pairs).trans
    (hpairs ▸ standsAt_descriptors order _ before after string)
  obtain ⟨hfirst, hsecond⟩ := wordAt_descriptorBytes (orderOf_layout order pairs) hplace
  refine ⟨?_, ?_, ?_⟩
  · rw [hfirst, lengthWord, toNat_word (by omega)]
  · rw [hsecond, toNat_word (by omega)]
  · exact (standsAt_terminated_msgids order pairs).trans
      (hpairs ▸ standsAt_terminated before after string)

/-- Where the descriptor of a msgstr stands, and what it says. -/
theorem placed_msgstr (order : ByteOrder) (hsize : layoutLength pairs < 2 ^ 32)
    (hpairs : pairs.map (·.2) = before ++ string :: after) :
    Placed (layout order pairs) (28 + 8 * pairs.length + 8 * before.length) string
      (28 + 16 * pairs.length + room (pairs.map (·.1)) + room before) := by
  have hlength := layoutLength_eq pairs
  have hroom := room_split_le before after string
  rw [← hpairs] at hroom
  have hplace := (standsAt_msgstrs order pairs).trans
    (hpairs ▸ standsAt_descriptors order _ before after string)
  obtain ⟨hfirst, hsecond⟩ := wordAt_descriptorBytes (orderOf_layout order pairs) hplace
  refine ⟨?_, ?_, ?_⟩
  · rw [hfirst, lengthWord, toNat_word (by omega)]
  · rw [hsecond, toNat_word (by omega)]
  · exact (standsAt_terminated_msgstrs order pairs).trans
      (hpairs ▸ standsAt_terminated before after string)

/-- What stands at an index, between what stands before it and what stands after it. -/
theorem split_of_getElem? {α : Type} {xs : List α} {index : Nat} {x : α} (h : xs[index]? = some x) :
    ∃ before after, xs = before ++ x :: after ∧ before.length = index := by
  obtain ⟨hlt, rfl⟩ := List.getElem?_eq_some_iff.1 h
  refine ⟨xs.take index, xs.drop (index + 1), ?_, List.length_take_of_le (Nat.le_of_lt hlt)⟩
  rw [List.getElem_cons_drop, List.take_append_drop]

theorem exists_split {α : Type} (xs : List α) {index : Nat} (h : index < xs.length) :
    ∃ before x after, xs = before ++ x :: after ∧ before.length = index :=
  let ⟨before, after, hxs⟩ := split_of_getElem? (List.getElem?_eq_getElem h)
  ⟨before, xs[index], after, hxs⟩

/-! ### Byte orders -/

/-- The words of the descriptors of strings that stand one after the other from `offset` on. -/
def descriptorWords (offset : UInt32) : List Bytes → List UInt32
  | [] => []
  | string :: strings =>
    lengthWord string :: offset :: descriptorWords (offset + (lengthWord string + 1)) strings

/-- The words of a layout, in the order of the file. -/
def layoutWords (pairs : List (Bytes × Bytes)) : List UInt32 :=
  (layoutHeader (UInt32.ofNat pairs.length)).words ++
    descriptorWords (UInt32.ofNat (28 + 16 * pairs.length)) (pairs.map (·.1)) ++
    descriptorWords (UInt32.ofNat (28 + 16 * pairs.length + room (pairs.map (·.1))))
      (pairs.map (·.2))

/-- The file with the bytes of each of its first words in the other order. -/
def reverseWords : (count : Nat) → Bytes → Bytes
  | 0, file => file
  | count + 1, file => (file.take 4).reverse ++ reverseWords count (file.drop 4)

theorem descriptors_eq_flatMap (order : ByteOrder) (offset : UInt32) (strings : List Bytes) :
    descriptors order offset strings = (descriptorWords offset strings).flatMap order.bytes := by
  induction strings generalizing offset with
  | nil => rfl
  | cons string strings ih =>
    rw [descriptors, ih, descriptorWords, List.flatMap_cons, List.flatMap_cons, List.append_assoc]

theorem length_descriptorWords (offset : UInt32) (strings : List Bytes) :
    (descriptorWords offset strings).length = 2 * strings.length := by
  induction strings generalizing offset with
  | nil => rfl
  | cons string strings ih =>
    rw [descriptorWords, List.length_cons, List.length_cons, ih, List.length_cons]
    omega

/-- The words of a layout are in front of its strings. -/
theorem layout_eq_flatMap (order : ByteOrder) (pairs : List (Bytes × Bytes)) :
    layout order pairs = (layoutWords pairs).flatMap order.bytes ++
      (terminated (pairs.map (·.1)) ++ terminated (pairs.map (·.2))) := by
  simp only [layout_eq, layoutWords, descriptors_eq_flatMap, List.flatMap_append,
    List.append_assoc]

theorem length_layoutWords (pairs : List (Bytes × Bytes)) :
    (layoutWords pairs).length = 7 + 4 * pairs.length := by
  simp only [layoutWords, List.length_append, length_descriptorWords, List.length_map,
    Header.words, List.length_cons, List.length_nil]
  omega

theorem reverseWords_flatMap (words : List UInt32) (rest : Bytes) :
    reverseWords words.length (words.flatMap ByteOrder.little.bytes ++ rest) =
      words.flatMap ByteOrder.big.bytes ++ rest := by
  induction words with
  | nil => rfl
  | cons word words ih =>
    have hlength := ByteOrder.length_bytes .little word
    rw [List.length_cons, reverseWords, List.flatMap_cons, List.append_assoc,
      List.take_left' hlength, List.drop_left' hlength, ih, List.flatMap_cons, List.append_assoc,
      ByteOrder.bytes_big]

/-- In one byte order a layout is what it is in the other one, but for the bytes of its words. -/
theorem layout_big (pairs : List (Bytes × Bytes)) :
    layout .big pairs = reverseWords (7 + 4 * pairs.length) (layout .little pairs) := by
  rw [layout_eq_flatMap, layout_eq_flatMap, ← length_layoutWords, reverseWords_flatMap]

end MessageCatalog.Image
