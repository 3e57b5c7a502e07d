import MessageCatalog.Image

/-!
# The layout of images

The image of a list of pairs: the header, the descriptors of the msgids, those
of the msgstrs, the msgids, and the msgstrs, one after the other without gaps.
Every string is followed by a zero byte, which its length does not count. Lengths
and offsets are words: they are exact as long as the image has fewer than 2³²
bytes, and wrap around beyond.

* `Image.layout`: the image of a list of pairs;
* `Image.length_layout`: its length.
-/

namespace MessageCatalog.Image

/-- A length as a word. -/
def lengthWord (string : Bytes) : UInt32 :=
  UInt32.ofNat string.length

/-- The room for strings with their terminators. -/
def room : List Bytes → Nat
  | [] => 0
  | string :: strings => string.length + 1 + room strings

/-- The room for strings with their terminators, as a word. -/
def roomWord (strings : List Bytes) : UInt32 :=
  strings.foldl (fun room string => room + (lengthWord string + 1)) 0

/-- The descriptors of strings that stand one after the other from `offset` on. -/
def descriptors (order : ByteOrder) (offset : UInt32) : List Bytes → Bytes
  | [] => []
  | string :: strings =>
    order.bytes (lengthWord string) ++ order.bytes offset ++
      descriptors order (offset + (lengthWord string + 1)) strings

/-- Strings with their terminators, one after the other. -/
def terminated (strings : List Bytes) : Bytes :=
  strings.flatMap (· ++ [0])

/-- The header of the image of `count` pairs. -/
def layoutHeader (count : UInt32) : Header where
  magic := magicNumber
  revision := 0
  count := count
  msgids := UInt32.ofNat headerLength
  msgstrs := UInt32.ofNat headerLength + count * UInt32.ofNat descriptorLength
  hashSize := 0
  hashOffset := UInt32.ofNat headerLength

/-- The image of a list of pairs. -/
def layout (order : ByteOrder) (pairs : List (Bytes × Bytes)) : Bytes :=
  let msgids := pairs.map (·.1)
  let msgstrs := pairs.map (·.2)
  let header := layoutHeader (UInt32.ofNat pairs.length)
  let start := header.msgstrs + header.count * UInt32.ofNat descriptorLength
  header.words.flatMap order.bytes ++
    descriptors order start msgids ++
    descriptors order (start + roomWord msgids) msgstrs ++
    terminated msgids ++
    terminated msgstrs

theorem length_descriptors (order : ByteOrder) (offset : UInt32) (strings : List Bytes) :
    (descriptors order offset strings).length = 8 * strings.length := by
  induction strings generalizing offset with
  | nil => rfl
  | cons string strings ih =>
    simp only [descriptors, List.length_append, ByteOrder.length_bytes, ih, List.length_cons]
    omega

theorem length_terminated (strings : List Bytes) :
    (terminated strings).length = room strings := by
  induction strings with
  | nil => rfl
  | cons string strings ih =>
    simp only [terminated, List.flatMap_cons, List.length_append, List.length_singleton, room]
    rw [← terminated, ih]

/-- An image takes 28 bytes, 16 for every pair, and its strings with their
    terminators. -/
theorem length_layout (order : ByteOrder) (pairs : List (Bytes × Bytes)) :
    (layout order pairs).length = 28 + 16 * pairs.length +
      room (pairs.map (·.1)) + room (pairs.map (·.2)) := by
  simp only [layout, List.length_append, length_descriptors, length_terminated, List.length_map,
    Header.words, List.flatMap_cons, List.flatMap_nil, ByteOrder.length_bytes, List.length_nil]
  omega

end MessageCatalog.Image
