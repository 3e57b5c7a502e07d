import MessageCatalog.Bytes.Order

/-!
# Images

An image is the content of a `.mo` file: a header of seven words, two tables of
descriptors, and the strings that the descriptors describe by length and offset.
The string at an index of the first table is the msgid of a pair, the one at the
same index of the second table its msgstr. The first word, the magic number,
tells in which order the bytes of all words stand.

* `Image.read`: the image of a byte string, if its header is sound;
* `Image.pair`: the pair at an index;
* `Image.reading`: the pairs in order, up to the first fault;
* `Image.pairAt`: the pair at any index of 64 bits, which may be beyond the tables.

Ranges are tested as natural numbers. But the offset of a descriptor is computed in
64 bits first. At an index so great that it needs more, the computation overflows,
which is no fault of the image and ends the program (`Failure`). No index below the
number of pairs is so great.
-/

namespace MessageCatalog

namespace Image

/-- The word that every image starts with. -/
def magicNumber : UInt32 := 0x950412de

/-- The magic number with its bytes in the other order. -/
def swappedMagicNumber : UInt32 := 0xde120495

/-- The header of an image. -/
structure Header where
  /-- The magic number. -/
  magic : UInt32
  /-- The revision of the format: a major number in the upper half, a minor
      number in the lower. -/
  revision : UInt32
  /-- The number of pairs. -/
  count : UInt32
  /-- The offset of the table of msgids. -/
  msgids : UInt32
  /-- The offset of the table of msgstrs. -/
  msgstrs : UInt32
  /-- The size of the hash table, which serves lookups in the file itself. -/
  hashSize : UInt32
  /-- The offset of the hash table. -/
  hashOffset : UInt32
  deriving DecidableEq, Repr

/-- The length of a header, in bytes. -/
def headerLength : Nat := 28

/-- The length of a descriptor, in bytes. -/
def descriptorLength : Nat := 8

/-- The parts of an image that may lie outside the file. -/
inductive Part where
  | header
  | descriptor
  | msgid
  | msgstr
  deriving DecidableEq, Repr

/-- What a part of an image is called. -/
def Part.name : Part → String
  | header => "header"
  | descriptor => "string descriptor"
  | msgid => "original string"
  | msgstr => "translation string"

/-- Why a byte string is not an image. -/
inductive Fault where
  /-- It starts with this word instead of the magic number. -/
  | badMagic (word : UInt32)
  /-- The major number of its revision is not zero. -/
  | unsupportedRevision (revision : UInt32)
  /-- A part of it lies outside. -/
  | outside (part : Part) (offset length : Nat)
  deriving DecidableEq, Repr

/-- What ends the reading of a pair at any index. -/
inductive Failure where
  /-- The image has a fault. -/
  | fault (fault : Fault)
  /-- The offset of a descriptor is no number of 64 bits. -/
  | overflow
  deriving DecidableEq, Repr

/-- A word in hexadecimal, with eight digits. -/
def hexWord (word : UInt32) : String :=
  let digits := Nat.toDigits 16 word.toNat
  String.ofList (List.replicate (8 - digits.length) '0' ++ digits)

/-- The wording of a fault. -/
def Fault.message : Fault → String
  | badMagic word => s!"not a .mo file (magic number 0x{hexWord word})"
  | unsupportedRevision revision =>
    let major := revision.toNat / 0x10000
    let minor := revision.toNat % 0x10000
    s!"unsupported .mo revision {major}.{minor}"
  | outside part offset length =>
    s!"{part.name} at offset {offset} (length {length}) lies outside the file"

namespace Header

/-- The major number of the revision. -/
def major (h : Header) : Nat :=
  h.revision.toNat / 0x10000

/-- The header that a byte string starts with, if it is long enough. -/
def read? (order : ByteOrder) (bytes : Bytes) : Option Header := do
  let word (index : Nat) := order.word? (bytes.drop (4 * index))
  return {
    magic := ← word 0
    revision := ← word 1
    count := ← word 2
    msgids := ← word 3
    msgstrs := ← word 4
    hashSize := ← word 5
    hashOffset := ← word 6 }

/-- The words of a header, in the order of the file. -/
def words (h : Header) : List UInt32 :=
  [h.magic, h.revision, h.count, h.msgids, h.msgstrs, h.hashSize, h.hashOffset]

end Header

/-- The order of bytes in a file that starts with a magic number, from the word
    that its first bytes are with the least significant one first. -/
def orderOfMagic? (word : UInt32) : Option ByteOrder :=
  if word = magicNumber then some .little
  else if word = swappedMagicNumber then some .big
  else none

/-- Where a string stands in an image. -/
structure Descriptor where
  /-- The length of the string. -/
  length : UInt32
  /-- The offset of the string. -/
  offset : UInt32
  deriving DecidableEq, Repr

/-- The descriptor that a byte string starts with, if it is long enough. -/
def Descriptor.read? (order : ByteOrder) (bytes : Bytes) : Option Descriptor := do
  return { length := ← order.word? bytes, offset := ← order.word? (bytes.drop 4) }

end Image

/-- A byte string with a sound header. -/
structure Image where
  /-- The content of the file. -/
  bytes : Bytes
  /-- The order of the bytes of a word. -/
  order : ByteOrder
  /-- The header. -/
  header : Image.Header
  deriving DecidableEq, Repr

namespace Image

/-- The image that a byte string is. The magic number is tested first, then that
    the header is complete, then the revision. -/
def read (bytes : Bytes) : Except Fault Image :=
  match ByteOrder.little.word? bytes with
  | none => .error (.badMagic 0)
  | some word =>
    match orderOfMagic? word with
    | none => .error (.badMagic word)
    | some order =>
      match Header.read? order bytes with
      | none => .error (.outside .header 0 headerLength)
      | some header =>
        if header.major = 0 then .ok ⟨bytes, order, header⟩
        else .error (.unsupportedRevision header.revision)

/-- The number of pairs. -/
def count (image : Image) : Nat :=
  image.header.count.toNat

/-- The offset of the descriptor at an index of a table. -/
def descriptorOffset (table : UInt32) (index : Nat) : Nat :=
  table.toNat + descriptorLength * index

/-- The string that the descriptor at an index of a table describes. -/
def string (image : Image) (table : UInt32) (index : Nat) (part : Part) : Except Fault Bytes :=
  let place := descriptorOffset table index
  match (slice? image.bytes place descriptorLength).bind (Descriptor.read? image.order) with
  | none => .error (.outside .descriptor place descriptorLength)
  | some descriptor =>
    let offset := descriptor.offset.toNat
    let length := descriptor.length.toNat
    match slice? image.bytes offset length with
    | none => .error (.outside part offset length)
    | some string => .ok string

/-- The msgid and the msgstr at an index. -/
def pair (image : Image) (index : Nat) : Except Fault (Bytes × Bytes) := do
  let msgid ← image.string image.header.msgids index .msgid
  let msgstr ← image.string image.header.msgstrs index .msgstr
  return (msgid, msgstr)

/-- The string that the descriptor at any index of a table describes. -/
def stringAt (image : Image) (table : UInt32) (index : UInt64) (part : Part) :
    Except Failure Bytes :=
  if descriptorOffset table index.toNat < UInt64.size then
    (image.string table index.toNat part).mapError .fault
  else .error .overflow

/-- The msgid and the msgstr at any index. The msgid is read before the offset of the
    other descriptor is computed. -/
def pairAt (image : Image) (index : UInt64) : Except Failure (Bytes × Bytes) := do
  let msgid ← image.stringAt image.header.msgids index .msgid
  let msgstr ← image.stringAt image.header.msgstrs index .msgstr
  return (msgid, msgstr)

/-- What reading pairs one after the other gives. -/
structure Reading where
  /-- The pairs before the first fault. -/
  pairs : List (Bytes × Bytes)
  /-- The first fault. -/
  fault : Option Fault
  deriving DecidableEq, Repr

/-- Reads the `count` pairs from an index on. -/
def readingFrom (image : Image) (index : Nat) : (count : Nat) → Reading
  | 0 => ⟨[], none⟩
  | count + 1 =>
    match image.pair index with
    | .error fault => ⟨[], some fault⟩
    | .ok pair =>
      let reading := image.readingFrom (index + 1) count
      { reading with pairs := pair :: reading.pairs }

/-- Reads the pairs of an image. -/
def reading (image : Image) : Reading :=
  image.readingFrom 0 image.count

end Image

end MessageCatalog
