import MessageCatalog.Bytes

/-!
# Byte order

The order in which the four bytes of a 32-bit word stand in a file.

* `ByteOrder.bytes`, `ByteOrder.word?`: a word as bytes, and back
  (`word?_bytes`);
* `ByteOrder.bytes_big`: the two orders are the reverse of each other.
-/

namespace MessageCatalog

/-- The order of the bytes of a word. -/
inductive ByteOrder where
  /-- The least significant byte comes first. -/
  | little
  /-- The most significant byte comes first. -/
  | big
  deriving DecidableEq, Repr

namespace ByteOrder

/-- What the order is called. -/
def name : ByteOrder → String
  | little => "little-endian"
  | big => "big-endian"

/-- The bytes of a word. -/
def bytes (order : ByteOrder) (word : UInt32) : Bytes :=
  let ascending := [0, 8, 16, 24].map fun shift => UInt8.ofNat (word.toNat >>> shift)
  match order with
  | little => ascending
  | big => ascending.reverse

/-- The word whose bytes these are, the least significant one first. -/
def wordOf (b₀ b₁ b₂ b₃ : UInt8) : UInt32 :=
  UInt32.ofNat (b₀.toNat + 0x100 * b₁.toNat + 0x10000 * b₂.toNat + 0x1000000 * b₃.toNat)

/-- The word that a byte string starts with. -/
def word? (order : ByteOrder) : Bytes → Option UInt32
  | b₀ :: b₁ :: b₂ :: b₃ :: _ =>
    some (match order with
      | little => wordOf b₀ b₁ b₂ b₃
      | big => wordOf b₃ b₂ b₁ b₀)
  | _ => none

@[simp]
theorem length_bytes (order : ByteOrder) (word : UInt32) : (order.bytes word).length = 4 := by
  cases order <;> rfl

/-- The bytes of a word in one order are those in the other order, reversed. -/
theorem bytes_big (word : UInt32) : big.bytes word = (little.bytes word).reverse :=
  rfl

theorem wordOf_bytes (word : UInt32) :
    wordOf (UInt8.ofNat (word.toNat >>> 0)) (UInt8.ofNat (word.toNat >>> 8))
      (UInt8.ofNat (word.toNat >>> 16)) (UInt8.ofNat (word.toNat >>> 24)) = word := by
  apply UInt32.toNat_inj.1
  have h := word.toNat_lt
  simp only [wordOf, UInt32.toNat_ofNat', UInt8.toNat_ofNat', Nat.shiftRight_eq_div_pow]
  omega

/-- The word written is the word read, whatever follows it. -/
theorem word?_bytes (order : ByteOrder) (word : UInt32) (rest : Bytes) :
    order.word? (order.bytes word ++ rest) = some word := by
  cases order <;> exact congrArg some (wordOf_bytes word)

/-- A byte string starts with a word iff it has at least four bytes. -/
theorem word?_eq_none_iff {order : ByteOrder} {bytes : Bytes} :
    order.word? bytes = none ↔ bytes.length < 4 := by
  match bytes with
  | [] | [_] | [_, _] | [_, _, _] => simp [word?]
  | _ :: _ :: _ :: _ :: _ => simp [word?]

end ByteOrder

end MessageCatalog
