import MessageCatalog.Bytes

/-!
# UTF-8

Text as bytes and back. A sequence of bytes that is no character is read up to
the first byte that rules a character out: this part of it stands for one
unreadable character, and the reading goes on with that byte.

* `Utf8.encode`: the bytes of a text;
* `Utf8.decode?`: the text that bytes stand for, if all of it is readable;
* `Utf8.decodeLossy`: the same with U+FFFD for each unreadable character.
-/

namespace MessageCatalog.Utf8

/-- The bytes of a text. -/
def encode (text : List Char) : Bytes :=
  text.flatMap String.utf8EncodeChar

/-- What the first byte of a character says about the character. -/
structure Lead where
  /-- The bits of the code point that the first byte holds. -/
  bits : Nat
  /-- The number of bytes that follow. -/
  count : Nat
  /-- The least second byte. -/
  low : UInt8
  /-- The greatest second byte. -/
  high : UInt8
  deriving Repr

/-- Reads the first byte of a character. The range of the second byte leaves out
    the code points that fewer bytes can hold, the surrogates, and what lies
    beyond the last code point. -/
def lead? (b : UInt8) : Option Lead :=
  if b < 0x80 then some ⟨b.toNat, 0, 0x80, 0xBF⟩
  else if b < 0xC2 then none
  else if b < 0xE0 then some ⟨b.toNat - 0xC0, 1, 0x80, 0xBF⟩
  else if b < 0xF0 then
    some ⟨b.toNat - 0xE0, 2, if b = 0xE0 then 0xA0 else 0x80, if b = 0xED then 0x9F else 0xBF⟩
  else if b < 0xF5 then
    some ⟨b.toNat - 0xF0, 3, if b = 0xF0 then 0x90 else 0x80, if b = 0xF4 then 0x8F else 0xBF⟩
  else none

/-- Reads the `count` bytes that complete the bits `bits` of a code point, the
    first one of them between `low` and `high`; gives the code point, unless a
    byte is out of range or missing, and the bytes not read. -/
def complete (bits : Nat) : (count : Nat) → (low high : UInt8) → Bytes → Option Nat × Bytes
  | 0, _, _, bytes => (some bits, bytes)
  | _ + 1, _, _, [] => (none, [])
  | count + 1, low, high, b :: bytes =>
    if low ≤ b ∧ b ≤ high then
      complete (0x40 * bits + (b.toNat - 0x80)) count 0x80 0xBF bytes
    -- The byte out of range is not read: it may start the next character.
    else (none, b :: bytes)

theorem length_complete_le (bits count : Nat) (low high : UInt8) (bytes : Bytes) :
    (complete bits count low high bytes).2.length ≤ bytes.length := by
  fun_induction complete bits count low high bytes with
  | case1 => exact Nat.le_refl _
  | case2 => exact Nat.le_refl _
  | case3 _ _ _ _ _ _ _ ih => exact Nat.le_succ_of_le ih
  | case4 => exact Nat.le_refl _

/-- Reads the character at the start of the bytes `b :: bytes`; gives it, unless
    it is unreadable, and the bytes not read. -/
def next (b : UInt8) (bytes : Bytes) : Option Char × Bytes :=
  match lead? b with
  | none => (none, bytes)
  | some lead =>
    let (code, rest) := complete lead.bits lead.count lead.low lead.high bytes
    (code.map Char.ofNat, rest)

theorem length_next_le (b : UInt8) (bytes : Bytes) : (next b bytes).2.length ≤ bytes.length := by
  unfold next
  split
  · exact Nat.le_refl _
  · exact length_complete_le ..

/-- The characters that bytes stand for, none in place of each unreadable one. -/
def chars : Bytes → List (Option Char)
  | [] => []
  | b :: bytes => (next b bytes).1 :: chars (next b bytes).2
termination_by bytes => bytes.length
decreasing_by exact Nat.lt_succ_of_le (length_next_le b bytes)

/-- The text that bytes stand for, if all of it is readable. -/
def decode? (bytes : Bytes) : Option (List Char) :=
  (chars bytes).mapM id

/-- The text that bytes stand for, with U+FFFD for unreadable characters. -/
def decodeLossy (bytes : Bytes) : List Char :=
  (chars bytes).map (·.getD '\uFFFD')

end MessageCatalog.Utf8
