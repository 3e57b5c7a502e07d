import Mathlib.Data.Nat.Digits.Defs
import MessageCatalog.Bytes.Order

/-!
# Words in byte strings

Which word a byte string starts with: the first four bytes alone decide it, they are the bytes of
the word, and the word is the number that they write to the base 256.

* `word?_eq_some_iff`: a byte string starts with a word iff it starts with the bytes of the word;
* `number`: the number that bytes write in an order (`word?_eq_some_iff_number`).
-/

namespace MessageCatalog.ByteOrder

theorem bytes_wordOf (b₀ b₁ b₂ b₃ : UInt8) :
    little.bytes (wordOf b₀ b₁ b₂ b₃) = [b₀, b₁, b₂, b₃] := by
  have h₀ := b₀.toNat_lt
  have h₁ := b₁.toNat_lt
  have h₂ := b₂.toNat_lt
  have h₃ := b₃.toNat_lt
  simp only [bytes, wordOf, List.map_cons, List.map_nil, UInt32.toNat_ofNat',
    Nat.shiftRight_eq_div_pow, List.cons.injEq, and_true, ← UInt8.toNat_inj, UInt8.toNat_ofNat']
  omega

/-- A byte string starts with a word iff its first bytes are those of the word. -/
theorem word?_eq_some_iff {order : ByteOrder} {bytes : Bytes} {word : UInt32} :
    order.word? bytes = some word ↔ bytes.take 4 = order.bytes word := by
  constructor
  · match bytes with
    | [] | [_] | [_, _] | [_, _, _] => exact nofun
    | b₀ :: b₁ :: b₂ :: b₃ :: rest =>
      rintro ⟨⟩
      cases order with
      | little => exact (bytes_wordOf b₀ b₁ b₂ b₃).symm
      | big => exact (congrArg List.reverse (bytes_wordOf b₃ b₂ b₁ b₀)).symm
  · intro h
    rw [← List.take_append_drop 4 bytes, h]
    exact word?_bytes order word _

/-- No more than the first four bytes count. -/
theorem word?_take (order : ByteOrder) (bytes : Bytes) {n : Nat} (h : 4 ≤ n) :
    order.word? (bytes.take n) = order.word? bytes := by
  ext word
  rw [word?_eq_some_iff, word?_eq_some_iff, List.take_take, Nat.min_eq_left h]

/-- Four bytes are enough for a word. -/
theorem word?_eq_some_getD (order : ByteOrder) {bytes : Bytes} (h : 4 ≤ bytes.length) :
    order.word? bytes = some ((order.word? bytes).getD 0) := by
  cases hword : order.word? bytes with
  | some word => rfl
  | none => exact absurd (word?_eq_none_iff.1 hword) (Nat.not_lt.2 h)

/-- The number that bytes write to the base 256, in an order: the least significant byte comes
    first, or last. -/
def number : ByteOrder → Bytes → Nat
  | little, bytes => Nat.ofDigits 256 (bytes.map UInt8.toNat)
  | big, bytes => Nat.ofDigits 256 (bytes.reverse.map UInt8.toNat)

theorem toNat_wordOf (b₀ b₁ b₂ b₃ : UInt8) :
    (wordOf b₀ b₁ b₂ b₃).toNat = little.number [b₀, b₁, b₂, b₃] := by
  have h₀ := b₀.toNat_lt
  have h₁ := b₁.toNat_lt
  have h₂ := b₂.toNat_lt
  have h₃ := b₃.toNat_lt
  simp only [number, List.map_cons, List.map_nil, Nat.ofDigits_cons, Nat.ofDigits_nil, wordOf,
    UInt32.toNat_ofNat']
  omega

/-- A byte string starts with the word that its first four bytes write. -/
theorem word?_eq_some_iff_number {order : ByteOrder} {bytes : Bytes} {word : UInt32} :
    order.word? bytes = some word ↔
      4 ≤ bytes.length ∧ word.toNat = order.number (bytes.take 4) := by
  match bytes with
  | [] | [_] | [_, _] | [_, _, _] => simp [word?]
  | b₀ :: b₁ :: b₂ :: b₃ :: rest =>
    have hlength : 4 ≤ (b₀ :: b₁ :: b₂ :: b₃ :: rest).length := Nat.le_add_left 4 _
    rw [and_iff_right hlength]
    cases order with
    | little =>
      rw [word?, Option.some_inj, ← UInt32.toNat_inj, toNat_wordOf, eq_comm]
      rfl
    | big =>
      rw [word?, Option.some_inj, ← UInt32.toNat_inj, toNat_wordOf, eq_comm]
      rfl

end MessageCatalog.ByteOrder
