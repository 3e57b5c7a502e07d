import MessageCatalog.Text.Utf8

/-!
# Texts survive their bytes

The bytes of a text are read back as the text, whatever follows them, and none
of its characters is taken for an unreadable one.

* `complete_tail`: a tail byte in range adds its six bits;
* `next_encodeChar`: the character at the start of bytes is the one encoded;
* `decodeLossy_encode`: the text that the bytes of a text stand for.
-/

namespace MessageCatalog.Utf8

/-- The number that a byte holds is the one it was made of, if that is below 256. -/
theorem toNat_byte {n : Nat} (h : n < 256) : (UInt8.ofNat n).toNat = n := by
  rw [UInt8.toNat_ofNat', Nat.mod_eq_of_lt h]

theorem byte_lt_iff {n : Nat} {b : UInt8} (h : n < 256) : UInt8.ofNat n < b ↔ n < b.toNat := by
  rw [UInt8.lt_iff_toNat_lt, toNat_byte h]

theorem byte_eq_iff {n : Nat} {b : UInt8} (h : n < 256) : UInt8.ofNat n = b ↔ n = b.toNat := by
  rw [← UInt8.toNat_inj, toNat_byte h]

/-- A tail byte in range adds its six bits to the code point. -/
theorem complete_tail {bits count n : Nat} {low high : UInt8} (hlow : low.toNat ≤ n % 64 + 0x80)
    (hhigh : n % 64 + 0x80 ≤ high.toNat) (rest : Bytes) :
    complete bits (count + 1) low high (UInt8.ofNat (n % 64 + 0x80) :: rest) =
      complete (0x40 * bits + n % 64) count 0x80 0xBF rest := by
  have hn : (UInt8.ofNat (n % 64 + 0x80)).toNat = n % 64 + 0x80 := toNat_byte (by omega)
  rw [complete, if_pos, hn, Nat.add_sub_cancel]
  rw [UInt8.le_iff_toNat_le, UInt8.le_iff_toNat_le, hn]
  exact ⟨hlow, hhigh⟩

/-- A tail byte that is not the second one has the whole range to itself. -/
theorem complete_last (bits count n : Nat) (rest : Bytes) :
    complete bits (count + 1) 0x80 0xBF (UInt8.ofNat (n % 64 + 0x80) :: rest) =
      complete (0x40 * bits + n % 64) count 0x80 0xBF rest :=
  complete_tail (Nat.le_add_left ..) (by have := Nat.mod_lt n (y := 64); simp; omega) rest

/-! ### First bytes -/

theorem lead?_ascii {n : Nat} (h : n < 0x80) :
    lead? (UInt8.ofNat n) = some ⟨n, 0, 0x80, 0xBF⟩ := by
  have hn : n < 256 := by omega
  simp only [lead?, byte_lt_iff hn, toNat_byte hn, UInt8.reduceToNat]
  rw [if_pos h]

theorem lead?_two {n : Nat} (hlow : 2 ≤ n) (h : n < 32) :
    lead? (UInt8.ofNat (n + 0xC0)) = some ⟨n, 1, 0x80, 0xBF⟩ := by
  have hn : n + 0xC0 < 256 := by omega
  simp only [lead?, byte_lt_iff hn, toNat_byte hn, UInt8.reduceToNat, Nat.add_sub_cancel]
  rw [if_neg (by omega), if_neg (by omega), if_pos (by omega)]

theorem lead?_three {n : Nat} (h : n < 16) :
    lead? (UInt8.ofNat (n + 0xE0)) =
      some ⟨n, 2, if n = 0 then 0xA0 else 0x80, if n = 0xD then 0x9F else 0xBF⟩ := by
  have hn : n + 0xE0 < 256 := by omega
  simp only [lead?, byte_lt_iff hn, byte_eq_iff hn, toNat_byte hn, UInt8.reduceToNat,
    Nat.add_sub_cancel]
  rw [if_neg (by omega), if_neg (by omega), if_neg (by omega), if_pos (by omega)]
  simp only [Nat.reduceEqDiff, Nat.add_eq_right]

theorem lead?_four {n : Nat} (h : n < 5) :
    lead? (UInt8.ofNat (n + 0xF0)) =
      some ⟨n, 3, if n = 0 then 0x90 else 0x80, if n = 4 then 0x8F else 0xBF⟩ := by
  have hn : n + 0xF0 < 256 := by omega
  simp only [lead?, byte_lt_iff hn, byte_eq_iff hn, toNat_byte hn, UInt8.reduceToNat,
    Nat.add_sub_cancel]
  rw [if_neg (by omega), if_neg (by omega), if_neg (by omega), if_neg (by omega),
    if_pos (by omega)]
  simp only [Nat.reduceEqDiff, Nat.add_eq_right]

/-! ### Characters and texts -/

/-- The code points of characters, which leave out the surrogates. -/
theorem toNat_valid (c : Char) : c.toNat < 0xD800 ∨ (0xDFFF < c.toNat ∧ c.toNat < 0x110000) :=
  c.valid

/-- The bytes of a character are read as the character, and no byte after them. -/
theorem next_encodeChar (c : Char) : ∃ b bytes, String.utf8EncodeChar c = b :: bytes ∧
    ∀ rest, next b (bytes ++ rest) = (some c, rest) := by
  have hv := toNat_valid c
  have hval : c.val.toNat = c.toNat := rfl
  have hof : Char.ofNat c.toNat = c := Char.ofNat_toNat c
  generalize c.toNat = v at hv hval hof
  unfold String.utf8EncodeChar
  simp only [hval]
  split
  · -- one byte
    refine ⟨_, _, rfl, fun rest => ?_⟩
    rw [next, lead?_ascii (by omega)]
    simp only [complete, Option.map_some, hof, List.nil_append]
  split
  · -- two bytes
    refine ⟨_, _, rfl, fun rest => ?_⟩
    rw [next, lead?_two (by omega) (by omega)]
    have hbits : 0x40 * (v / 64 % 32) + v % 64 = v := by omega
    simp only [List.cons_append, List.nil_append, complete_last, complete, hbits,
      Option.map_some, hof]
  split
  · -- three bytes: the second one tells from shorter characters and surrogates
    refine ⟨_, _, rfl, fun rest => ?_⟩
    have hbits : 0x40 * (0x40 * (v / 4096 % 16) + v / 64 % 64) + v % 64 = v := by omega
    rw [next, lead?_three (by omega)]
    simp only [List.cons_append, List.nil_append]
    rw [complete_tail (by split <;> simp; omega) (by split <;> simp <;> omega),
      complete_last, complete, hbits, Option.map_some, hof]
  · -- four bytes: the second one tells from shorter characters and from no character
    refine ⟨_, _, rfl, fun rest => ?_⟩
    have hbits : 0x40 * (0x40 * (0x40 * (v / 262144 % 8) + v / 4096 % 64) + v / 64 % 64) + v % 64 =
        v := by omega
    rw [next, lead?_four (by omega)]
    simp only [List.cons_append, List.nil_append]
    rw [complete_tail (by split <;> simp; omega) (by split <;> simp <;> omega),
      complete_last, complete_last, complete, hbits, Option.map_some, hof]

/-- The characters that the bytes of a text stand for, before other bytes. -/
theorem chars_encode_append (text : List Char) (rest : Bytes) :
    chars (encode text ++ rest) = text.map some ++ chars rest := by
  induction text with
  | nil => rfl
  | cons c text ih =>
    obtain ⟨b, bytes, hc, hnext⟩ := next_encodeChar c
    have hencode : encode (c :: text) ++ rest = b :: (bytes ++ (encode text ++ rest)) := by
      simp [encode, hc]
    rw [hencode, chars, hnext, ih]
    rfl

/-- The bytes of a text stand for the text. -/
theorem decodeLossy_encode (text : List Char) : decodeLossy (encode text) = text := by
  have h := chars_encode_append text []
  rw [List.append_nil, chars, List.append_nil] at h
  rw [decodeLossy, h, List.map_map]
  exact List.map_id text

end MessageCatalog.Utf8
