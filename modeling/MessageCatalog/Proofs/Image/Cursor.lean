import MessageCatalog.Bytes.Cursor
import MessageCatalog.Proofs.Image.Checks

/-!
# Images read with a cursor

Reading, step by step: the words of a header are taken one after the other with a
cursor, and the offset of a descriptor is a product and a sum of 64-bit words, which may
overflow. A cursor refuses ranges with an error of its own, so such a reading could end
in ways that are not alike (`Stop`). It never ends in a range error: the header is only
read once its length was tested, and for a string that lies outside the fault says so.

* `Cursor.image_eq`, `Cursor.pair_eq`: image and pairs are those of `Image.read` and
  `Image.pairAt`.
-/

namespace MessageCatalog

open Image

/-- Why a reading with a cursor ends. -/
inductive Stop where
  /-- The image has a fault. -/
  | fault (fault : Fault)
  /-- The cursor has refused a range. -/
  | range (error : OutOfBounds)
  /-- A word of 64 bits has overflowed. -/
  | overflow

/-- How reading with a cursor ends where the reading of a pair does. -/
def Stop.ofFailure : Failure → Stop
  | .fault f => .fault f
  | .overflow => .overflow

/-- The word of 64 bits that a number is, if it is one. -/
def longWord? (n : Nat) : Option UInt64 :=
  if n < UInt64.size then some (UInt64.ofNat n) else none

/-- The offset of the descriptor at an index of a table: a product, and then a sum. -/
def place? (table : UInt32) (index : UInt64) : Option UInt64 := do
  let distance ← longWord? (index.toNat * 8)
  longWord? (table.toNat + distance.toNat)

namespace Cursor

/-- Seven words, one after the other. -/
def words (c : Cursor) (order : ByteOrder) : Except OutOfBounds Header := do
  let (magic, c) ← c.word order
  let (revision, c) ← c.word order
  let (count, c) ← c.word order
  let (msgids, c) ← c.word order
  let (msgstrs, c) ← c.word order
  let (hashSize, c) ← c.word order
  let (hashOffset, _) ← c.word order
  return { magic, revision, count, msgids, msgstrs, hashSize, hashOffset }

/-- The header at the cursor. -/
def header (c : Cursor) (order : ByteOrder) : Except Stop Header :=
  if c.size < headerLength then .error (.fault (.outside .header 0 headerLength))
  else (c.words order).mapError .range

/-- The image that the cursor is at the start of. -/
def image (c : Cursor) : Except Stop Image :=
  match c.wordAt 0 .little with
  | .error _ => .error (.fault (.badMagic 0))
  | .ok word =>
    match orderOfMagic? word with
    | none => .error (.fault (.badMagic word))
    | some order =>
      match c.header order with
      | .error stop => .error stop
      | .ok header =>
        if header.major = 0 then .ok ⟨c.bytes, order, header⟩
        else .error (.fault (.unsupportedRevision header.revision))

/-- The string that the descriptor at an index of a table describes. -/
def string (c : Cursor) (order : ByteOrder) (table : UInt32) (index : UInt64) (part : Part) :
    Except Stop Bytes :=
  match place? table index with
  | none => .error .overflow
  | some place =>
    match c.slice place.toNat descriptorLength with
    | .error _ => .error (.fault (.outside .descriptor place.toNat descriptorLength))
    | .ok descriptor =>
      let length := ((order.word? descriptor).getD 0).toNat
      let offset := ((order.word? (descriptor.drop 4)).getD 0).toNat
      (c.slice offset length).mapError fun _ => .fault (.outside part offset length)

/-- The msgid and the msgstr at an index. -/
def pair (c : Cursor) (image : Image) (index : UInt64) : Except Stop (Bytes × Bytes) := do
  let msgid ← c.string image.order image.header.msgids index .msgid
  let msgstr ← c.string image.order image.header.msgstrs index .msgstr
  return (msgid, msgstr)

/-! ### Headers -/

theorem wordAt_eq {bytes : Bytes} {position offset : Nat} (order : ByteOrder)
    (h : offset + 4 ≤ bytes.length) :
    (Cursor.mk bytes position).wordAt offset order =
      .ok ((order.word? (bytes.drop offset)).getD 0) := by
  have hdrop : 4 ≤ (bytes.drop offset).length := by
    rw [List.length_drop]
    omega
  rw [wordAt, slice?, if_pos h, Option.bind_some, ByteOrder.word?_take _ _ (Nat.le_refl 4),
    ByteOrder.word?_eq_some_getD order hdrop]
  rfl

/-- The word at the position is the one at its offset. -/
theorem word_eq {bytes : Bytes} {position : Nat} (h : position + 4 ≤ bytes.length) :
    (Cursor.mk bytes position).word (orderOf bytes) =
      .ok (Image.wordAt bytes position, ⟨bytes, position + 4⟩) := by
  rw [word, wordAt_eq _ h]
  rfl

/-- The words of a header that is complete are all there. -/
theorem words_eq {bytes : Bytes} (h : headerLength ≤ bytes.length) :
    (ofBytes bytes).words (orderOf bytes) = .ok (headerOf bytes) := by
  have hword : ∀ position, position ≤ 24 →
      (Cursor.mk bytes position).word (orderOf bytes) =
        .ok (Image.wordAt bytes position, ⟨bytes, position + 4⟩) :=
    fun position hposition => word_eq (by rw [headerLength] at h; omega)
  simp only [words, ofBytes, hword, bind, Except.bind, Nat.reduceAdd, Nat.reduceLeDiff, Nat.zero_le]
  rfl

/-- A cursor reads the image of a byte string, and is refused no range of its header. -/
theorem image_eq (bytes : Bytes) :
    (ofBytes bytes).image = (Image.read bytes).mapError .fault := by
  rw [image, Image.read]
  cases hword : ByteOrder.little.word? bytes with
  | none =>
    have hslice : slice? bytes 0 4 = none := by
      rw [slice?_eq_none_iff]
      rw [ByteOrder.word?_eq_none_iff] at hword
      omega
    simp only [wordAt, ofBytes, hslice]
    rfl
  | some word =>
    have hlength : 4 ≤ bytes.length := by
      refine Nat.not_lt.1 fun hlt => ?_
      rw [ByteOrder.word?_eq_none_iff.2 hlt] at hword
      cases hword
    have hword' : (ofBytes bytes).wordAt 0 .little = .ok word := by
      rw [ofBytes, wordAt_eq _ (by omega), List.drop_zero, hword]
      rfl
    simp only [hword', orderOfMagic?_eq hword]
    by_cases hmagic : Check.magic.Passes bytes
    · simp only [if_pos hmagic, header]
      have hsize : (ofBytes bytes).size = bytes.length := rfl
      by_cases hheader : headerLength ≤ bytes.length
      · rw [hsize, if_neg (Nat.not_lt.2 hheader), words_eq hheader, read?_eq_some hheader]
        simp only [Except.mapError]
        split <;> rfl
      · rw [hsize, if_pos (Nat.not_le.1 hheader), read?_eq_none (Nat.not_le.1 hheader)]
        rfl
    · simp only [if_neg hmagic]
      rfl

/-! ### Strings -/

/-- The offset of a descriptor is computed unless it is no word: a product that is none makes no
    sum that is one. -/
theorem place?_eq (table : UInt32) (index : UInt64) :
    place? table index = longWord? (descriptorOffset table index.toNat) := by
  rw [place?, descriptorOffset, descriptorLength, Nat.mul_comm 8]
  by_cases hproduct : index.toNat * 8 < UInt64.size
  · have hdistance : (UInt64.ofNat (index.toNat * 8)).toNat = index.toNat * 8 :=
      UInt64.toNat_ofNat_of_lt' hproduct
    rw [longWord?, if_pos hproduct, Option.bind_eq_bind, Option.bind_some, hdistance]
  · rw [longWord?, longWord?, if_neg hproduct, if_neg (by omega)]
    rfl

/-- All of a descriptor is there if all of its bytes are. -/
theorem descriptor_read?_eq (order : ByteOrder) {bytes : Bytes}
    (h : bytes.length = descriptorLength) :
    Descriptor.read? order bytes =
      some ⟨(order.word? bytes).getD 0, (order.word? (bytes.drop 4)).getD 0⟩ := by
  rw [descriptorLength] at h
  have hdrop : 4 ≤ (bytes.drop 4).length := by
    rw [List.length_drop]
    omega
  rw [Descriptor.read?, ByteOrder.word?_eq_some_getD _ (by omega),
    ByteOrder.word?_eq_some_getD _ hdrop]
  rfl

theorem string_eq (image : Image) (table : UInt32) (index : UInt64) (part : Part) :
    (ofBytes image.bytes).string image.order table index part =
      (image.stringAt table index part).mapError .ofFailure := by
  rw [string, stringAt, place?_eq, longWord?]
  by_cases hword : descriptorOffset table index.toNat < UInt64.size
  case neg =>
    rw [if_neg hword, if_neg hword]
    rfl
  case pos =>
    have hplace : (UInt64.ofNat (descriptorOffset table index.toNat)).toNat = _ :=
      UInt64.toNat_ofNat_of_lt' hword
    rw [if_pos hword, if_pos hword]
    simp only [hplace, Image.string]
    cases hslice : slice? image.bytes (descriptorOffset table index.toNat) descriptorLength with
    | none =>
      simp only [slice, ofBytes, hslice]
      rfl
    | some descriptor =>
      obtain ⟨-, -, -, -, hlength⟩ := slice?_eq_some_iff.1 hslice
      simp only [slice, within, ofBytes, hslice, Option.bind_some,
        descriptor_read?_eq image.order hlength]
      generalize (image.order.word? descriptor).getD 0 = length
      generalize (image.order.word? (descriptor.drop 4)).getD 0 = offset
      cases slice? image.bytes offset.toNat length.toNat <;> rfl

/-- A cursor reads the pair at any index, and overflows where this does. -/
theorem pair_eq (image : Image) (index : UInt64) :
    (ofBytes image.bytes).pair image index = (image.pairAt index).mapError .ofFailure := by
  rw [pair, string_eq, string_eq]
  exact both_mapError ..

end Cursor

end MessageCatalog
