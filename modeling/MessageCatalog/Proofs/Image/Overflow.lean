import MessageCatalog.Proofs.Image.Layout

/-!
# The arithmetic of a layout

A layout computes its lengths and offsets in words, and what does not fit in a word wraps around.
To tell when this happens, the arithmetic is made a parameter: `layoutBy` is the computation with
every conversion to a word, every sum and every product left open. With the arithmetic that wraps
around it is the layout (`layoutBy_wrapping`), and with one that stops at the first result that is
no word it tells whether anything wrapped around.

The greatest number that is computed is the last one, the offset behind the last string. It is the
length of the whole; so all is exact if this is a word, and otherwise something is not
(`layoutBy_checked`).
-/

namespace MessageCatalog.Image

/-- How words are made of numbers, added and multiplied. -/
structure Arithmetic (m : Type → Type) where
  /-- A number as a word. -/
  word : Nat → m UInt32
  /-- The sum of two words. -/
  add : UInt32 → UInt32 → m UInt32
  /-- The product of two words. -/
  mul : UInt32 → UInt32 → m UInt32

/-- The arithmetic in which results wrap around. -/
def wrapping : Arithmetic Id where
  word n := pure (UInt32.ofNat n)
  add a b := pure (a + b)
  mul a b := pure (a * b)

/-- The word that a number is, if it is one. -/
def exact (n : Nat) : Option UInt32 :=
  if n < 2 ^ 32 then some (UInt32.ofNat n) else none

/-- The arithmetic in which every result is that of the numbers. -/
def checked : Arithmetic Option where
  word := exact
  add a b := exact (a.toNat + b.toNat)
  mul a b := exact (a.toNat * b.toNat)

section Steps

variable {m : Type → Type} [Monad m] (arithmetic : Arithmetic m)

/-- The offset behind a string with its terminator. -/
def nextBy (offset : UInt32) (string : Bytes) : m UInt32 := do
  let length ← arithmetic.word string.length
  arithmetic.add offset (← arithmetic.add length 1)

/-- The descriptors of strings that stand one after the other from `offset` on. -/
def descriptorsBy (order : ByteOrder) (offset : UInt32) : List Bytes → m Bytes
  | [] => pure []
  | string :: strings => do
    let length ← arithmetic.word string.length
    let next ← nextBy arithmetic offset string
    let rest ← descriptorsBy order next strings
    return descriptorBytes order length offset ++ rest

/-- The image of a list of pairs. -/
def layoutBy (order : ByteOrder) (pairs : List (Bytes × Bytes)) : m Bytes := do
  let msgids := pairs.map (·.1)
  let msgstrs := pairs.map (·.2)
  let count ← arithmetic.word pairs.length
  let tableLength ← arithmetic.mul count (← arithmetic.word descriptorLength)
  let first ← arithmetic.word headerLength
  let second ← arithmetic.add first tableLength
  let start ← arithmetic.add second tableLength
  let room ← msgids.foldlM (nextBy arithmetic) 0
  let next ← arithmetic.add start room
  let header : Header :=
    { magic := magicNumber, revision := 0, count, msgids := first, msgstrs := second,
      hashSize := 0, hashOffset := ← arithmetic.word headerLength }
  let firstTable ← descriptorsBy arithmetic order start msgids
  let secondTable ← descriptorsBy arithmetic order next msgstrs
  return header.words.flatMap order.bytes ++ firstTable ++ secondTable ++ terminated msgids ++
    terminated msgstrs

end Steps

/-! ### Wrapping around -/

theorem foldlM_wrapping (room : UInt32) (strings : List Bytes) :
    Id.run (strings.foldlM (nextBy wrapping) room) =
      strings.foldl (fun room string => room + (lengthWord string + 1)) room := by
  induction strings generalizing room with
  | nil => rfl
  | cons string strings ih => exact ih _

theorem descriptorsBy_wrapping (order : ByteOrder) (offset : UInt32) (strings : List Bytes) :
    Id.run (descriptorsBy wrapping order offset strings) = descriptors order offset strings := by
  induction strings generalizing offset with
  | nil => rfl
  | cons string strings ih =>
    exact congrArg (order.bytes (lengthWord string) ++ order.bytes offset ++ ·) (ih _)

/-- A layout is what this computation gives with the arithmetic that wraps around. -/
theorem layoutBy_wrapping (order : ByteOrder) (pairs : List (Bytes × Bytes)) :
    Id.run (layoutBy wrapping order pairs) = layout order pairs := by
  rw [layout, roomWord, ← foldlM_wrapping, ← descriptorsBy_wrapping, ← descriptorsBy_wrapping]
  rfl

/-! ### Stopping -/

theorem exact_of_lt {n : Nat} (h : n < 2 ^ 32) : exact n = some (UInt32.ofNat n) :=
  if_pos h

theorem exact_of_le {n : Nat} (h : 2 ^ 32 ≤ n) : exact n = none :=
  if_neg (Nat.not_lt.2 h)

theorem exact_eq_some_iff {n : Nat} {word : UInt32} : exact n = some word ↔ word.toNat = n := by
  constructor
  · intro h
    rw [exact, Option.ite_none_right_eq_some] at h
    rw [← Option.some.inj h.2, toNat_word h.1]
  · rintro rfl
    rw [exact_of_lt word.toNat_lt, UInt32.ofNat_toNat]

/-- A number that is no word does not become one by what is added to it. -/
theorem exact_bind_add (n k : Nat) :
    (exact n >>= fun word => exact (word.toNat + k)) = exact (n + k) := by
  rcases Nat.lt_or_ge n (2 ^ 32) with h | h
  · rw [exact_of_lt h, Option.bind_eq_bind, Option.bind_some, toNat_word h]
  · rw [exact_of_le h, exact_of_le (Nat.le_add_right_of_le h)]
    rfl

theorem nextBy_checked (offset : UInt32) (string : Bytes) :
    nextBy checked offset string = exact (offset.toNat + (string.length + 1)) := by
  have hstep : (exact string.length >>= fun length => checked.add length 1) =
      exact (string.length + 1) := exact_bind_add string.length 1
  calc nextBy checked offset string
      = (exact string.length >>= fun length => checked.add length 1) >>= checked.add offset :=
        (bind_assoc _ _ _).symm
    _ = exact (string.length + 1) >>= fun step => exact (step.toNat + offset.toNat) := by
      rw [hstep]
      simp only [checked, Nat.add_comm]
    _ = exact (offset.toNat + (string.length + 1)) := by
      rw [exact_bind_add, Nat.add_comm]

theorem foldlM_checked (room : UInt32) (strings : List Bytes) :
    strings.foldlM (nextBy checked) room = exact (room.toNat + Image.room strings) := by
  induction strings generalizing room with
  | nil => exact (exact_eq_some_iff.2 rfl).symm
  | cons string strings ih =>
    simp only [List.foldlM_cons, nextBy_checked, ih, exact_bind_add, Image.room, Nat.add_assoc]

/-- The descriptors are all exact if the offset behind the last string is. -/
theorem descriptorsBy_checked (order : ByteOrder) (offset : UInt32) (strings : List Bytes) :
    descriptorsBy checked order offset strings =
      (exact (offset.toNat + room strings)).map fun _ => descriptors order offset strings := by
  induction strings generalizing offset with
  | nil =>
    rw [room, Nat.add_zero, exact_eq_some_iff.2 rfl]
    rfl
  | cons string strings ih =>
    have hroom : offset.toNat + room (string :: strings) =
        offset.toNat + (string.length + 1) + room strings := by
      rw [room, ← Nat.add_assoc]
    rw [descriptorsBy, nextBy_checked, hroom]
    rcases Nat.lt_or_ge (offset.toNat + (string.length + 1)) (2 ^ 32) with h | h
    · have hlength : checked.word string.length = some (lengthWord string) :=
        exact_of_lt (by omega)
      have hnext : UInt32.ofNat (offset.toNat + (string.length + 1)) =
          offset + (lengthWord string + 1) := by
        rw [UInt32.ofNat_add, UInt32.ofNat_add, UInt32.ofNat_toNat]
        rfl
      simp only [hlength, exact_of_lt h, ih, Option.bind_eq_bind, Option.bind_some]
      rw [toNat_word h, hnext]
      cases exact (offset.toNat + (string.length + 1) + room strings) <;> rfl
    · rw [exact_of_le h, exact_of_le (by omega)]
      cases checked.word string.length <;> rfl

theorem checked_word_eq_some_iff {n : Nat} {word : UInt32} :
    checked.word n = some word ↔ word.toNat = n :=
  exact_eq_some_iff

theorem checked_add_eq_some_iff {a b word : UInt32} :
    checked.add a b = some word ↔ word.toNat = a.toNat + b.toNat :=
  exact_eq_some_iff

theorem checked_mul_eq_some_iff {a b word : UInt32} :
    checked.mul a b = some word ↔ word.toNat = a.toNat * b.toNat :=
  exact_eq_some_iff

theorem checked_add_of_lt {a b : Nat} (h : a + b < 2 ^ 32) :
    checked.add (UInt32.ofNat a) (UInt32.ofNat b) = some (UInt32.ofNat (a + b)) := by
  have ha := toNat_word (Nat.lt_of_le_of_lt (Nat.le_add_right a b) h)
  have hb := toNat_word (Nat.lt_of_le_of_lt (Nat.le_add_left b a) h)
  exact exact_eq_some_iff.2 (by rw [toNat_word h, ha, hb])

/-- The offsets of the tables and of the strings are exact if the last of them is. -/
theorem layoutBy_checked_of_lt (order : ByteOrder) {pairs : List (Bytes × Bytes)}
    (h : layoutLength pairs < 2 ^ 32) :
    layoutBy checked order pairs = some (layout order pairs) := by
  -- Every number on the way is at most the length of the whole.
  have hlength := layoutLength_eq pairs
  have hcount : checked.word pairs.length = some (UInt32.ofNat pairs.length) :=
    exact_of_lt (by omega)
  have hdescriptor : checked.word descriptorLength = some (UInt32.ofNat 8) := rfl
  have htable : checked.mul (UInt32.ofNat pairs.length) (UInt32.ofNat 8) =
      some (UInt32.ofNat (8 * pairs.length)) :=
    exact_eq_some_iff.2 (by
      rw [toNat_word (by omega), toNat_word (by omega), toNat_word (by omega), Nat.mul_comm])
  have hheader : checked.word headerLength = some (UInt32.ofNat 28) := rfl
  have hsecond := checked_add_of_lt (a := 28) (b := 8 * pairs.length) (by omega)
  have hstart := checked_add_of_lt (a := 28 + 8 * pairs.length) (b := 8 * pairs.length) (by omega)
  have hroom : (pairs.map (·.1)).foldlM (nextBy checked) 0 =
      some (UInt32.ofNat (room (pairs.map (·.1)))) := by
    rw [foldlM_checked, UInt32.toNat_zero, Nat.zero_add, exact_of_lt (by omega)]
  have hnext := checked_add_of_lt (a := 28 + 8 * pairs.length + 8 * pairs.length)
    (b := room (pairs.map (·.1))) (by omega)
  have hmsgstrs : (layoutHeader (UInt32.ofNat pairs.length)).msgstrs =
      UInt32.ofNat (28 + 8 * pairs.length) :=
    UInt32.toNat_inj.1 (by rw [toNat_msgstrs (by omega), toNat_word (by omega)])
  have hstart' : 28 + 8 * pairs.length + 8 * pairs.length = 28 + 16 * pairs.length := by omega
  rw [hstart'] at hstart hnext
  simp only [layoutBy, Option.bind_eq_bind, hcount, hdescriptor, htable, hheader, hsecond, hstart,
    hroom, hnext, Option.bind_some, descriptorsBy_checked]
  rw [toNat_word (by omega), toNat_word (by omega), exact_of_lt (by omega), exact_of_lt (by omega),
    layout_eq, ← hmsgstrs]
  rfl

/-- A layout is exact iff it has fewer than 2³² bytes. -/
theorem layoutBy_checked (order : ByteOrder) (pairs : List (Bytes × Bytes)) :
    layoutBy checked order pairs =
      if layoutLength pairs < 2 ^ 32 then some (layout order pairs) else none := by
  split
  case isTrue h => exact layoutBy_checked_of_lt order h
  case isFalse h =>
    -- If no step stops, the last offset is a word, and it is the length of the whole.
    refine Option.eq_none_iff_forall_ne_some.2 fun bytes hbytes => h ?_
    simp only [layoutBy, Option.bind_eq_bind, Option.bind_eq_some_iff, descriptorsBy_checked,
      foldlM_checked, Option.map_eq_some_iff, checked_word_eq_some_iff, checked_add_eq_some_iff,
      checked_mul_eq_some_iff, exact_eq_some_iff] at hbytes
    obtain ⟨count, hcount, descriptor, hdescriptor, table, htable, first, hfirst, second, hsecond,
      start, hstart, room', hroom, next, hnext, -, -, -, -, -, ⟨behind, hbehind, -⟩, -⟩ := hbytes
    have hlt := behind.toNat_lt
    rw [hcount, hdescriptor, descriptorLength] at htable
    rw [hfirst, headerLength] at hsecond
    rw [UInt32.toNat_zero] at hroom
    rw [layoutLength_eq]
    omega

end MessageCatalog.Image
