import Mathlib.Algebra.Group.Nat.Defs
import Mathlib.Data.List.Basic
import MessageCatalog.Image
import MessageCatalog.Proofs.Bytes.Order
import MessageCatalog.Proofs.Except

/-!
# What reading tests

Reading an image tests one thing after the other, and stops at the first one that
fails. `checks` lists what is tested of a byte string, in order: its magic number,
the length of its header, its revision, and then for each index the descriptor of
the msgid, the msgid, the descriptor of the msgstr, and the msgstr. All that a check
knows of the file is the bytes at its offsets (`wordAt`), and its sums are those of
natural numbers.

* `IsSound`: the byte strings that pass all checks (`isSound_iff`), which can be decided;
* `read_eq`: the header is read iff its checks pass;
* `faultOf_pair`: the fault of a pair is that of the first of its checks that fails;
* `faultOf_reading`: so is the fault of a reading;
* `pairAt_of_lt`: at the indices of a reading no offset overflows.
-/

namespace MessageCatalog

namespace Image

/-- The order of bytes in which a byte string starts with the magic number, if there is
    one. -/
def orderOf (bytes : Bytes) : ByteOrder :=
  if bytes.take 4 = ByteOrder.big.bytes magicNumber then .big else .little

/-- The word at an offset, if all of it is there. -/
def wordAt (bytes : Bytes) (offset : Nat) : UInt32 :=
  ((orderOf bytes).word? (bytes.drop offset)).getD 0

/-! ### Checks -/

/-- What is tested of a byte string. -/
inductive Check where
  /-- It starts with the magic number. -/
  | magic
  /-- Its header is complete. -/
  | header
  /-- The major number of its revision is zero. -/
  | revision
  /-- The descriptor at this offset lies inside. -/
  | descriptor (place : Nat)
  /-- The string that the descriptor at this offset describes lies inside. -/
  | string (part : Part) (place : Nat)
  deriving DecidableEq, Repr

namespace Check

/-- The offset and the length of what is looked at. -/
def range (bytes : Bytes) : Check → Nat × Nat
  | magic => (0, 4)
  | header => (0, headerLength)
  | revision => (4, 4)
  | descriptor place => (place, descriptorLength)
  | string _ place => ((wordAt bytes (place + 4)).toNat, (wordAt bytes place).toNat)

/-- What is tested holds. -/
def Passes (bytes : Bytes) (check : Check) : Prop :=
  match check with
  | magic => bytes.take 4 = (orderOf bytes).bytes magicNumber
  | revision => wordAt bytes 4 >>> 16 = 0
  | header | descriptor _ | string _ _ =>
    (check.range bytes).1 + (check.range bytes).2 ≤ bytes.length

instance (bytes : Bytes) (check : Check) : Decidable (check.Passes bytes) :=
  match check with
  | magic => inferInstanceAs (Decidable (_ = _))
  | revision => inferInstanceAs (Decidable (_ = _))
  | header | descriptor _ | string _ _ => inferInstanceAs (Decidable (_ ≤ _))

/-- What is reported if it does not. -/
def fault (bytes : Bytes) (check : Check) : Fault :=
  let (offset, length) := check.range bytes
  match check with
  | magic => .badMagic ((ByteOrder.little.word? bytes).getD 0)
  | header => .outside .header offset length
  | revision => .unsupportedRevision (wordAt bytes 4)
  | descriptor _ => .outside .descriptor offset length
  | string part _ => .outside part offset length

variable {bytes : Bytes} {place : Nat}

/-- A byte string starts with the magic number iff it does so in the order that this tells. -/
theorem passes_magic_iff :
    magic.Passes bytes ↔ ∃ order : ByteOrder, bytes.take 4 = order.bytes magicNumber := by
  refine ⟨fun h => ⟨_, h⟩, ?_⟩
  rintro ⟨order, h⟩
  rw [Passes, orderOf]
  split
  case isTrue hbig => exact hbig
  case isFalse hbig =>
    cases order with
    | little => exact h
    | big => exact absurd h hbig

theorem passes_header_iff : header.Passes bytes ↔ headerLength ≤ bytes.length := by
  rw [Passes, range, Nat.zero_add]

theorem passes_descriptor_iff :
    (descriptor place).Passes bytes ↔ place + descriptorLength ≤ bytes.length :=
  Iff.rfl

end Check

/-- The checks of the header, in order. -/
def headerChecks : List Check :=
  [.magic, .header, .revision]

/-- The checks of the string that the descriptor at an index of a table describes. -/
def stringChecks (table : UInt32) (index : Nat) (part : Part) : List Check :=
  let place := table.toNat + 8 * index
  [.descriptor place, .string part place]

/-- The checks of the pair at an index, in order. -/
def pairChecks (bytes : Bytes) (index : Nat) : List Check :=
  stringChecks (wordAt bytes 12) index .msgid ++ stringChecks (wordAt bytes 16) index .msgstr

/-- All checks of a byte string, in order. -/
def checks (bytes : Bytes) : List Check :=
  headerChecks ++ (List.range (wordAt bytes 8).toNat).flatMap (pairChecks bytes)

/-- The fault of the first check that fails. -/
def firstFault (bytes : Bytes) (checks : List Check) : Option Fault :=
  (checks.find? fun check => !decide (check.Passes bytes)).map (·.fault bytes)

/-- A byte string that is an image without a fault. -/
structure IsSound (bytes : Bytes) : Prop where
  /-- The header is complete. -/
  header : 28 ≤ bytes.length
  /-- The first word is the magic number, in one order of bytes. -/
  magic : ∃ order : ByteOrder, bytes.take 4 = order.bytes magicNumber
  /-- The major number of the revision is zero. -/
  revision : wordAt bytes 4 >>> 16 = 0
  /-- The descriptors in both tables, and the strings that they describe, lie inside. -/
  pairs : ∀ index < (wordAt bytes 8).toNat, ∀ table ∈ [wordAt bytes 12, wordAt bytes 16],
    let place := table.toNat + 8 * index
    place + 8 ≤ bytes.length ∧
      (wordAt bytes (place + 4)).toNat + (wordAt bytes place).toNat ≤ bytes.length

theorem firstFault_nil (bytes : Bytes) : firstFault bytes [] = none :=
  rfl

theorem firstFault_append (bytes : Bytes) (first second : List Check) :
    firstFault bytes (first ++ second) =
      (firstFault bytes first).or (firstFault bytes second) := by
  rw [firstFault, List.find?_append, Option.map_or]
  rfl

theorem firstFault_cons (bytes : Bytes) (check : Check) (checks : List Check) :
    firstFault bytes (check :: checks) =
      if check.Passes bytes then firstFault bytes checks else some (check.fault bytes) := by
  rw [firstFault, List.find?_cons]
  by_cases h : check.Passes bytes
  · simp only [h, decide_true, Bool.not_true, ↓reduceIte]
    rfl
  · simp only [h, decide_false, Bool.not_false, ↓reduceIte, Option.map_some]

theorem firstFault_eq_none_iff {bytes : Bytes} {checks : List Check} :
    firstFault bytes checks = none ↔ ∀ check ∈ checks, check.Passes bytes := by
  simp [firstFault]

theorem firstFault_eq_some_iff {bytes : Bytes} {checks : List Check} {fault : Fault} :
    firstFault bytes checks = some fault ↔
      ∃ before check after, checks = before ++ check :: after ∧
        (∀ earlier ∈ before, earlier.Passes bytes) ∧ ¬check.Passes bytes ∧
        check.fault bytes = fault := by
  simp only [firstFault, Option.map_eq_some_iff, List.find?_eq_some_iff_append, Bool.not_eq_true',
    decide_eq_false_iff_not, Bool.not_not, decide_eq_true_eq]
  constructor
  · rintro ⟨check, ⟨hcheck, before, after, hchecks, hbefore⟩, hfault⟩
    exact ⟨before, check, after, hchecks, hbefore, hcheck, hfault⟩
  · rintro ⟨before, check, after, hchecks, hbefore, hcheck, hfault⟩
    exact ⟨check, ⟨hcheck, before, after, hchecks, hbefore⟩, hfault⟩

/-- A sound byte string passes all checks. -/
theorem isSound_iff {bytes : Bytes} :
    IsSound bytes ↔ ∀ check ∈ checks bytes, check.Passes bytes := by
  have hpairs : (∀ check ∈ checks bytes, check.Passes bytes) ↔
      (∀ check ∈ headerChecks, check.Passes bytes) ∧
        ∀ index < (wordAt bytes 8).toNat, ∀ check ∈ pairChecks bytes index, check.Passes bytes := by
    simp only [checks, List.forall_mem_append, List.forall_mem_flatMap, List.mem_range]
  simp only [hpairs, headerChecks, pairChecks, stringChecks, List.forall_mem_append,
    List.forall_mem_cons, Check.passes_magic_iff, Check.passes_header_iff]
  constructor
  · intro h
    refine ⟨⟨h.magic, h.header, h.revision, nofun⟩, fun index hindex => ?_⟩
    have hmsgid := h.pairs index hindex _ (List.mem_cons_self ..)
    have hmsgstr := h.pairs index hindex _ (List.mem_cons_of_mem _ (List.mem_cons_self ..))
    exact ⟨⟨hmsgid.1, hmsgid.2, nofun⟩, hmsgstr.1, hmsgstr.2, nofun⟩
  · rintro ⟨⟨hmagic, hheader, hrevision, -⟩, hindex⟩
    refine ⟨hheader, hmagic, hrevision, fun index hlt table htable => ?_⟩
    obtain ⟨⟨hd, hs, -⟩, hd', hs', -⟩ := hindex index hlt
    rcases List.mem_pair.1 htable with rfl | rfl
    · exact ⟨hd, hs⟩
    · exact ⟨hd', hs'⟩

instance (bytes : Bytes) : Decidable (IsSound bytes) :=
  decidable_of_iff _ isSound_iff.symm

/-- The magic number alone is no image. -/
example : ¬IsSound [0xDE, 0x12, 0x04, 0x95] := by decide

theorem range_lt_of_mem_stringChecks {bytes : Bytes} {table : UInt32} {index : Nat} {part : Part}
    {check : Check} (hindex : index < 2 ^ 32) (h : check ∈ stringChecks table index part) :
    (check.range bytes).1 + (check.range bytes).2 < 2 ^ 64 := by
  have hword : ∀ word : UInt32, word.toNat < 2 ^ 32 := UInt32.toNat_lt
  have htable := hword table
  rcases List.mem_cons.1 h with rfl | h
  · simp only [Check.range, descriptorLength]
    omega
  · cases List.mem_singleton.1 h
    exact Nat.lt_of_lt_of_le (Nat.add_lt_add (hword _) (hword _)) (by decide)

/-- No sum of a check reaches 2⁶⁴. -/
theorem range_lt_of_mem_checks {bytes : Bytes} {check : Check} (h : check ∈ checks bytes) :
    (check.range bytes).1 + (check.range bytes).2 < 2 ^ 64 := by
  rcases List.mem_append.1 h with h | h
  · have hheader : ∀ check ∈ headerChecks,
        (check.range bytes).1 + (check.range bytes).2 ≤ headerLength := by
      simp [headerChecks, Check.range, headerLength]
    exact Nat.lt_of_le_of_lt (hheader check h) (by decide)
  · obtain ⟨index, hindex, hcheck⟩ := List.mem_flatMap.1 h
    have hlt : index < 2 ^ 32 := Nat.lt_trans (List.mem_range.1 hindex) (UInt32.toNat_lt _)
    rcases List.mem_append.1 hcheck with hmsgid | hmsgstr
    · exact range_lt_of_mem_stringChecks hlt hmsgid
    · exact range_lt_of_mem_stringChecks hlt hmsgstr

/-! ### The header -/

/-- The header that a byte string starts with. -/
def headerOf (bytes : Bytes) : Header where
  magic := wordAt bytes 0
  revision := wordAt bytes 4
  count := wordAt bytes 8
  msgids := wordAt bytes 12
  msgstrs := wordAt bytes 16
  hashSize := wordAt bytes 20
  hashOffset := wordAt bytes 24

/-- The image that a byte string is, if its header passes. -/
def ofBytes (bytes : Bytes) : Image :=
  ⟨bytes, orderOf bytes, headerOf bytes⟩

theorem word?_drop {bytes : Bytes} {offset : Nat} (h : offset + 4 ≤ bytes.length) :
    (orderOf bytes).word? (bytes.drop offset) = some (wordAt bytes offset) :=
  ByteOrder.word?_eq_some_getD _ (by rw [List.length_drop]; omega)

theorem read?_eq_some {bytes : Bytes} (h : headerLength ≤ bytes.length) :
    Header.read? (orderOf bytes) bytes = some (headerOf bytes) := by
  have hword : ∀ index, index ≤ 6 →
      (orderOf bytes).word? (bytes.drop (4 * index)) = some (wordAt bytes (4 * index)) :=
    fun index hindex => word?_drop (by rw [headerLength] at h; omega)
  simp only [Header.read?, hword 0 (by decide), hword 1 (by decide), hword 2 (by decide),
    hword 3 (by decide), hword 4 (by decide), hword 5 (by decide), hword 6 (by decide)]
  rfl

theorem read?_eq_none {bytes : Bytes} (h : bytes.length < headerLength) (order : ByteOrder) :
    Header.read? order bytes = none := by
  -- The last word is not there.
  have hword : order.word? (bytes.drop (4 * 6)) = none := by
    rw [ByteOrder.word?_eq_none_iff, List.length_drop]
    rw [headerLength] at h
    omega
  simp only [Header.read?, hword, Option.bind_eq_bind, Option.bind_none, Option.bind_fun_none]

/-- The first word tells the order of bytes iff it is the magic number. -/
theorem orderOfMagic?_eq {bytes : Bytes} {word : UInt32}
    (hword : ByteOrder.little.word? bytes = some word) :
    orderOfMagic? word = if Check.magic.Passes bytes then some (orderOf bytes) else none := by
  have htake : ∀ other : UInt32, word = other ↔ bytes.take 4 = ByteOrder.little.bytes other := by
    intro other
    rw [← ByteOrder.word?_eq_some_iff, hword, Option.some.injEq]
  have hswapped : ByteOrder.little.bytes swappedMagicNumber = ByteOrder.big.bytes magicNumber := rfl
  have hne : ByteOrder.little.bytes magicNumber ≠ ByteOrder.big.bytes magicNumber := by decide
  rw [orderOfMagic?]
  simp only [htake, hswapped]
  by_cases hbig : bytes.take 4 = ByteOrder.big.bytes magicNumber
  · have horder : orderOf bytes = .big := if_pos hbig
    rw [if_neg fun hlittle => hne (hlittle.symm.trans hbig), if_pos hbig,
      if_pos (Check.passes_magic_iff.2 ⟨_, hbig⟩), horder]
  · have horder : orderOf bytes = .little := if_neg hbig
    have hpasses : Check.magic.Passes bytes ↔
        bytes.take 4 = ByteOrder.little.bytes magicNumber := by
      rw [Check.Passes, horder]
    simp only [if_neg hbig, hpasses, horder]

theorem headerOf_major_eq_zero_iff {bytes : Bytes} :
    (headerOf bytes).major = 0 ↔ Check.revision.Passes bytes := by
  rw [Check.Passes, Header.major, headerOf, ← UInt32.toNat_inj, UInt32.toNat_shiftRight,
    Nat.shiftRight_eq_div_pow]
  rfl

/-- A byte string is read as an image iff its header passes. -/
theorem read_eq (bytes : Bytes) :
    Image.read bytes =
      match firstFault bytes headerChecks with
      | some fault => .error fault
      | none => .ok (ofBytes bytes) := by
  simp only [headerChecks, firstFault_cons, firstFault_nil, Image.read]
  cases hword : ByteOrder.little.word? bytes with
  | none =>
    -- Less than four bytes are no magic number.
    have hmagic : ¬Check.magic.Passes bytes := by
      rw [ByteOrder.word?_eq_none_iff] at hword
      intro h
      have hlength := congrArg List.length h
      rw [List.length_take, ByteOrder.length_bytes] at hlength
      omega
    rw [if_neg hmagic]
    simp only [Check.fault, hword]
    rfl
  | some word =>
    simp only [orderOfMagic?_eq hword]
    by_cases hmagic : Check.magic.Passes bytes
    · simp only [if_pos hmagic]
      by_cases hheader : Check.header.Passes bytes
      · simp only [if_pos hheader, read?_eq_some (Check.passes_header_iff.1 hheader),
          headerOf_major_eq_zero_iff]
        split <;> rfl
      · have hlength : bytes.length < headerLength :=
          Nat.not_le.1 (mt Check.passes_header_iff.2 hheader)
        simp only [if_neg hheader, read?_eq_none hlength]
        rfl
    · simp only [if_neg hmagic, Check.fault, hword]
      rfl

/-! ### Strings -/

/-- The fault of a result. -/
def faultOf {α : Type} : Except Fault α → Option Fault
  | .ok _ => none
  | .error fault => some fault

theorem faultOf_eq_some_iff {α : Type} {result : Except Fault α} {fault : Fault} :
    faultOf result = some fault ↔ result = .error fault := by
  cases result <;> simp [faultOf]

theorem faultOf_eq_none_iff {α : Type} {result : Except Fault α} :
    faultOf result = none ↔ ∃ a, result = .ok a := by
  cases result <;> simp [faultOf]

/-- Of two steps the first fault counts. -/
theorem faultOf_bind {α β : Type} (first : Except Fault α) {next : α → Except Fault β}
    (second : Option Fault) (h : ∀ a, faultOf (next a) = second) :
    faultOf (first >>= next) = (faultOf first).or second := by
  cases first with
  | error fault => rfl
  | ok a => exact h a

/-- The descriptor at an offset. -/
theorem descriptor_eq (bytes : Bytes) (place : Nat) :
    (slice? bytes place descriptorLength).bind (Descriptor.read? (orderOf bytes)) =
      if (Check.descriptor place).Passes bytes then
        some ⟨wordAt bytes place, wordAt bytes (place + 4)⟩
      else none := by
  rw [slice?]
  split
  case isFalse h => rw [if_neg (mt Check.passes_descriptor_iff.1 h)]; rfl
  case isTrue h =>
    have hlength : (orderOf bytes).word? ((bytes.drop place).take descriptorLength) =
        some (wordAt bytes place) := by
      rw [ByteOrder.word?_take _ _ (by decide), word?_drop]
      exact Nat.le_trans (Nat.add_le_add_left (by decide) place) h
    have hoffset : (orderOf bytes).word? (((bytes.drop place).take descriptorLength).drop 4) =
        some (wordAt bytes (place + 4)) := by
      rw [List.drop_take, ByteOrder.word?_take _ _ (by decide), List.drop_drop, word?_drop]
      exact h
    rw [if_pos (Check.passes_descriptor_iff.2 h), Option.bind_some, Descriptor.read?, hlength,
      hoffset]
    rfl

/-- The string that a descriptor describes. -/
theorem slice?_eq (bytes : Bytes) (part : Part) (place : Nat) :
    slice? bytes (wordAt bytes (place + 4)).toNat (wordAt bytes place).toNat =
      if (Check.string part place).Passes bytes then
        some ((bytes.drop (wordAt bytes (place + 4)).toNat).take (wordAt bytes place).toNat)
      else none :=
  rfl

variable (bytes : Bytes)

/-- The string at an index is read if its descriptor and the range that this tells pass. -/
theorem string_ofBytes (table : UInt32) (index : Nat) (part : Part) :
    (ofBytes bytes).string table index part =
      let place := descriptorOffset table index
      let offset := (wordAt bytes (place + 4)).toNat
      let length := (wordAt bytes place).toNat
      if (Check.descriptor place).Passes bytes then
        if (Check.string part place).Passes bytes then .ok ((bytes.drop offset).take length)
        else .error (.outside part offset length)
      else .error (.outside .descriptor place descriptorLength) := by
  simp only [Image.string, ofBytes, descriptor_eq]
  generalize descriptorOffset table index = place
  by_cases hplace : (Check.descriptor place).Passes bytes
  · simp only [if_pos hplace, slice?_eq bytes part]
    by_cases hstring : (Check.string part place).Passes bytes
    · simp only [if_pos hstring]
    · simp only [if_neg hstring]
  · simp only [if_neg hplace]

theorem faultOf_string (table : UInt32) (index : Nat) (part : Part) :
    faultOf ((ofBytes bytes).string table index part) =
      firstFault bytes (stringChecks table index part) := by
  have hplace : descriptorOffset table index = table.toNat + 8 * index := rfl
  rw [string_ofBytes, hplace]
  simp only [stringChecks, firstFault_cons, firstFault_nil]
  split
  · split <;> rfl
  · rfl

/-- The fault of a pair is that of its first check that fails. -/
theorem faultOf_pair (index : Nat) :
    faultOf ((ofBytes bytes).pair index) = firstFault bytes (pairChecks bytes index) := by
  rw [pairChecks, firstFault_append, ← faultOf_string, ← faultOf_string]
  refine faultOf_bind _ _ fun msgid => ?_
  exact (faultOf_bind _ none fun _ => rfl).trans Option.or_none

/-! ### Overflows -/

/-- The offset of a descriptor overflows at no index below 2³². -/
theorem descriptorOffset_lt (table : UInt32) {index : Nat} (h : index < 2 ^ 32) :
    descriptorOffset table index < UInt64.size := by
  have htable := table.toNat_lt
  have hsize : UInt64.size = 2 ^ 64 := rfl
  rw [descriptorOffset, descriptorLength]
  omega

theorem stringAt_of_lt (image : Image) (table : UInt32) {index : UInt64}
    (h : index.toNat < 2 ^ 32) (part : Part) :
    image.stringAt table index part = (image.string table index.toNat part).mapError .fault :=
  if_pos (descriptorOffset_lt table h)

/-- The pair at an index below 2³², among them those of all pairs, is read without an overflow. -/
theorem pairAt_of_lt (image : Image) {index : UInt64} (h : index.toNat < 2 ^ 32) :
    image.pairAt index = (image.pair index.toNat).mapError .fault := by
  rw [pairAt, image.stringAt_of_lt _ h, image.stringAt_of_lt _ h]
  exact both_mapError ..

/-! ### Readings -/

theorem fault_readingFrom (index count : Nat) :
    ((ofBytes bytes).readingFrom index count).fault =
      firstFault bytes ((List.range' index count).flatMap (pairChecks bytes)) := by
  induction count generalizing index with
  | zero => rfl
  | succ count ih =>
    rw [readingFrom, List.range'_succ, List.flatMap_cons, firstFault_append, ← faultOf_pair]
    cases (ofBytes bytes).pair index with
    | error fault => rfl
    | ok pair => exact ih (index + 1)

/-- The fault of a reading is that of the first check of a pair that fails. -/
theorem faultOf_reading :
    (ofBytes bytes).reading.fault =
      firstFault bytes ((List.range (wordAt bytes 8).toNat).flatMap (pairChecks bytes)) := by
  rw [List.range_eq_range']
  exact fault_readingFrom bytes 0 _

end Image

end MessageCatalog
