import MessageCatalog.Proofs.Catalog.Cut
import MessageCatalog.Proofs.Image.Cursor

/-!
# Pairs at any index

The pair at an index may be asked for whatever the number of pairs is: what is tested is whether
its descriptors and its strings lie inside. An index is a word of 64 bits, and so is the offset of
a descriptor, which is computed before anything is tested. At an index that is great enough the
computation overflows, so that the program ends where a descriptor is only far behind the end
(`pair_at_overflowing_index`). At all other indices the tests are exact.

* `Describes`: what a descriptor at an offset says, if it lies inside;
* `stringAt_eq_overflow_iff`, `pairAt_eq_overflow_iff`: where there is an overflow;
* `pair_at_index`: the pair at an index is there iff its descriptors and strings are, and it is
  they; otherwise, unless there is an overflow, the fault is that of a part outside.
-/

namespace MessageCatalog.Image

/-- The descriptor at an offset lies inside, and so does the string that it describes. -/
structure Describes (bytes : Bytes) (place : Nat) (string : Bytes) : Prop where
  descriptor : place + 8 ≤ bytes.length
  /-- Of the two words of a descriptor the first is the length of the string, the second its
      offset. -/
  range : (wordAt bytes (place + 4)).toNat + (wordAt bytes place).toNat ≤ bytes.length
  string : string =
    (bytes.drop (wordAt bytes (place + 4)).toNat).take (wordAt bytes place).toNat

instance (bytes : Bytes) (place : Nat) (string : Bytes) :
    Decidable (Describes bytes place string) :=
  decidable_of_iff (_ ∧ _ ∧ _) ⟨fun ⟨h, h', h''⟩ => ⟨h, h', h''⟩, fun ⟨h, h', h''⟩ => ⟨h, h', h''⟩⟩

/-! ### Strings -/

section Strings

variable {bytes : Bytes} {table : UInt32} {part : Part}

theorem string_eq_ok_iff_describes {index : Nat} {string : Bytes} :
    (ofBytes bytes).string table index part = .ok string ↔
      Describes bytes (descriptorOffset table index) string := by
  rw [string_ofBytes]
  dsimp only
  split
  case isFalse hplace => exact ⟨nofun, fun h => absurd h.descriptor hplace⟩
  case isTrue hplace =>
    split
    case isFalse hrange => exact ⟨nofun, fun h => absurd h.range hrange⟩
    case isTrue hrange =>
      constructor
      · rintro ⟨⟩
        exact ⟨hplace, hrange, rfl⟩
      · intro h
        rw [h.string]

/-- What keeps a string from being read is a part outside. -/
theorem outside_of_string_eq_error {index : Nat} {fault : Fault}
    (h : (ofBytes bytes).string table index part = .error fault) :
    ∃ part offset length, fault = .outside part offset length := by
  rw [string_ofBytes] at h
  dsimp only at h
  split at h
  · split at h
    · cases h
    · cases h
      exact ⟨_, _, _, rfl⟩
  · cases h
    exact ⟨_, _, _, rfl⟩

variable {image : Image} {index : UInt64}

/-- The offset of a descriptor overflows iff it is no number of 64 bits, whatever the file has. -/
theorem stringAt_eq_overflow_iff :
    image.stringAt table index part = .error .overflow ↔
      2 ^ 64 ≤ descriptorOffset table index.toNat := by
  rw [stringAt, ← Nat.not_lt]
  split
  case isTrue hword =>
    refine iff_of_false (fun h => ?_) (not_not_intro hword)
    obtain ⟨fault, -, hfault⟩ := mapError_eq_error_iff.1 h
    cases hfault
  case isFalse hword => exact iff_of_true rfl hword

theorem stringAt_eq_ok_iff {string : Bytes} :
    image.stringAt table index part = .ok string ↔
      descriptorOffset table index.toNat < 2 ^ 64 ∧
        image.string table index.toNat part = .ok string := by
  rw [stringAt]
  split
  case isTrue hword => exact mapError_eq_ok_iff.trans (iff_and_self.2 fun _ => hword)
  case isFalse hword =>
    refine iff_of_false (fun h => ?_) fun h => hword h.1
    cases h

theorem string_eq_error_of_stringAt {fault : Fault}
    (h : image.stringAt table index part = .error (.fault fault)) :
    image.string table index.toNat part = .error fault := by
  rw [stringAt] at h
  split at h
  · obtain ⟨_, hstring, ⟨⟩⟩ := mapError_eq_error_iff.1 h
    exact hstring
  · cases h

end Strings

/-! ### Pairs -/

variable {bytes : Bytes} {image : Image} {index : UInt64}

theorem pairAt_eq_ok_iff {pair : Bytes × Bytes} :
    image.pairAt index = .ok pair ↔
      image.stringAt image.header.msgids index .msgid = .ok pair.1 ∧
        image.stringAt image.header.msgstrs index .msgstr = .ok pair.2 :=
  both_eq_ok_iff

theorem pairAt_eq_error_iff {failure : Failure} :
    image.pairAt index = .error failure ↔
      image.stringAt image.header.msgids index .msgid = .error failure ∨
        (∃ msgid, image.stringAt image.header.msgids index .msgid = .ok msgid) ∧
          image.stringAt image.header.msgstrs index .msgstr = .error failure :=
  both_eq_error_iff

/-- The pair at an index of 64 bits is read iff the offsets of both descriptors are numbers of 64
    bits, and the descriptors and both strings lie inside; in a file that can be addressed, the
    latter is enough. What is read are these strings. There is an overflow iff an offset that is
    computed is no such number, and the second one is computed once the msgid is read. Otherwise
    the fault is that of a part outside. For the pairs that the header counts it is the pair that
    decoding reads; and for all it is the one that a cursor reads, which computes with words. -/
theorem pair_at_index (h : Image.read bytes = .ok image) (index : UInt64) :
    let msgids := image.header.msgids.toNat + 8 * index.toNat
    let msgstrs := image.header.msgstrs.toNat + 8 * index.toNat
    (∀ msgid msgstr, image.pairAt index = .ok (msgid, msgstr) ↔
        (msgids < 2 ^ 64 ∧ Describes bytes msgids msgid) ∧
          msgstrs < 2 ^ 64 ∧ Describes bytes msgstrs msgstr) ∧
      (bytes.length ≤ 2 ^ 64 → ∀ msgid msgstr, image.pairAt index = .ok (msgid, msgstr) ↔
        Describes bytes msgids msgid ∧ Describes bytes msgstrs msgstr) ∧
      (image.pairAt index = .error .overflow ↔
        2 ^ 64 ≤ msgids ∨ (∃ msgid, Describes bytes msgids msgid) ∧ 2 ^ 64 ≤ msgstrs) ∧
      (∀ fault, image.pairAt index = .error (.fault fault) →
        ∃ part offset length, fault = .outside part offset length) ∧
      (index.toNat < image.count →
        image.pairAt index = (image.pair index.toNat).mapError .fault) ∧
      (Cursor.ofBytes bytes).pair image index = (image.pairAt index).mapError .ofFailure := by
  intro msgids msgstrs
  obtain ⟨-, rfl⟩ := read_eq_ok_iff.1 h
  have hok : ∀ msgid msgstr, (ofBytes bytes).pairAt index = .ok (msgid, msgstr) ↔
      (msgids < 2 ^ 64 ∧ Describes bytes msgids msgid) ∧
        msgstrs < 2 ^ 64 ∧ Describes bytes msgstrs msgstr := by
    intro msgid msgstr
    rw [pairAt_eq_ok_iff, stringAt_eq_ok_iff, stringAt_eq_ok_iff, string_eq_ok_iff_describes,
      string_eq_ok_iff_describes]
    rfl
  refine ⟨hok, fun hlength msgid msgstr => ?_, ?_, fun fault hfault => ?_,
    fun hcount => pairAt_of_lt _ (Nat.lt_trans hcount (UInt32.toNat_lt _)),
    Cursor.pair_eq (ofBytes bytes) index⟩
  · -- A descriptor that lies inside has an offset of 64 bits.
    have hword : ∀ place string, Describes bytes place string → place < 2 ^ 64 :=
      fun place string hdescribes => by have := hdescribes.descriptor; omega
    rw [hok, and_iff_right_of_imp (hword _ _), and_iff_right_of_imp (hword _ _)]
  · rw [pairAt_eq_error_iff, stringAt_eq_overflow_iff, stringAt_eq_overflow_iff]
    simp only [stringAt_eq_ok_iff, string_eq_ok_iff_describes, exists_and_left]
    show 2 ^ 64 ≤ msgids ∨ (msgids < 2 ^ 64 ∧ ∃ msgid, Describes bytes msgids msgid) ∧
      2 ^ 64 ≤ msgstrs ↔ _
    rcases Nat.lt_or_ge msgids (2 ^ 64) with hmsgids | hmsgids
    · rw [and_iff_right hmsgids]
    · exact iff_of_true (.inl hmsgids) (.inl hmsgids)
  · rcases pairAt_eq_error_iff.1 hfault with hmsgid | ⟨-, hmsgstr⟩
    · exact outside_of_string_eq_error (string_eq_error_of_stringAt hmsgid)
    · exact outside_of_string_eq_error (string_eq_error_of_stringAt hmsgstr)

/-- An image of one pair, of a letter and another letter. -/
def lonePair : Bytes :=
  [0xDE, 0x12, 0x04, 0x95, 0, 0, 0, 0, 1, 0, 0, 0, 28, 0, 0, 0, 36, 0, 0, 0, 0, 0, 0, 0,
    0, 0, 0, 0, 1, 0, 0, 0, 44, 0, 0, 0, 1, 0, 0, 0, 46, 0, 0, 0, 0x61, 0, 0x62, 0]

theorem pair_at_index_lonePair : Image.read lonePair = .ok (ofBytes lonePair) ∧
    lonePair.length ≤ 2 ^ 64 ∧ (ofBytes lonePair).pairAt 0 = .ok ([0x61], [0x62]) ∧
    (ofBytes lonePair).pairAt 0 = ((ofBytes lonePair).pair 0).mapError .fault ∧
    (∃ part offset length,
      (ofBytes lonePair).pairAt 1 = .error (.fault (.outside part offset length))) ∧
    (ofBytes lonePair).pairAt 0x1FFFFFFFFFFFFFFE = .error .overflow := by
  have hread : Image.read lonePair = .ok (ofBytes lonePair) := by decide
  have hlength : lonePair.length ≤ 2 ^ 64 := by decide
  obtain ⟨-, hpair, -, -, hcounted, -⟩ := pair_at_index hread 0
  obtain ⟨-, -, -, houtside, -, -⟩ := pair_at_index hread 1
  obtain ⟨-, -, hoverflow, -, -, -⟩ := pair_at_index hread 0x1FFFFFFFFFFFFFFE
  refine ⟨hread, hlength, (hpair hlength _ _).2 (by decide), hcounted (by decide), ?_,
    hoverflow.2 (.inl (by decide))⟩
  have hfault : (ofBytes lonePair).pairAt 1 = .error (.fault (.outside .descriptor 44 8)) := by
    decide
  obtain ⟨part, offset, length, houtside⟩ := houtside _ hfault
  exact ⟨part, offset, length, houtside ▸ hfault⟩

/-- At the index 2⁶¹ the descriptor of a msgid would be far behind the end. That it is outside is
    not what is reported: its offset overflows. -/
theorem pair_at_overflowing_index : Image.read lonePair = .ok (ofBytes lonePair) ∧
    (∀ msgid, ¬Describes lonePair
      ((ofBytes lonePair).header.msgids.toNat + 8 * (0x2000000000000000 : UInt64).toNat) msgid) ∧
    (∀ part offset length, (ofBytes lonePair).pairAt 0x2000000000000000 ≠
      .error (.fault (.outside part offset length))) ∧
    (ofBytes lonePair).pairAt 0x2000000000000000 = .error .overflow := by
  have hoverflow : (ofBytes lonePair).pairAt 0x2000000000000000 = .error .overflow := by decide
  refine ⟨by decide, fun msgid h => absurd h.descriptor (by decide), fun part offset length h => ?_,
    hoverflow⟩
  rw [hoverflow] at h
  cases h

end MessageCatalog.Image
