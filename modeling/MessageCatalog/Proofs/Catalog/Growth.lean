import Mathlib.Algebra.Order.BigOperators.Group.List
import Mathlib.Algebra.Order.Group.Nat
import MessageCatalog.Proofs.Catalog.Meaning
import MessageCatalog.Proofs.Catalog.RoundTrip
import MessageCatalog.Proofs.Image.Overflow
import MessageCatalog.Proofs.Image.Words

/-!
# Catalogs that are too large for an image

A file that can be read may give a catalog that cannot be written, although the file is short. The
reason is that strings may overlap: when all of them start at one offset and each is longer by a
byte than the one before it, the file takes eight bytes for each descriptor and one run of letters,
but the catalog takes as much for each entry as the run is long. With `count` descriptors and a run
of about `first` letters, reading thus makes a catalog whose image has more than
`2 * count * first` bytes out of a file of about `8 * count + first` bytes.

* `overlapping`: such a file;
* `decode_overlapping`: the catalog that it gives;
* `exists_decode_outgrows`: a file of less than a megabyte whose catalog has no exact layout.
-/

namespace MessageCatalog

namespace Image

/-- A run of letters. -/
def letters (length : Nat) : Bytes :=
  List.replicate length 0x61

/-- The header of a file whose two tables are one, with `count` descriptors in it. -/
def oneTable (count : Nat) : Header where
  magic := magicNumber
  revision := 0
  count := UInt32.ofNat count
  msgids := UInt32.ofNat headerLength
  msgstrs := UInt32.ofNat headerLength
  hashSize := 0
  hashOffset := UInt32.ofNat headerLength

/-- The descriptor at an index: a string of `first + index` letters behind the table. -/
def overlappingDescriptor (order : ByteOrder) (first count index : Nat) : Bytes :=
  descriptorBytes order (UInt32.ofNat (first + index)) (UInt32.ofNat (28 + 8 * count))

/-- A file of strings of `first`, `first + 1`, … letters that all start at the same offset, each
    of which is a msgid and its own msgstr. -/
def overlapping (order : ByteOrder) (first count : Nat) : Bytes :=
  (oneTable count).words.flatMap order.bytes ++
    ((List.range count).flatMap (overlappingDescriptor order first count) ++
      letters (first + count))

variable (order : ByteOrder) (first count : Nat)

theorem length_flatMap_descriptors (indices : List Nat) :
    (indices.flatMap (overlappingDescriptor order first count)).length = 8 * indices.length := by
  induction indices with
  | nil => rfl
  | cons index indices ih =>
    rw [List.flatMap_cons, List.length_append, ih, overlappingDescriptor, length_descriptorBytes,
      descriptorLength, List.length_cons]
    omega

theorem length_overlapping :
    (overlapping order first count).length = 28 + 8 * count + (first + count) := by
  rw [overlapping, List.length_append, List.length_append, length_words,
    length_flatMap_descriptors, List.length_range, letters, List.length_replicate, Nat.add_assoc]

theorem standsAt_overlappingDescriptor {index : Nat} (h : index < count) :
    StandsAt (overlapping order first count) (28 + 8 * index)
      (overlappingDescriptor order first count index) := by
  have htable : StandsAt (overlapping order first count) 28
      ((List.range count).flatMap (overlappingDescriptor order first count)) :=
    ⟨_, _, (List.append_assoc ..).symm, length_words ..⟩
  obtain ⟨before, after, hrange, rfl⟩ := split_of_getElem? (List.getElem?_range h)
  refine htable.trans ⟨before.flatMap (overlappingDescriptor order first count),
    after.flatMap (overlappingDescriptor order first count), ?_, ?_⟩
  · rw [hrange, List.flatMap_append, List.flatMap_cons, List.append_assoc]
  · rw [length_flatMap_descriptors]

theorem standsAt_letters {length : Nat} (h : length ≤ first + count) :
    StandsAt (overlapping order first count) (28 + 8 * count) (letters length) := by
  have hletters : letters (first + count) = letters length ++ letters (first + count - length) := by
    rw [letters, letters, letters, List.replicate_append_replicate, Nat.add_sub_cancel' h]
  refine ⟨(oneTable count).words.flatMap order.bytes ++
    (List.range count).flatMap (overlappingDescriptor order first count),
    letters (first + count - length), ?_, ?_⟩
  · rw [overlapping, hletters]
    simp only [List.append_assoc]
  · rw [List.length_append, length_words, length_flatMap_descriptors, List.length_range]

variable {order first count}

/-- The image that the file is read as. -/
def ofOverlapping (order : ByteOrder) (first count : Nat) : Image :=
  ⟨overlapping order first count, order, oneTable count⟩

theorem read_overlapping :
    Image.read (overlapping order first count) = .ok (ofOverlapping order first count) :=
  read_words order rfl (by simp [Header.major, oneTable]) _

/-- At every index, msgid and msgstr are one string of letters. -/
theorem pair_overlapping (hsize : 28 + 8 * count + (first + count) < 2 ^ 32) {index : Nat}
    (h : index < count) : (ofOverlapping order first count).pair index =
      .ok (letters (first + index), letters (first + index)) := by
  have hstring : ∀ part, (ofOverlapping order first count).string (UInt32.ofNat headerLength)
      index part = .ok (letters (first + index)) := by
    intro part
    refine string_eq_ok part rfl (standsAt_overlappingDescriptor order first count h) ?_ ?_
    · rw [letters, List.length_replicate, toNat_word (by omega)]
    · rw [toNat_word (by omega)]
      exact standsAt_letters order first count (by omega)
  have hmsgid : (ofOverlapping order first count).string
      (ofOverlapping order first count).header.msgids index .msgid = _ := hstring .msgid
  have hmsgstr : (ofOverlapping order first count).string
      (ofOverlapping order first count).header.msgstrs index .msgstr = _ := hstring .msgstr
  rw [Image.pair, hmsgid, hmsgstr]
  rfl

end Image

namespace Catalog

open Image (letters overlapping)

variable {order : ByteOrder} {first count : Nat}

theorem hasPairs_overlapping (hsize : 28 + 8 * count + (first + count) < 2 ^ 32) :
    HasPairs (overlapping order first count)
      ((List.range count).map fun index => (letters (first + index), letters (first + index))) := by
  refine ⟨_, Image.read_overlapping, ?_⟩
  have hcount : (Image.ofOverlapping order first count).count = count :=
    Image.toNat_word (by omega)
  rw [hcount, List.map_map]
  exact List.map_congr_left fun index hindex =>
    Image.pair_overlapping hsize (List.mem_range.1 hindex)

/-- Of two runs of letters, the shorter one comes first. -/
theorem letters_lt_letters {m n : Nat} (h : m < n) : letters m < letters n := by
  obtain ⟨k, rfl⟩ := Nat.exists_eq_add_of_lt h
  have hletters : letters (m + k + 1) = letters m ++ 0x61 :: letters k := by
    rw [letters, letters, letters, ← List.replicate_succ, List.replicate_append_replicate,
      Nat.add_assoc]
  have hlt : letters m ++ [] < letters m ++ 0x61 :: letters k :=
    List.append_left_lt (List.nil_lt_cons _ _)
  rwa [List.append_nil, ← hletters] at hlt

/-- A message of letters that is its own translation. -/
def lettersEntry (length : Nat) : Entry :=
  ⟨letters length, none, none, [letters length]⟩

/-- The catalog of `count` such messages, of `first` letters and more. -/
def lettersCatalog (first count : Nat) : Catalog where
  entries :=
    { toList := (List.range count).map fun index =>
        (letters (first + index), lettersEntry (first + index))
      ascending := by
        rw [List.pairwise_map]
        exact List.pairwise_lt_range.imp fun h => letters_lt_letters (Nat.add_lt_add_left h first) }
  headers := Headers.empty
  compiled := none

theorem separable_lettersEntry (length : Nat) : (lettersEntry length).Separable := by
  have hnot : ∀ separator ∈ [formSeparator, contextSeparator], separator ∉ letters length := by
    intro separator hmem hseparator
    rw [List.eq_of_mem_replicate hseparator] at hmem
    exact absurd hmem (by decide)
  refine ⟨hnot _ (by decide), fun form hform => ?_, nofun, fun _ => ⟨hnot _ (by decide), nofun⟩⟩
  rw [List.mem_singleton.1 hform]
  exact hnot _ (by decide)

theorem hasMessage_lettersEntry {length : Nat} (h : 0 < length) :
    (lettersEntry length).hasMessage = true ∧ (lettersEntry length).isUntranslated = false := by
  obtain ⟨n, rfl⟩ := Nat.exists_eq_add_of_lt h
  exact ⟨rfl, rfl⟩

/-- The file gives a catalog with an entry for each of its descriptors. -/
theorem decode_overlapping (hsize : 28 + 8 * count + (first + count) < 2 ^ 32)
    (hfirst : 0 < first) :
    (decode (overlapping order first count)).value = .ok (lettersCatalog first count) := by
  refine decode_eq_ok_iff_hasPairs.2 ⟨_, hasPairs_overlapping hsize, ?_⟩
  let entries := (lettersCatalog first count).entries
  have hmessage : ∀ p ∈ entries.toList, p.1 = p.2.key ∧ p.2.Separable ∧ p.2.hasMessage = true ∧
      p.2.isUntranslated = false := by
    intro p hp
    obtain ⟨index, -, rfl⟩ := List.mem_map.1 hp
    exact ⟨rfl, separable_lettersEntry _, hasMessage_lettersEntry (Nat.add_pos_left hfirst index)⟩
  have hrecords : recordsOf ((List.range count).map fun index =>
      (letters (first + index), letters (first + index))) =
      entries.toList.map fun p => Record.entry p.2 := by
    simp only [recordsOf, entries, lettersCatalog, List.map_map]
    refine List.map_congr_left fun index hindex => ?_
    obtain ⟨-, hseparable, hmessage, htranslated⟩ := hmessage _ (List.mem_map_of_mem hindex)
    exact ofPair_entry hseparable hmessage htranslated
  -- The entries are read by ascending key, in which order the map has them, too.
  have hunion := KeyMap.empty_union entries
  rw [KeyMap.union] at hunion
  rw [hrecords, ofRecords, foldl_absorb_entries (fun p hp => (hmessage p hp).1)
    (fun p hp => (hmessage p hp).2.2.1)]
  exact congrArg (Catalog.mk · Headers.empty none) hunion.symm

theorem le_imageLength_lettersCatalog (hfirst : 0 < first) :
    2 * (count * first) ≤ (lettersCatalog first count).imageLength := by
  have htranslated : (lettersCatalog first count).translated =
      (List.range count).map fun index => lettersEntry (first + index) := by
    rw [translated, lettersCatalog, KeyMap.values, List.map_map]
    refine List.filter_eq_self.2 fun e he => ?_
    obtain ⟨index, -, rfl⟩ := List.mem_map.1 he
    simp [hasMessage_lettersEntry (Nat.add_pos_left hfirst index)]
  have hsum : count * first ≤
      ((List.range count).map fun index => (letters (first + index)).length + 1).sum := by
    have hle := List.card_nsmul_le_sum
      ((List.range count).map fun index => (letters (first + index)).length + 1) first ?_
    · rwa [List.length_map, List.length_range] at hle
    · intro length hlength
      obtain ⟨index, -, rfl⟩ := List.mem_map.1 hlength
      rw [letters, List.length_replicate]
      omega
  rw [imageLength, Image.layoutLength, pairs, htranslated]
  simp only [List.map_cons, List.map_map, List.sum_cons]
  -- The msgids take as much room as the msgstrs.
  have hmsgstrs : ∀ index, (lettersEntry (first + index)).msgid = letters (first + index) ∧
      (lettersEntry (first + index)).msgstr = letters (first + index) := fun _ => ⟨rfl, rfl⟩
  simp only [Function.comp_def, hmsgstrs]
  omega

/-- A file of less than a megabyte gives a catalog whose layout is exact in neither byte order:
    some length or offset in it is no word. -/
theorem exists_decode_outgrows : ∃ file c, file.length < 2 ^ 20 ∧ (decode file).value = .ok c ∧
    2 ^ 32 ≤ c.imageLength ∧ ∀ order, Image.layoutBy Image.checked order c.pairs = none := by
  have hlength : 2 ^ 32 ≤ (lettersCatalog (2 ^ 16) (2 ^ 16)).imageLength :=
    Nat.le_trans (by decide) (le_imageLength_lettersCatalog (by decide))
  refine ⟨overlapping .little (2 ^ 16) (2 ^ 16), _, ?_, decode_overlapping (by decide) (by decide),
    hlength, fun order => ?_⟩
  · rw [Image.length_overlapping]
    decide
  · rw [Image.layoutBy_checked]
    exact if_neg (Nat.not_lt.2 hlength)

end Catalog

end MessageCatalog
