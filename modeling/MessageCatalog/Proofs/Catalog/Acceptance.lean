import MessageCatalog.Catalog.Reading
import MessageCatalog.Proofs.Image.Cursor

/-!
# What decoding accepts

A byte string has a catalog iff it is a sound image. Of one that is not, the first
check that fails tells the fault, whatever else is wrong with it.

Decoding is one pass over the pairs, which takes over every record as soon as it is
read (`decodeWith`). It is carried out with a cursor and in words, which might overflow
but do not.

* `faultOf_decode`: the fault of decoding is that of the first check that fails;
* `decodeWith_eq`: decoding in one pass, with a cursor, has the same outcome;
* `decode_ends_at_first_fault`: both, with what is accepted.
-/

namespace MessageCatalog.Catalog

open Image

/-- The fault of decoding is that of the first check that fails. -/
theorem faultOf_decode (bytes : Bytes) :
    faultOf (decode bytes).value = firstFault bytes (checks bytes) := by
  rw [decode, read_eq, checks, firstFault_append, ← faultOf_reading]
  cases firstFault bytes headerChecks with
  | some fault => rfl
  | none =>
    rw [Option.none_or]
    simp only [ofImage]
    cases (ofBytes bytes).reading.fault <;> rfl

/-! ### One pass -/

/-- Takes over the record of the pair at an index. -/
def absorbPair (cursor : Cursor) (image : Image) (c : Catalog) (index : Nat) :
    Except Stop Catalog := do
  let pair ← cursor.pair image (UInt64.ofNat index)
  return c.absorb (.ofPair pair.1 pair.2)

/-- The catalog of the image that a cursor is at the start of, in one pass. -/
def decodeWith (cursor : Cursor) : Except Stop Catalog := do
  let image ← cursor.image
  (List.range image.count).foldlM (absorbPair cursor image) empty

theorem foldlM_absorbPair (image : Image) {index count : Nat} (h : index + count ≤ 2 ^ 32)
    (c : Catalog) :
    (List.range' index count).foldlM (absorbPair (.ofBytes image.bytes) image) c =
      let reading := image.readingFrom index count
      match reading.fault with
      | some fault => .error (.fault fault)
      | none => .ok ((recordsOf reading.pairs).foldl absorb c) := by
  induction count generalizing index c with
  | zero => rfl
  | succ count ih =>
    have hindex : (UInt64.ofNat index).toNat = index := by
      rw [UInt64.toNat_ofNat', Nat.mod_eq_of_lt (by omega)]
    rw [List.range'_succ, List.foldlM_cons, absorbPair, Cursor.pair_eq,
      image.pairAt_of_lt (by omega), hindex, readingFrom]
    cases image.pair index with
    | error fault => rfl
    | ok pair => exact ih (by omega) _

/-- Decoding in one pass with a cursor has the outcome of reading all pairs first. In
    particular it never ends in a range error or an overflow. -/
theorem decodeWith_eq (bytes : Bytes) :
    decodeWith (.ofBytes bytes) = (decode bytes).value.mapError .fault := by
  rw [decodeWith, decode, Cursor.image_eq, read_eq]
  cases firstFault bytes headerChecks with
  | some fault => rfl
  | none =>
    have hcount : (ofBytes bytes).count < 2 ^ 32 := UInt32.toNat_lt _
    have hfold := foldlM_absorbPair (ofBytes bytes)
      (show 0 + (ofBytes bytes).count ≤ 2 ^ 32 by omega) empty
    rw [← List.range_eq_range'] at hfold
    refine hfold.trans ?_
    rw [← reading]
    simp only [ofImage]
    cases (ofBytes bytes).reading.fault <;> rfl

/-! ### Acceptance -/

/-- A byte string is decoded iff it is a sound image. Otherwise the fault is that of the
    first check, in order, that fails; all that is checked is computed without an overflow,
    and decoding never ends in a range error. -/
theorem decode_ends_at_first_fault (bytes : Bytes) :
    ((∃ c, (decode bytes).value = .ok c) ↔ IsSound bytes) ∧
      (∀ fault, (decode bytes).value = .error fault ↔
        ∃ before check after, checks bytes = before ++ check :: after ∧
          (∀ earlier ∈ before, earlier.Passes bytes) ∧ ¬check.Passes bytes ∧
          check.fault bytes = fault) ∧
      decodeWith (.ofBytes bytes) = (decode bytes).value.mapError .fault ∧
      ∀ check ∈ checks bytes, (check.range bytes).1 + (check.range bytes).2 < 2 ^ 64 := by
  refine ⟨?_, fun fault => ?_, decodeWith_eq bytes, fun check => range_lt_of_mem_checks⟩
  · rw [← faultOf_eq_none_iff, faultOf_decode, firstFault_eq_none_iff, isSound_iff]
  · rw [← faultOf_eq_some_iff, faultOf_decode, firstFault_eq_some_iff]

end MessageCatalog.Catalog
