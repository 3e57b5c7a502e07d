/-!
# Byte strings

Messages and files are byte strings; nothing is assumed of their encoding.

* `slice?`: the bytes of a range, if all of the range is inside;
* `slice?_eq_some_iff`: the range test is exact, however large the numbers are.
-/

namespace MessageCatalog

/-- A byte string. -/
abbrev Bytes := List UInt8

/-- The `length` bytes from `offset` on, if there are as many. -/
def slice? (bytes : Bytes) (offset length : Nat) : Option Bytes :=
  if offset + length ≤ bytes.length then some ((bytes.drop offset).take length) else none

/-- A slice is cut from the byte string at its offset. -/
theorem slice?_eq_some_iff {bytes part : Bytes} {offset length : Nat} :
    slice? bytes offset length = some part ↔
      ∃ before after, bytes = before ++ part ++ after ∧
        before.length = offset ∧ part.length = length := by
  simp only [slice?, Option.ite_none_right_eq_some, Option.some.injEq]
  constructor
  · rintro ⟨h, rfl⟩
    refine ⟨bytes.take offset, bytes.drop (offset + length), ?_, ?_, ?_⟩
    · rw [← List.drop_drop, List.append_assoc, List.take_append_drop, List.take_append_drop]
    · rw [List.length_take]; omega
    · rw [List.length_take, List.length_drop]; omega
  · rintro ⟨before, after, rfl, rfl, rfl⟩
    simp [List.append_assoc]

theorem slice?_eq_none_iff {bytes : Bytes} {offset length : Nat} :
    slice? bytes offset length = none ↔ bytes.length < offset + length := by
  simp [slice?]

end MessageCatalog
