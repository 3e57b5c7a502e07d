import MessageCatalog.Bytes.Cursor
import MessageCatalog.Proofs.Bytes.Order

/-!
# Cursors over a run

A cursor that starts at a byte string never leaves it, whatever is asked of it. So, after any
requests, what is asked for is done exactly when it lies inside, and what is refused is refused with
its own range and moves nothing (`Cursor.IsExact`). Ranges are tested here with natural numbers. A
machine has 64-bit words for them, whose sums wrap around; but it tests its sums, and does the same
(`WordCursor.perform_eq`).

* `Cursor.isExact`: a cursor inside its byte string is exact;
* `Cursor.position_le_after`: a cursor that starts inside its byte string stays inside;
* `WordCursor.toCursor_after`: the cursor of a machine is this one;
* `Cursor.exact_over_run`: all of it, for the cursor at the start of a byte string.
-/

namespace MessageCatalog

namespace Cursor

/-! ### Ranges -/

theorem within_eq_ok_iff {α : Type} {c : Cursor} {offset length : Nat} {read : Option α} {a : α} :
    c.within offset length read = .ok a ↔ read = some a := by
  cases read <;> simp [within]

/-- A range is given exactly if it lies inside. -/
theorem slice_eq_ok_iff {c : Cursor} {offset length : Nat} {part : Bytes} :
    c.slice offset length = .ok part ↔
      offset + length ≤ c.size ∧ part = (c.bytes.drop offset).take length := by
  rw [slice, within_eq_ok_iff, slice?, Option.ite_none_right_eq_some, Option.some_inj,
    eq_comm (a := part)]
  rfl

/-- A range is refused exactly if it does not lie inside. -/
theorem slice_eq_error_iff {c : Cursor} {offset length : Nat} {e : OutOfBounds} :
    c.slice offset length = .error e ↔
      c.size < offset + length ∧ e = ⟨offset, length, c.size⟩ := by
  rw [slice, slice?]
  split <;> rename_i h
  · simp [within, size, Nat.not_lt.2 h]
  · simp [within, size, Nat.not_le.1 h, eq_comm]

/-- The word at an offset is the one that the range of four bytes starts with. -/
theorem wordAt_eq_slice (c : Cursor) (offset : Nat) (order : ByteOrder) :
    c.wordAt offset order = (c.slice offset 4).map fun part => (order.word? part).getD 0 := by
  rw [wordAt, slice]
  cases hpart : slice? c.bytes offset 4 with
  | none => rfl
  | some part =>
    obtain ⟨-, -, -, -, hlength⟩ := slice?_eq_some_iff.1 hpart
    rw [Option.bind_some, ByteOrder.word?_eq_some_getD order hlength.ge]
    rfl

/-- The word at an offset is given exactly if its four bytes lie inside. -/
theorem wordAt_eq_ok_iff {c : Cursor} {offset : Nat} {order : ByteOrder} {word : UInt32} :
    c.wordAt offset order = .ok word ↔
      offset + 4 ≤ c.size ∧ word.toNat = order.number ((c.bytes.drop offset).take 4) := by
  rw [wordAt, within_eq_ok_iff, Option.bind_eq_some_iff, slice?]
  by_cases h : offset + 4 ≤ c.bytes.length
  · have hlength : 4 ≤ ((c.bytes.drop offset).take 4).length := by
      rw [List.length_take, List.length_drop]
      omega
    simp only [if_pos h, Option.some_inj, exists_eq_left', ByteOrder.word?_eq_some_iff_number,
      List.take_take, Nat.min_self]
    exact and_congr_left' (iff_of_true hlength h)
  · simp [size, h]

theorem wordAt_eq_error_iff {c : Cursor} {offset : Nat} {order : ByteOrder} {e : OutOfBounds} :
    c.wordAt offset order = .error e ↔ c.size < offset + 4 ∧ e = ⟨offset, 4, c.size⟩ := by
  rw [← slice_eq_error_iff, wordAt_eq_slice]
  cases c.slice offset 4 <;> simp [Except.map]

/-! ### Requests -/

/-- The range that a request asks for, as offset and length. Moving asks for nothing to be read. -/
def range (c : Cursor) : Request → Nat × Nat
  | .word _ => (c.position, 4)
  | .wordAt offset _ => (offset, 4)
  | .slice offset length => (offset, length)
  | .seek offset => (offset, 0)

theorem perform_word (c : Cursor) (order : ByteOrder) :
    c.perform (.word order) = match c.wordAt c.position order with
      | .ok w => (.ok (.word w), ⟨c.bytes, c.position + 4⟩)
      | .error e => (.error e, c) := by
  rw [perform, word]
  cases c.wordAt c.position order <;> rfl

theorem perform_seek (c : Cursor) (offset : Nat) :
    c.perform (.seek offset) = if offset ≤ c.size then (.ok .moved, ⟨c.bytes, offset⟩)
      else (.error ⟨offset, 0, c.size⟩, c) := by
  rw [perform, seek]
  by_cases h : offset ≤ c.size
  · rw [if_pos h, if_pos h]
  · rw [if_neg h, if_neg h]

/-- A request is done: the reply is what was asked for, and only the next word and a move change
    the position. -/
def Does (c next : Cursor) : Request → Reply → Prop
  | .word order, .word w => c.word order = .ok (w, next)
  | .wordAt offset order, .word w => c.wordAt offset order = .ok w ∧ next = c
  | .slice offset length, .bytes part => c.slice offset length = .ok part ∧ next = c
  | .seek offset, .moved => c.seek offset = .ok next
  | _, _ => False

theorem perform_eq_ok_iff {c next : Cursor} {request : Request} {reply : Reply} :
    c.perform request = (.ok reply, next) ↔ c.Does next request reply := by
  cases request with
  | word order =>
    rw [perform]
    cases hword : c.word order <;> cases reply <;> simp [Does, hword, Prod.ext_iff]
  | wordAt offset order =>
    rw [perform]
    cases hword : c.wordAt offset order <;> cases reply <;>
      simp [Does, hword, Except.map, @eq_comm _ next]
  | slice offset length =>
    rw [perform]
    cases hpart : c.slice offset length <;> cases reply <;>
      simp [Does, hpart, Except.map, @eq_comm _ next]
  | seek offset =>
    rw [perform]
    cases hmoved : c.seek offset <;> cases reply <;> simp [Does, hmoved]

/-- A request is refused exactly if its range does not lie inside. -/
theorem perform_eq_error_iff {c next : Cursor} {request : Request} {e : OutOfBounds} :
    c.perform request = (.error e, next) ↔
      c.size < (c.range request).1 + (c.range request).2 ∧
        e = ⟨(c.range request).1, (c.range request).2, c.size⟩ ∧ next = c := by
  rw [← and_assoc]
  cases request with
  | word order =>
    rw [perform_word, range, ← wordAt_eq_error_iff]
    cases c.wordAt c.position order <;> simp [eq_comm]
  | wordAt offset order =>
    rw [perform, range, ← wordAt_eq_error_iff]
    cases c.wordAt offset order <;> simp [Except.map, eq_comm]
  | slice offset length =>
    rw [perform, range, ← slice_eq_error_iff]
    cases c.slice offset length <;> simp [Except.map, eq_comm]
  | seek offset =>
    rw [perform_seek, range]
    by_cases h : offset ≤ c.size
    · simp [h]
    · simp [h, Nat.not_le.1 h, eq_comm]

/-- All that a cursor is asked for is done exactly when it lies inside the byte string, where
    offsets and lengths are any natural numbers. -/
structure IsExact (c : Cursor) : Prop where
  /-- The position is inside, or at the end. -/
  position_le : c.position ≤ c.size
  /-- The bytes that remain are those from the position on. -/
  position_add_remaining : c.position + c.remaining = c.size
  /-- A range gives its bytes. -/
  slice (offset length : Nat) (part : Bytes) : c.slice offset length = .ok part ↔
    offset + length ≤ c.size ∧ part = (c.bytes.drop offset).take length
  /-- A word is the number that its four bytes write. -/
  wordAt (offset : Nat) (order : ByteOrder) (w : UInt32) : c.wordAt offset order = .ok w ↔
    offset + 4 ≤ c.size ∧ w.toNat = order.number ((c.bytes.drop offset).take 4)
  /-- The next word is the one at the position, which moves behind it. -/
  word (order : ByteOrder) (w : UInt32) (next : Cursor) : c.word order = .ok (w, next) ↔
    c.wordAt c.position order = .ok w ∧ next = ⟨c.bytes, c.position + 4⟩
  /-- The position moves to an offset. -/
  seek (offset : Nat) (next : Cursor) : c.seek offset = .ok next ↔
    offset ≤ c.size ∧ next = ⟨c.bytes, offset⟩
  /-- What is done is what was asked for. -/
  done (request : Request) (reply : Reply) (next : Cursor) :
    c.perform request = (.ok reply, next) ↔ c.Does next request reply
  /-- What is refused is refused with its range, and the cursor stays. -/
  refused (request : Request) (e : OutOfBounds) (next : Cursor) :
    c.perform request = (.error e, next) ↔
      c.size < (c.range request).1 + (c.range request).2 ∧
        e = ⟨(c.range request).1, (c.range request).2, c.size⟩ ∧ next = c

/-- A cursor inside its byte string is exact. -/
theorem isExact {c : Cursor} (h : c.position ≤ c.size) : c.IsExact where
  position_le := h
  position_add_remaining := Nat.add_sub_cancel' h
  slice _ _ _ := slice_eq_ok_iff
  wordAt _ _ _ := wordAt_eq_ok_iff
  word order w next := by
    rw [Cursor.word]
    cases c.wordAt c.position order <;> simp [bind, Except.bind, pure, Except.pure, eq_comm]
  seek offset next := by
    rw [Cursor.seek]
    split <;> simp_all [eq_comm]
  done _ _ _ := perform_eq_ok_iff
  refused _ _ _ := perform_eq_error_iff

/-! ### Runs -/

@[simp]
theorem bytes_perform (c : Cursor) (request : Request) : (c.perform request).2.bytes = c.bytes := by
  cases request with
  | word order =>
    rw [perform_word]
    cases c.wordAt c.position order <;> rfl
  | wordAt offset order => rfl
  | slice offset length => rfl
  | seek offset =>
    rw [perform_seek]
    split <;> rfl

/-- A request does not move a cursor out of its byte string. -/
theorem position_le_perform {c : Cursor} (h : c.position ≤ c.size) (request : Request) :
    (c.perform request).2.position ≤ c.size := by
  cases request with
  | word order =>
    rw [perform_word]
    cases hword : c.wordAt c.position order with
    | error e => exact h
    | ok w => exact (wordAt_eq_ok_iff.1 hword).1
  | wordAt offset order => exact h
  | slice offset length => exact h
  | seek offset =>
    rw [perform_seek]
    split
    · assumption
    · exact h

/-- The cursor after requests made in turn. -/
def after (c : Cursor) (requests : List Request) : Cursor :=
  requests.foldl (fun c request => (c.perform request).2) c

/-- What is replied to further requests is what the cursor replies that the first ones leave. -/
theorem run_append (c : Cursor) (requests more : List Request) :
    c.run (requests ++ more) = c.run requests ++ (c.after requests).run more := by
  induction requests generalizing c with
  | nil => rfl
  | cons request requests ih =>
    exact congrArg ((c.perform request) :: ·) (ih _)

@[simp]
theorem bytes_after (c : Cursor) (requests : List Request) :
    (c.after requests).bytes = c.bytes := by
  induction requests generalizing c with
  | nil => rfl
  | cons request requests ih => exact (ih _).trans (bytes_perform c request)

/-- No run moves a cursor out of its byte string. -/
theorem position_le_after {c : Cursor} (h : c.position ≤ c.size) (requests : List Request) :
    (c.after requests).position ≤ c.size := by
  induction requests generalizing c with
  | nil => exact h
  | cons request requests ih =>
    have hsize : (c.perform request).2.size = c.size :=
      congrArg List.length (bytes_perform c request)
    rw [← hsize]
    exact ih (hsize ▸ position_le_perform h request)

end Cursor

/-! ### Machine words -/

/-- A cursor as a machine has it: position, offsets and lengths are 64-bit words. -/
structure WordCursor where
  /-- The byte string that is read. -/
  bytes : Bytes
  /-- The offset of the next word. -/
  position : UInt64

namespace WordCursor

/-- The cursor at the start of a byte string. -/
def ofBytes (bytes : Bytes) : WordCursor :=
  ⟨bytes, 0⟩

/-- The length of the byte string. -/
def size (c : WordCursor) : UInt64 :=
  UInt64.ofNat c.bytes.length

/-- The number of bytes from the position on, or zero if there is no such number. -/
def remaining (c : WordCursor) : UInt64 :=
  if c.size < c.position then 0 else c.size - c.position

/-- The sum of two words, if it does not wrap around. -/
def sum? (a b : UInt64) : Option UInt64 :=
  if a + b < a then none else some (a + b)

/-- The error for a range. -/
def outOfBounds (c : WordCursor) (offset length : UInt64) : OutOfBounds :=
  ⟨offset.toNat, length.toNat, c.size.toNat⟩

/-- The bytes of a range. -/
def slice (c : WordCursor) (offset length : UInt64) : Except OutOfBounds Bytes :=
  match sum? offset length with
  | none => .error (c.outOfBounds offset length)
  | some stop =>
    if offset ≤ stop ∧ stop ≤ c.size then
      .ok ((c.bytes.drop offset.toNat).take (stop - offset).toNat)
    else .error (c.outOfBounds offset length)

/-- The word at an offset. -/
def wordAt (c : WordCursor) (offset : UInt64) (order : ByteOrder) : Except OutOfBounds UInt32 := do
  let part ← c.slice offset 4
  return (order.word? part).getD 0

/-- The reply to a request, and the cursor afterwards. -/
def perform (c : WordCursor) : Cursor.Request → Except OutOfBounds Cursor.Reply × WordCursor
  | .word order =>
    match c.wordAt c.position order with
    | .ok w => (.ok (.word w), { c with position := c.position + 4 })
    | .error e => (.error e, c)
  | .wordAt offset order => ((c.wordAt (.ofNat offset) order).map .word, c)
  | .slice offset length => ((c.slice (.ofNat offset) (.ofNat length)).map .bytes, c)
  | .seek offset =>
    if c.size < .ofNat offset then (.error (c.outOfBounds (.ofNat offset) 0), c)
    else (.ok .moved, { c with position := .ofNat offset })

/-- The cursor after requests made in turn. -/
def after (c : WordCursor) (requests : List Cursor.Request) : WordCursor :=
  requests.foldl (fun c request => (c.perform request).2) c

/-- The cursor with the natural numbers that the words are. -/
def toCursor (c : WordCursor) : Cursor :=
  ⟨c.bytes, c.position.toNat⟩

/-- The numbers of a request are 64-bit words. -/
def Fits : Cursor.Request → Prop
  | .word _ => True
  | .wordAt offset _ => offset < 2 ^ 64
  | .slice offset length => offset < 2 ^ 64 ∧ length < 2 ^ 64
  | .seek offset => offset < 2 ^ 64

instance : DecidablePred Fits
  | .word _ => inferInstanceAs (Decidable True)
  | .wordAt offset _ => inferInstanceAs (Decidable (offset < 2 ^ 64))
  | .slice offset length => inferInstanceAs (Decidable (offset < 2 ^ 64 ∧ length < 2 ^ 64))
  | .seek offset => inferInstanceAs (Decidable (offset < 2 ^ 64))

/-- A sum that is smaller than its first term has wrapped around, and no other. -/
theorem sum?_eq (a b : UInt64) :
    sum? a b = if a.toNat + b.toNat < 2 ^ 64 then some (a + b) else none := by
  have ha := a.toNat_lt
  have hb := b.toNat_lt
  have hwrapped : a + b < a ↔ ¬a.toNat + b.toNat < 2 ^ 64 := by
    rw [UInt64.lt_iff_toNat_lt, UInt64.toNat_add]
    omega
  simp only [sum?, hwrapped, ite_not]

section

variable {c : WordCursor} (h : c.bytes.length < 2 ^ 64)

include h

theorem toNat_size : c.size.toNat = c.toCursor.size :=
  UInt64.toNat_ofNat_of_lt' h

/-- A range is refused whose end is no word: it is not inside either. -/
theorem slice_eq (offset length : UInt64) :
    c.slice offset length = c.toCursor.slice offset.toNat length.toNat := by
  have hsize : c.size.toNat = c.toCursor.size := toNat_size h
  have herror : c.outOfBounds offset length =
      ⟨offset.toNat, length.toNat, c.toCursor.size⟩ := by rw [outOfBounds, hsize]
  symm
  rw [slice, sum?_eq]
  by_cases hsum : offset.toNat + length.toNat < 2 ^ 64
  · have hstop : (offset + length).toNat = offset.toNat + length.toNat := by
      rw [UInt64.toNat_add, Nat.mod_eq_of_lt hsum]
    have hle : offset ≤ offset + length := by
      rw [UInt64.le_iff_toNat_le, hstop]
      exact Nat.le_add_right _ _
    simp only [if_pos hsum, hle, true_and, UInt64.le_iff_toNat_le, hsize,
      UInt64.toNat_sub_of_le _ _ hle, hstop, Nat.add_sub_cancel_left]
    by_cases hinside : offset.toNat + length.toNat ≤ c.toCursor.size
    · rw [if_pos hinside, Cursor.slice_eq_ok_iff]
      exact ⟨hinside, rfl⟩
    · rw [if_neg hinside, Cursor.slice_eq_error_iff]
      exact ⟨Nat.not_le.1 hinside, herror⟩
  · rw [if_neg hsum, Cursor.slice_eq_error_iff]
    exact ⟨h.trans_le (Nat.not_lt.1 hsum), herror⟩

theorem wordAt_eq (offset : UInt64) (order : ByteOrder) :
    c.wordAt offset order = c.toCursor.wordAt offset.toNat order := by
  have hfour : (4 : UInt64).toNat = 4 := rfl
  rw [Cursor.wordAt_eq_slice, wordAt, slice_eq h, hfour]
  cases c.toCursor.slice offset.toNat 4 <;> rfl

/-- A machine replies what the numbers ask for. -/
theorem perform_eq {request : Cursor.Request} (hfits : Fits request) :
    ((c.perform request).1, (c.perform request).2.toCursor) = c.toCursor.perform request := by
  have htoNat {n : Nat} (hn : n < 2 ^ 64) : (UInt64.ofNat n).toNat = n :=
    UInt64.toNat_ofNat_of_lt' hn
  cases request with
  | word order =>
    have hposition : c.toCursor.position = c.position.toNat := rfl
    rw [Cursor.perform_word, perform, wordAt_eq h, hposition]
    cases hword : c.toCursor.wordAt c.position.toNat order with
    | error e => rfl
    | ok w =>
      -- behind a word that was read the position is inside, and so the sum is a word
      have hinside : c.position.toNat + 4 < 2 ^ 64 := (Cursor.wordAt_eq_ok_iff.1 hword).1.trans_lt h
      have hnext : (c.position + 4).toNat = c.position.toNat + 4 := by
        rw [UInt64.toNat_add]
        exact Nat.mod_eq_of_lt hinside
      simp only [toCursor, hnext]
  | wordAt offset order =>
    rw [Cursor.perform, perform, wordAt_eq h, htoNat hfits]
  | slice offset length =>
    rw [Cursor.perform, perform, slice_eq h, htoNat hfits.1, htoNat hfits.2]
  | seek offset =>
    rw [Cursor.perform_seek, perform]
    simp only [UInt64.lt_iff_toNat_lt, outOfBounds, toNat_size h, htoNat hfits]
    by_cases hoffset : offset ≤ c.toCursor.size
    · rw [if_pos hoffset, if_neg (Nat.not_lt.2 hoffset), toCursor, htoNat hfits]
      rfl
    · rw [if_neg hoffset, if_pos (Nat.not_le.1 hoffset)]
      rfl

/-- The cursor of a machine is that of the numbers, after any requests. -/
theorem toCursor_after {requests : List Cursor.Request}
    (hfits : ∀ request ∈ requests, Fits request) :
    (c.after requests).toCursor = c.toCursor.after requests := by
  induction requests generalizing c with
  | nil => rfl
  | cons request requests ih =>
    obtain ⟨hrequest, hrequests⟩ := List.forall_mem_cons.1 hfits
    have hperform : (c.perform request).2.toCursor = (c.toCursor.perform request).2 :=
      congrArg Prod.snd (perform_eq h hrequest)
    have hbytes : (c.perform request).2.bytes = c.bytes :=
      (congrArg Cursor.bytes hperform).trans (Cursor.bytes_perform _ _)
    rw [after, List.foldl_cons, ← after, ih (hbytes ▸ h) hrequests, hperform]
    rfl

/-- Inside the byte string, taking off the position does not stop at zero. -/
theorem toNat_remaining (hposition : c.toCursor.position ≤ c.toCursor.size) :
    c.remaining.toNat = c.toCursor.remaining := by
  have hle : c.position ≤ c.size := by
    rw [UInt64.le_iff_toNat_le, toNat_size h]
    exact hposition
  rw [remaining, if_neg (UInt64.not_lt.2 hle), UInt64.toNat_sub_of_le _ _ hle, toNat_size h]
  rfl

end

end WordCursor

namespace Cursor

/-- What a cursor and a machine do with a byte string, after any requests and for any further one:
    the byte string is as it was, what is asked for is done exactly when it lies inside, and the
    machine does the same. -/
theorem exact_over_run {bytes : Bytes} {requests : List Request}
    (hsize : bytes.length < 2 ^ 64) (hfits : ∀ request ∈ requests, WordCursor.Fits request) :
    let c := (ofBytes bytes).after requests
    let machine := (WordCursor.ofBytes bytes).after requests
    c.bytes = bytes ∧ c.IsExact ∧
      (∀ more,
        (ofBytes bytes).run (requests ++ more) = (ofBytes bytes).run requests ++ c.run more) ∧
      machine.toCursor = c ∧ machine.remaining.toNat = c.remaining ∧
      ∀ request, WordCursor.Fits request →
        ((machine.perform request).1, (machine.perform request).2.toCursor) =
          c.perform request := by
  intro c machine
  have hbytes : c.bytes = bytes := bytes_after _ _
  have hposition : c.position ≤ c.size := by
    have h := position_le_after (c := ofBytes bytes) (Nat.zero_le _) requests
    rwa [size, hbytes]
  have hmachine : machine.toCursor = c := WordCursor.toCursor_after hsize hfits
  have hmachineBytes : machine.bytes = bytes := (congrArg Cursor.bytes hmachine).trans hbytes
  have hlength : machine.bytes.length < 2 ^ 64 := hmachineBytes ▸ hsize
  refine ⟨hbytes, isExact hposition, run_append _ _, hmachine, ?_, fun request hrequest => ?_⟩
  · rw [WordCursor.toNat_remaining hlength (hmachine ▸ hposition), hmachine]
  · rw [WordCursor.perform_eq hlength hrequest, hmachine]

/-- Two words. -/
def twoWords : Bytes :=
  [0xde, 0x12, 0x04, 0x95, 0x00, 0x00, 0x00, 0x2a]

/-- Requests for two words, and between them others that go too far, one of them behind the last
    64-bit offset. -/
def overreaching : List Request :=
  [.word .little, .slice (2 ^ 64 - 1) 2, .seek 9, .slice 8 0, .word .big]

/-- Both words are read; then nothing is left, and a third word is refused. -/
theorem exact_over_run_overreaching :
    let machine := (WordCursor.ofBytes twoWords).after overreaching
    (ofBytes twoWords).after overreaching = ⟨twoWords, 8⟩ ∧ IsExact ⟨twoWords, 8⟩ ∧
      machine.toCursor = ⟨twoWords, 8⟩ ∧ machine.remaining.toNat = 0 ∧
      (machine.perform (.word .little)).1 = .error ⟨8, 4, 8⟩ := by
  have hsize : twoWords.length < 2 ^ 64 := by decide
  have hfits : ∀ request ∈ overreaching, WordCursor.Fits request := by decide
  have hc : (ofBytes twoWords).after overreaching = ⟨twoWords, 8⟩ := by decide
  obtain ⟨-, hexact, -, hmachine, hremaining, hperform⟩ := exact_over_run hsize hfits
  have hword := hperform (.word .little) trivial
  rw [hc] at hexact hmachine hremaining hword
  exact ⟨hc, hexact, hmachine, hremaining, congrArg Prod.fst hword⟩

end Cursor

end MessageCatalog
