import MessageCatalog.Bytes.Order

/-!
# Cursors

A cursor reads a byte string: ranges and words anywhere, and words one after the
other from a position that it keeps. Whatever would be read has to lie inside;
what does not is refused with the range that was asked for, and leaves the
cursor where it is. Offsets and lengths may be any numbers.

* `Cursor.slice`, `Cursor.wordAt`: reading at an offset;
* `Cursor.word`, `Cursor.seek`: reading at the position, and moving it;
* `Cursor.perform`, `Cursor.run`: the same operations as requests, one or many.
-/

namespace MessageCatalog

/-- A range that does not lie inside a byte string. -/
structure OutOfBounds where
  /-- Where the range starts. -/
  offset : Nat
  /-- How long the range is. -/
  length : Nat
  /-- How long the byte string is. -/
  size : Nat
  deriving DecidableEq, Repr

/-- The wording of a range error. -/
def OutOfBounds.message (e : OutOfBounds) : String :=
  s!"read of {e.length} bytes at offset {e.offset} exceeds buffer of {e.size} bytes"

/-- A byte string and a position in it. -/
structure Cursor where
  /-- The byte string that is read. -/
  bytes : Bytes
  /-- The offset of the next word. -/
  position : Nat
  deriving DecidableEq, Repr

namespace Cursor

/-- The cursor at the start of a byte string. -/
def ofBytes (bytes : Bytes) : Cursor :=
  ⟨bytes, 0⟩

/-- The length of the byte string. -/
def size (c : Cursor) : Nat :=
  c.bytes.length

/-- The number of bytes from the position on. -/
def remaining (c : Cursor) : Nat :=
  c.size - c.position

/-- Accepts what was read from a range of the byte string, if it lies inside. -/
def within {α : Type} (c : Cursor) (offset length : Nat) : Option α → Except OutOfBounds α
  | some a => .ok a
  | none => .error ⟨offset, length, c.size⟩

/-- The bytes of a range. -/
def slice (c : Cursor) (offset length : Nat) : Except OutOfBounds Bytes :=
  c.within offset length (slice? c.bytes offset length)

/-- The word at an offset. -/
def wordAt (c : Cursor) (offset : Nat) (order : ByteOrder) : Except OutOfBounds UInt32 :=
  c.within offset 4 ((slice? c.bytes offset 4).bind order.word?)

/-- The word at the position, and the cursor after it. -/
def word (c : Cursor) (order : ByteOrder) : Except OutOfBounds (UInt32 × Cursor) := do
  let w ← c.wordAt c.position order
  return (w, { c with position := c.position + 4 })

/-- The cursor at an offset, which may be the end. -/
def seek (c : Cursor) (offset : Nat) : Except OutOfBounds Cursor :=
  if offset ≤ c.size then .ok { c with position := offset }
  else .error ⟨offset, 0, c.size⟩

/-- What can be asked of a cursor. -/
inductive Request where
  /-- The word at the position. -/
  | word (order : ByteOrder)
  /-- The word at an offset. -/
  | wordAt (offset : Nat) (order : ByteOrder)
  /-- The bytes of a range. -/
  | slice (offset length : Nat)
  /-- To move to an offset. -/
  | seek (offset : Nat)
  deriving DecidableEq, Repr

/-- What a cursor gives for a request. -/
inductive Reply where
  /-- A word. -/
  | word (value : UInt32)
  /-- A range of bytes. -/
  | bytes (value : Bytes)
  /-- The cursor has moved. -/
  | moved
  deriving DecidableEq, Repr

/-- The reply to a request, and the cursor afterwards. -/
def perform (c : Cursor) : Request → Except OutOfBounds Reply × Cursor
  | .word order =>
    match c.word order with
    | .ok (w, c') => (.ok (.word w), c')
    | .error e => (.error e, c)
  | .wordAt offset order => ((c.wordAt offset order).map .word, c)
  | .slice offset length => ((c.slice offset length).map .bytes, c)
  | .seek offset =>
    match c.seek offset with
    | .ok c' => (.ok .moved, c')
    | .error e => (.error e, c)

/-- The replies to requests made in turn, each with the cursor afterwards. -/
def run (c : Cursor) : List Request → List (Except OutOfBounds Reply × Cursor)
  | [] => []
  | request :: requests =>
    let (reply, c') := c.perform request
    (reply, c') :: c'.run requests

end Cursor

end MessageCatalog
