import MessageCatalog.Proofs.Image.Words

/-!
# The parts of a file

A file says itself where its parts are: the header says where the tables stand, and every
descriptor in them where a string stands, to whose length its terminator has to be added. Nothing
keeps these parts from sharing bytes, or from leaving some out. Those of a layout of fewer than
2³² bytes do neither: each of them starts where the one before it stops (`Tiles`).

* `extents`: the parts of a file, as its words say;
* `LaidOut`: what makes a file the image of pairs and of nothing else;
* `laidOut_layout`: a layout is such a file.
-/

namespace MessageCatalog.Image

/-- A range of offsets. -/
structure Extent where
  /-- The first offset. -/
  offset : Nat
  /-- The number of offsets. -/
  length : Nat
  deriving DecidableEq, Repr

/-- The offset behind a range. -/
def Extent.stop (extent : Extent) : Nat :=
  extent.offset + extent.length

/-- The ranges stand one after the other, from `start` up to `stop`. -/
def Tiles : (start : Nat) → List Extent → (stop : Nat) → Prop
  | start, [], stop => start = stop
  | start, extent :: extents, stop => extent.offset = start ∧ Tiles extent.stop extents stop

namespace Tiles

variable {start middle stop : Nat} {extents more : List Extent}

theorem append (h : Tiles start extents middle) (hmore : Tiles middle more stop) :
    Tiles start (extents ++ more) stop := by
  induction extents generalizing start with
  | nil => exact h ▸ hmore
  | cons extent extents ih => exact ⟨h.1, ih h.2⟩

theorem le_offset (h : Tiles start extents stop) : ∀ extent ∈ extents, start ≤ extent.offset := by
  induction extents generalizing start with
  | nil => exact nofun
  | cons extent extents ih =>
    obtain ⟨rfl, h⟩ := h
    refine List.forall_mem_cons.2 ⟨Nat.le_refl _, fun other hother => ?_⟩
    exact Nat.le_trans (Nat.le_add_right ..) (ih h other hother)

/-- A range stops before all later ones start. -/
theorem disjoint (h : Tiles start extents stop) :
    extents.Pairwise fun first second => first.stop ≤ second.offset := by
  induction extents generalizing start with
  | nil => exact .nil
  | cons extent extents ih => exact .cons h.2.le_offset (ih h.2)

/-- Every offset is in one of the ranges. -/
theorem covers (h : Tiles start extents stop) {offset : Nat} (hstart : start ≤ offset)
    (hstop : offset < stop) :
    ∃ extent ∈ extents, extent.offset ≤ offset ∧ offset < extent.stop := by
  induction extents generalizing start with
  | nil =>
    obtain rfl : start = stop := h
    exact absurd hstop (Nat.not_lt.2 hstart)
  | cons extent extents ih =>
    obtain ⟨rfl, h⟩ := h
    rcases Nat.lt_or_ge offset extent.stop with hlt | hle
    · exact ⟨extent, List.mem_cons_self, hstart, hlt⟩
    · obtain ⟨other, hother, hin⟩ := ih h hle
      exact ⟨other, List.mem_cons_of_mem _ hother, hin⟩

end Tiles

/-! ### What a file says -/

/-- The range of the string that the descriptor at an offset describes, with its terminator. -/
def stringExtent (file : Bytes) (place : Nat) : Extent where
  offset := (wordAt file (place + 4)).toNat
  length := (wordAt file place).toNat + 1

/-- The ranges of the strings that the descriptors of a table describe. -/
def stringExtents (file : Bytes) (table count : Nat) : List Extent :=
  (List.range count).map fun index => stringExtent file (table + descriptorLength * index)

/-- The ranges of the parts of a file: the header, the two tables, the msgids and the msgstrs. -/
def extents (file : Bytes) : List Extent :=
  let count := (wordAt file 8).toNat
  let msgids := (wordAt file 12).toNat
  let msgstrs := (wordAt file 16).toNat
  [⟨0, headerLength⟩, ⟨msgids, descriptorLength * count⟩, ⟨msgstrs, descriptorLength * count⟩] ++
    stringExtents file msgids count ++ stringExtents file msgstrs count

/-- Strings that stand one after the other tile what they take. -/
theorem tiles_stringExtents {file : Bytes} {table start : Nat} {strings : List Bytes}
    (h : ∀ before string after, strings = before ++ string :: after →
      Placed file (table + 8 * before.length) string (start + room before)) :
    Tiles start (stringExtents file table strings.length) (start + room strings) := by
  -- Behind the strings `before`, the strings `after` tile the rest.
  have hfrom : ∀ after before, strings = before ++ after →
      Tiles (start + room before) ((List.range' before.length after.length).map fun index =>
        stringExtent file (table + 8 * index)) (start + room strings) := by
    intro after
    induction after with
    | nil =>
      rintro before rfl
      rw [List.append_nil]
      rfl
    | cons string after ih =>
      intro before hstrings
      have hplaced := h before string after hstrings
      have hnext := ih (before ++ [string]) (by rw [hstrings, List.append_assoc]; rfl)
      rw [List.length_append, List.length_singleton, room_append] at hnext
      rw [List.length_cons, List.range'_succ, List.map_cons]
      refine ⟨hplaced.offset_eq, ?_⟩
      have hstop : (stringExtent file (table + 8 * before.length)).stop =
          start + (room before + room [string]) := by
        rw [Extent.stop, stringExtent, hplaced.offset_eq, hplaced.length_eq, Nat.add_assoc]
        rfl
      rw [hstop]
      exact hnext
  rw [stringExtents, List.range_eq_range']
  exact hfrom strings [] rfl

/-! ### Layouts -/

/-- The file is the image of the pairs, and nothing else is in it. -/
structure LaidOut (order : ByteOrder) (pairs : List (Bytes × Bytes)) (file : Bytes) : Prop where
  length : file.length = layoutLength pairs
  /-- The file is read as the pairs. -/
  read : ∃ image, Image.read file = .ok image ∧ image.order = order ∧
    image.header.revision = 0 ∧ image.header.count.toNat = pairs.length ∧
    image.header.msgids.toNat = 28 ∧ image.header.msgstrs.toNat = 28 + 8 * pairs.length ∧
    image.header.hashSize = 0 ∧ image.header.hashOffset.toNat = 28 ∧
    ∀ index pair, pairs[index]? = some pair → image.pair index = .ok pair
  /-- The strings are where their descriptors say, each with a terminator that its length does
      not count. -/
  placed : ∀ index pair, pairs[index]? = some pair →
    (∃ offset, Placed file (28 + 8 * index) pair.1 offset) ∧
      ∃ offset, Placed file (28 + 8 * pairs.length + 8 * index) pair.2 offset
  /-- The parts stand one after the other. -/
  tiles : Tiles 0 (extents file) file.length
  disjoint : (extents file).Pairwise fun first second => first.stop ≤ second.offset
  covers : ∀ offset < file.length,
    ∃ extent ∈ extents file, extent.offset ≤ offset ∧ offset < extent.stop

variable {pairs : List (Bytes × Bytes)}

theorem tiles_layout (order : ByteOrder) (hsize : layoutLength pairs < 2 ^ 32) :
    Tiles 0 (extents (layout order pairs)) (layoutLength pairs) := by
  have hmsgids := tiles_stringExtents fun _ _ _ => placed_msgid order hsize
  have hmsgstrs := tiles_stringExtents fun _ _ _ => placed_msgstr order hsize
  rw [List.length_map] at hmsgids hmsgstrs
  rw [← layoutLength_eq] at hmsgstrs
  rw [extents, wordAt_layout_count order hsize, wordAt_layout_msgids,
    wordAt_layout_msgstrs order hsize]
  refine Tiles.append (Tiles.append ⟨rfl, rfl, rfl, ?_⟩ hmsgids) hmsgstrs
  show 28 + 8 * pairs.length + 8 * pairs.length = 28 + 16 * pairs.length
  omega

/-- A layout of fewer than 2³² bytes is the image of its pairs, and of nothing else. -/
theorem laidOut_layout (order : ByteOrder) (hsize : layoutLength pairs < 2 ^ 32) :
    LaidOut order pairs (layout order pairs) := by
  have hlength := layoutLength_eq pairs
  have htiles := tiles_layout order hsize
  rw [← length_layout_eq order] at htiles
  refine ⟨length_layout_eq order pairs, ⟨ofLayout order pairs, read_layout order pairs, rfl, rfl,
    toNat_word (by omega), rfl, toNat_msgstrs (by omega), rfl, rfl, ?_⟩, ?_, htiles,
    htiles.disjoint, fun _ => htiles.covers (Nat.zero_le _)⟩
  · intro index pair h
    obtain ⟨before, after, hpairs, rfl⟩ := split_of_getElem? h
    exact pair_layout order hsize hpairs
  · intro index pair h
    obtain ⟨before, after, hpairs, rfl⟩ := split_of_getElem? h
    have hmsgids : pairs.map (·.1) = before.map (·.1) ++ pair.1 :: after.map (·.1) := by
      simp [hpairs]
    have hmsgstrs : pairs.map (·.2) = before.map (·.2) ++ pair.2 :: after.map (·.2) := by
      simp [hpairs]
    have hmsgid := placed_msgid order hsize hmsgids
    have hmsgstr := placed_msgstr order hsize hmsgstrs
    rw [List.length_map] at hmsgid hmsgstr
    exact ⟨⟨_, hmsgid⟩, _, hmsgstr⟩

end MessageCatalog.Image
