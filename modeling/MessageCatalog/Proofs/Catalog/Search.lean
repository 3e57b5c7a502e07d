import Mathlib.Data.List.TakeWhile
import MessageCatalog.Proofs.Catalog.Meaning
import MessageCatalog.Proofs.Catalog.RoundTrip
import MessageCatalog.Proofs.Image.Words

/-!
# Searching a file

A reader can use the image of a catalog in place. It goes to the strings by their offsets and
takes each one to end at a zero byte, and it looks for a message by halving the table of msgids
over and over. This finds what is there if the msgids ascend. Entries are written by ascending
key, but what the file has of an entry is its msgid, which goes on with a zero byte and the
plural if there is one. If no key contains a zero byte, that is where the reader stops; and since
no byte is below it, msgids that differ are ordered as their keys are.

* `bisect_eq_some_iff`: halving finds a text among ascending ones wherever it is;
* `lt_of_beforeZero_lt`: strings are ordered as what they have before their zero bytes;
* `msgidAt_layout`: what the reader sees of the msgids of a layout;
* `search_encode`: the msgids of a file ascend, and a search in it finds the translations.
-/

namespace MessageCatalog

/-! ### Halving -/

/-- Where a key is among ascending texts, if it is between two indices. -/
def bisect (texts : Nat → Bytes) (key : Bytes) (bottom top : Nat) : Option Nat :=
  if bottom < top then
    let middle := (bottom + top) / 2
    if key < texts middle then bisect texts key bottom middle
    else if texts middle < key then bisect texts key (middle + 1) top
    else some middle
  else none
termination_by top - bottom

/-- In ascending texts, halving finds the key between the two indices, if it is there. -/
theorem bisect_eq_some_iff {texts : Nat → Bytes} {count : Nat}
    (hascending : ∀ i j, i < j → j < count → texts i < texts j) (key : Bytes)
    {bottom top index : Nat} (htop : top ≤ count) :
    bisect texts key bottom top = some index ↔
      bottom ≤ index ∧ index < top ∧ texts index = key := by
  fun_induction bisect texts key bottom top with
  | case1 bottom top hlt middle hbelow ih =>
    rw [ih (by omega)]
    constructor
    · rintro ⟨hbottom, hmiddle, hkey⟩
      exact ⟨hbottom, by omega, hkey⟩
    · rintro ⟨hbottom, hindex, rfl⟩
      refine ⟨hbottom, Nat.not_le.1 fun hmiddle => ?_, rfl⟩
      rcases Nat.eq_or_lt_of_le hmiddle with heq | hlt'
      · exact List.lt_irrefl _ (heq ▸ hbelow)
      · exact List.lt_asymm hbelow (hascending middle index hlt' (by omega))
  | case2 bottom top hlt middle _ habove ih =>
    rw [ih htop]
    constructor
    · rintro ⟨hmiddle, hindex, hkey⟩
      exact ⟨by omega, hindex, hkey⟩
    · rintro ⟨hbottom, hindex, rfl⟩
      refine ⟨Nat.not_le.1 fun hmiddle => ?_, hindex, rfl⟩
      rcases Nat.eq_or_lt_of_le hmiddle with heq | hlt'
      · exact List.lt_irrefl _ (heq ▸ habove)
      · exact List.lt_asymm habove (hascending index middle hlt' (by omega))
  | case3 bottom top hlt middle hbelow habove =>
    have hkey : texts middle = key := by
      by_contra hne
      exact habove (KeyMap.lt_of_not_lt hbelow fun heq => hne heq.symm)
    rw [Option.some.injEq]
    constructor
    · rintro rfl
      exact ⟨by omega, by omega, hkey⟩
    · rintro ⟨hbottom, hindex, hindexKey⟩
      -- Ascending texts are all different.
      rcases Nat.lt_trichotomy middle index with hlt' | heq | hlt'
      · have hless := hascending middle index hlt' (by omega)
        rw [hkey, hindexKey] at hless
        exact absurd hless (List.lt_irrefl _)
      · exact heq
      · have hless := hascending index middle hlt' (by omega)
        rw [hkey, hindexKey] at hless
        exact absurd hless (List.lt_irrefl _)
  | case4 bottom top hlt =>
    constructor
    · nofun
    · rintro ⟨hbottom, hindex, -⟩
      omega

/-! ### Zero bytes -/

/-- What a reader sees of a string that it takes to end at a zero byte. -/
def beforeZero (bytes : Bytes) : Bytes :=
  bytes.takeWhile (· != formSeparator)

theorem beforeZero_append_zero (string rest : Bytes) :
    beforeZero (string ++ formSeparator :: rest) = beforeZero string := by
  induction string with
  | nil => rfl
  | cons b string ih =>
    rw [beforeZero, beforeZero, List.cons_append, List.takeWhile_cons, List.takeWhile_cons]
    rw [beforeZero, beforeZero] at ih
    rw [ih]

theorem beforeZero_eq_self {string : Bytes} (h : formSeparator ∉ string) :
    beforeZero string = string := by
  rw [beforeZero, List.takeWhile_eq_self_iff]
  intro b hb
  exact bne_iff_ne.2 fun heq => h (heq ▸ hb)

/-- Strings are ordered as what they have before their first zero bytes, as no byte is below
    zero. -/
theorem lt_of_beforeZero_lt {a b : Bytes} (h : beforeZero a < beforeZero b) : a < b := by
  induction a generalizing b with
  | nil =>
    cases b with
    | nil => exact absurd h (List.lt_irrefl _)
    | cons y b => exact List.nil_lt_cons ..
  | cons x a ih =>
    cases b with
    | nil => exact absurd h (List.not_lt_nil _)
    | cons y b =>
      rw [beforeZero, beforeZero, List.takeWhile_cons, List.takeWhile_cons] at h
      by_cases hy : y = formSeparator
      · rw [hy] at h
        exact absurd h (List.not_lt_nil _)
      · rw [if_pos (bne_iff_ne.2 hy)] at h
        by_cases hx : x = formSeparator
        · refine List.cons_lt_cons_iff.2 (.inl ?_)
          rw [hx, UInt8.lt_iff_toNat_lt]
          exact Nat.pos_of_ne_zero fun hzero => hy (UInt8.toNat_inj.1 hzero)
        · rw [if_pos (bne_iff_ne.2 hx)] at h
          refine List.cons_lt_cons_iff.2 ((List.cons_lt_cons_iff.1 h).imp_right ?_)
          exact And.imp_right (ih ·)

/-! ### Files -/

namespace Image

/-- The msgid at an index as a reader sees it that goes to its offset. -/
def msgidAt (bytes : Bytes) (index : Nat) : Bytes :=
  beforeZero (bytes.drop (wordAt bytes ((wordAt bytes 12).toNat + 8 * index + 4)).toNat)

/-- The index at which a search in a file finds a message. -/
def search (bytes : Bytes) (key : Bytes) : Option Nat :=
  bisect (msgidAt bytes) key 0 (wordAt bytes 8).toNat

variable {pairs : List (Bytes × Bytes)}

theorem msgidAt_layout (order : ByteOrder) (hsize : layoutLength pairs < 2 ^ 32) {index : Nat}
    (hindex : index < pairs.length) :
    msgidAt (layout order pairs) index = beforeZero pairs[index].1 := by
  obtain ⟨before, pair, after, rfl, rfl⟩ := exists_split pairs hindex
  have hplaced := placed_msgid order hsize (by rw [List.map_append, List.map_cons])
  rw [List.length_map] at hplaced
  obtain ⟨front, rest, hlayout, hfront⟩ := hplaced.stands
  have hdrop : ∀ bytes : Bytes, bytes = front ++ (pair.1 ++ [0]) ++ rest →
      beforeZero (bytes.drop front.length) = beforeZero pair.1 := by
    rintro - rfl
    rw [List.append_assoc, List.append_assoc, List.drop_left]
    exact beforeZero_append_zero pair.1 rest
  rw [msgidAt, wordAt_layout_msgids, hplaced.offset_eq, ← hfront, hdrop _ hlayout,
    List.getElem_append_right (Nat.le_refl _)]
  simp only [Nat.sub_self, List.getElem_cons_zero]

/-- A search in a layout finds a key wherever a msgid has it before its zero bytes, if what
    the msgids have there ascends. -/
theorem search_layout_eq_some_iff (order : ByteOrder) (hsize : layoutLength pairs < 2 ^ 32)
    (hascending : (pairs.map fun pair => beforeZero pair.1).Pairwise (· < ·)) {key : Bytes}
    {index : Nat} :
    search (layout order pairs) key = some index ↔
      ∃ pair, pairs[index]? = some pair ∧ beforeZero pair.1 = key := by
  have hmsgid : ∀ {index} (hindex : index < pairs.length),
      msgidAt (layout order pairs) index = beforeZero pairs[index].1 := msgidAt_layout order hsize
  have hless : ∀ i j, i < j → j < pairs.length →
      msgidAt (layout order pairs) i < msgidAt (layout order pairs) j := by
    intro i j hij hj
    have hi := Nat.lt_trans hij hj
    have h := List.pairwise_iff_getElem.1 hascending i j (by rwa [List.length_map])
      (by rwa [List.length_map]) hij
    rw [List.getElem_map, List.getElem_map] at h
    rwa [hmsgid hi, hmsgid hj]
  rw [search, wordAt_layout_count order hsize, bisect_eq_some_iff hless key (Nat.le_refl _)]
  constructor
  · rintro ⟨-, hindex, hkey⟩
    exact ⟨_, List.getElem?_eq_getElem hindex, by rw [← hmsgid hindex, hkey]⟩
  · rintro ⟨pair, hpair, hkey⟩
    obtain ⟨hindex, rfl⟩ := List.getElem?_eq_some_iff.1 hpair
    exact ⟨Nat.zero_le _, hindex, by rw [hmsgid hindex, hkey]⟩

end Image

namespace Catalog

open Image

theorem hasPairs_layout {pairs : List (Bytes × Bytes)} (order : ByteOrder)
    (hsize : layoutLength pairs < 2 ^ 32) : HasPairs (layout order pairs) pairs :=
  ⟨ofLayout order pairs, read_layout order pairs, reading_eq_iff.1 (reading_layout order hsize)⟩

/-- An entry whose key has no zero byte is seen by its key. -/
theorem beforeZero_msgid {e : Entry} (h : formSeparator ∉ e.key) : beforeZero e.msgid = e.key := by
  rw [Entry.msgid]
  cases e.plural with
  | none => exact beforeZero_eq_self h
  | some plural => exact (beforeZero_append_zero e.key plural).trans (beforeZero_eq_self h)

variable {c : Catalog}

/-- The translated entries, with their keys. -/
theorem mem_translated_iff (hs : Sound c) {e : Entry} :
    e ∈ c.translated ↔ c.entries.find? e.key = some e ∧ ∃ form ∈ e.forms, form ≠ [] := by
  rw [translated, List.mem_filter, Bool.not_eq_true', Entry.isUntranslated_eq_false_iff,
    KeyMap.find?_eq_some_iff, KeyMap.values, List.mem_map]
  refine and_congr_left fun _ => ⟨?_, fun h => ⟨_, h, rfl⟩⟩
  rintro ⟨p, hp, rfl⟩
  rw [← hs.keyed p hp]
  exact hp

/-- The keys of the translated entries ascend. -/
theorem ascending_translated (hs : Sound c) : (c.translated.map Entry.key).Pairwise (· < ·) := by
  rw [List.pairwise_map]
  refine List.Pairwise.filter _ ?_
  rw [KeyMap.values, List.pairwise_map]
  refine c.entries.ascending.imp_of_mem fun hp hq hlt => ?_
  rwa [← hs.keyed _ hp, ← hs.keyed _ hq]

/-- What a reader sees of the msgids of a catalog is the empty one, and the keys of the
    translated entries. -/
theorem map_beforeZero_pairs (hs : Sound c)
    (hkeys : ∀ p ∈ c.entries.toList, formSeparator ∉ p.1) :
    c.pairs.map (fun pair => beforeZero pair.1) = [] :: c.translated.map Entry.key := by
  rw [pairs, List.map_cons, List.map_map]
  refine congrArg (_ :: ·) (List.map_congr_left fun e he => beforeZero_msgid ?_)
  have hfind := ((mem_translated_iff hs).1 he).1
  exact hkeys _ (KeyMap.find?_eq_some_iff.1 hfind)

theorem ascending_beforeZero_pairs (hs : Sound c)
    (hkeys : ∀ p ∈ c.entries.toList, formSeparator ∉ p.1) :
    (c.pairs.map fun pair => beforeZero pair.1).Pairwise (· < ·) := by
  rw [map_beforeZero_pairs hs hkeys, List.pairwise_cons]
  refine ⟨fun key hkey => ?_, ascending_translated hs⟩
  obtain ⟨e, he, rfl⟩ := List.mem_map.1 hkey
  have hfind := ((mem_translated_iff hs).1 he).1
  have hmessage := hs.message _ (KeyMap.find?_eq_some_iff.1 hfind)
  have hne : e.key ≠ [] := Entry.key_ne_nil (by simpa [Entry.hasMessage] using hmessage)
  obtain ⟨b, bytes, hkey⟩ := List.exists_cons_of_ne_nil hne
  rw [hkey]
  exact List.nil_lt_cons b bytes

/-- The pair of a catalog that a reader sees by a key is that of the translated entry under
    this key. -/
theorem exists_pair_iff (hs : Sound c) (hkeys : ∀ p ∈ c.entries.toList, formSeparator ∉ p.1)
    {key : Bytes} (hkey : key ≠ []) {pair : Bytes × Bytes} :
    pair ∈ c.pairs ∧ beforeZero pair.1 = key ↔
      ∃ e, c.entries.find? key = some e ∧ (∃ form ∈ e.forms, form ≠ []) ∧
        pair = (e.msgid, e.msgstr) := by
  have hseen : ∀ e ∈ c.translated, beforeZero e.msgid = e.key := fun e he =>
    beforeZero_msgid (hkeys _ (KeyMap.find?_eq_some_iff.1 ((mem_translated_iff hs).1 he).1))
  rw [pairs, List.mem_cons, List.mem_map]
  constructor
  · rintro ⟨rfl | ⟨e, he, rfl⟩, rfl⟩
    · exact absurd rfl hkey
    · obtain ⟨hfind, hforms⟩ := (mem_translated_iff hs).1 he
      exact ⟨e, (hseen e he).symm ▸ hfind, hforms, rfl⟩
  · rintro ⟨e, hfind, hforms, rfl⟩
    obtain rfl : key = e.key := hs.keyed _ (KeyMap.find?_eq_some_iff.1 hfind)
    have he : e ∈ c.translated := (mem_translated_iff hs).2 ⟨hfind, hforms⟩
    exact ⟨.inr ⟨e, he, rfl⟩, hseen e he⟩

/-- If no key has a zero byte, the file of a catalog can be searched in place, in both byte
    orders. The msgids that are read from it start with the empty one and ascend, and so does
    what they have before their zero bytes. A search that compares this finds the translation
    of every message that has one, by its key, and nothing for other keys. -/
theorem search_encode (hc : Reachable c) (hkeys : ∀ p ∈ c.entries.toList, formSeparator ∉ p.1)
    {order : ByteOrder} (hlength : (c.encode order).value.length ≤ 2 ^ 32 - 1) :
    let file := (c.encode order).value
    ∃ pairs, HasPairs file pairs ∧
      (pairs.map (·.1)).head? = some [] ∧ (pairs.map (·.1)).Pairwise (· < ·) ∧
      (pairs.map fun pair => beforeZero pair.1).Pairwise (· < ·) ∧
      ∀ key, key ≠ [] →
        (∀ e, c.entries.find? key = some e → (∃ form ∈ e.forms, form ≠ []) →
          ∃ index, search file key = some index ∧ pairs[index]? = some (e.msgid, e.msgstr)) ∧
        ((∀ e, c.entries.find? key = some e → ∀ form ∈ e.forms, form = []) →
          search file key = none) := by
  intro file
  have hs := hc.sound
  have hsize : layoutLength c.pairs < 2 ^ 32 := by
    rw [length_encode, imageLength] at hlength
    omega
  have hascending := ascending_beforeZero_pairs hs hkeys
  have hsearch : ∀ {key index}, search file key = some index ↔
      ∃ pair, c.pairs[index]? = some pair ∧ beforeZero pair.1 = key :=
    search_layout_eq_some_iff order hsize hascending
  refine ⟨c.pairs, hasPairs_layout order hsize, rfl, ?_, hascending, fun key hkey => ⟨?_, ?_⟩⟩
  · rw [List.pairwise_map] at hascending ⊢
    exact hascending.imp lt_of_beforeZero_lt
  · intro e hfind hforms
    obtain ⟨hmem, hseen⟩ := (exists_pair_iff hs hkeys hkey).2 ⟨e, hfind, hforms, rfl⟩
    obtain ⟨index, hindex⟩ := List.mem_iff_getElem?.1 hmem
    exact ⟨index, hsearch.2 ⟨_, hindex, hseen⟩, hindex⟩
  · intro huntranslated
    refine Option.eq_none_iff_forall_ne_some.2 fun index hindex => ?_
    obtain ⟨pair, hpair, hseen⟩ := hsearch.1 hindex
    obtain ⟨e, hfind, ⟨form, hform, hne⟩, -⟩ :=
      (exists_pair_iff hs hkeys hkey).1 ⟨List.mem_of_getElem? hpair, hseen⟩
    exact hne (huntranslated e hfind form hform)

/-- Messages of which one starts with the other: with a plural, in a context, and neither. -/
def reds : Catalog :=
  ((colors.add ⟨[0x72], some [0x01], none, [[0x52], [0x53]]⟩).add ⟨[0x72, 0x01], none, none,
    [[0x54]]⟩)

theorem search_encode_reds :
    Reachable reds ∧ (∀ p ∈ reds.entries.toList, formSeparator ∉ p.1) ∧
      (reds.encode .big).value.length ≤ 2 ^ 32 - 1 ∧
      ∃ pairs, HasPairs (reds.encode .big).value pairs ∧
        (∃ index, search (reds.encode .big).value [0x72, 0x01] = some index ∧
          pairs[index]? = some ([0x72, 0x01], [0x54])) ∧
        search (reds.encode .big).value [0x67] = none := by
  have hreachable : Reachable reds := .add _ (.add _ reachable_colors)
  have hkeys : ∀ p ∈ reds.entries.toList, formSeparator ∉ p.1 := by decide
  have hlength : (reds.encode .big).value.length ≤ 2 ^ 32 - 1 := by
    rw [length_encode]
    decide
  obtain ⟨pairs, hpairs, -, -, -, hsearch⟩ := search_encode hreachable hkeys hlength
  refine ⟨hreachable, hkeys, hlength, pairs, hpairs, ?_, ?_⟩
  · exact (hsearch [0x72, 0x01] (by decide)).1 ⟨[0x72, 0x01], none, none, [[0x54]]⟩ (by decide)
      (by decide)
  · refine (hsearch [0x67] (by decide)).2 fun e he => ?_
    obtain rfl : grey = e := Option.some.inj he
    decide

end Catalog

end MessageCatalog
