import MessageCatalog.Proofs.Catalog.Rule
import MessageCatalog.Proofs.Entry

/-!
# What an image means

The catalog of an image is told by the list of its pairs, whatever else is in the file.
Some pairs have an entry that counts for a key (`CountsFor`); the others are headers,
have no message, or are no translation. Under a key is the entry of the last pair that
counts for it. The headers are those of all blocks, one behind the other, with each name
where it came first and with the value that came last (`lastFields`).

* `HasPairs`: the pairs of an image, as they are read index by index;
* `Means`: the catalog of a list of pairs, told without reading it (`means_iff`);
* `decode_means`: a byte string has a catalog iff it is an image, and then it is the one
  that its pairs mean.
-/

namespace MessageCatalog

/-- The last element with a property. -/
def IsLast {α : Type} (P : α → Prop) (xs : List α) (x : α) : Prop :=
  ∃ before after, xs = before ++ x :: after ∧ P x ∧ ∀ later ∈ after, ¬P later

theorem not_isLast_nil {α : Type} {P : α → Prop} {x : α} : ¬IsLast P [] x := by
  rintro ⟨before, after, h, -⟩
  cases before <;> cases h

theorem IsLast.mem {α : Type} {P : α → Prop} {xs : List α} {x : α} (h : IsLast P xs x) :
    x ∈ xs := by
  obtain ⟨before, after, rfl, -⟩ := h
  exact List.mem_append_right _ List.mem_cons_self

/-- One more element is the last one iff it has the property. -/
theorem isLast_append_singleton_iff {α : Type} {P : α → Prop} {xs : List α} {x y : α} :
    IsLast P (xs ++ [y]) x ↔ P y ∧ x = y ∨ ¬P y ∧ IsLast P xs x := by
  constructor
  · rintro ⟨before, after, h, hx, hafter⟩
    rcases List.eq_nil_or_concat after with rfl | ⟨more, z, rfl⟩
    · cases (List.append_inj' h rfl).2
      exact .inl ⟨hx, rfl⟩
    · rw [List.concat_eq_append, ← List.cons_append, ← List.append_assoc] at h
      obtain ⟨rfl, hz⟩ := List.append_inj' h rfl
      cases hz
      exact .inr ⟨hafter y (by simp), before, more, rfl, hx,
        fun later hlater => hafter later (by simp [hlater])⟩
  · rintro (⟨hy, rfl⟩ | ⟨hy, before, after, rfl, hx, hafter⟩)
    · exact ⟨xs, [], rfl, hy, nofun⟩
    · refine ⟨before, after ++ [y], by simp, hx, fun later hlater => ?_⟩
      rcases List.mem_append.1 hlater with hlater | hlater
      · exact hafter later hlater
      · rwa [List.mem_singleton.1 hlater]

namespace Catalog

/-! ### Pairs -/

/-- A byte string is an image of these pairs: they are what is read at its indices. -/
def HasPairs (bytes : Bytes) (pairs : List (Bytes × Bytes)) : Prop :=
  ∃ image, Image.read bytes = .ok image ∧
    (List.range image.count).map image.pair = pairs.map Except.ok

/-- A reading without a fault has a pair for each index. -/
theorem readingFrom_eq_iff {image : Image} {index count : Nat} {pairs : List (Bytes × Bytes)} :
    image.readingFrom index count = ⟨pairs, none⟩ ↔
      (List.range' index count).map image.pair = pairs.map Except.ok := by
  induction count generalizing index pairs with
  | zero => simp [Image.readingFrom, eq_comm]
  | succ count ih =>
    rw [Image.readingFrom, List.range'_succ, List.map_cons]
    cases pairs with
    | nil => cases image.pair index <;> simp
    | cons pair pairs =>
      rw [List.map_cons, List.cons.injEq, ← ih]
      cases image.pair index with
      | error fault => simp
      | ok first =>
        cases image.readingFrom (index + 1) count
        simp [and_assoc]

theorem reading_eq_iff {image : Image} {pairs : List (Bytes × Bytes)} :
    image.reading = ⟨pairs, none⟩ ↔
      (List.range image.count).map image.pair = pairs.map Except.ok := by
  rw [List.range_eq_range', ← readingFrom_eq_iff]
  rfl

/-- A byte string has a catalog iff it is an image of pairs, and it is the catalog of their
    records. -/
theorem decode_eq_ok_iff_hasPairs {bytes : Bytes} {c : Catalog} :
    (decode bytes).value = .ok c ↔
      ∃ pairs, HasPairs bytes pairs ∧ c = ofRecords (recordsOf pairs) := by
  rw [decode_eq_ok_iff]
  constructor
  · rintro ⟨image, hread, hfault, hc⟩
    have hreading : image.reading = ⟨image.reading.pairs, none⟩ := by
      rw [← hfault]
    exact ⟨_, ⟨image, hread, reading_eq_iff.1 hreading⟩, hc⟩
  · rintro ⟨pairs, ⟨image, hread, hpairs⟩, hc⟩
    have hreading := reading_eq_iff.2 hpairs
    refine ⟨image, hread, ?_, ?_⟩
    · rw [hreading]
    · rw [hreading, hc]

/-! ### Meaning -/

/-- A pair whose entry counts for a key. -/
structure CountsFor (key : Bytes) (pair : Bytes × Bytes) : Prop where
  /-- It is no block of headers. -/
  msgid : pair.1 ≠ []
  /-- It has a message. -/
  message : (Entry.ofStrings pair.1 pair.2).singular ≠ []
  /-- It is a translation. -/
  text : ∃ b ∈ pair.2, b ≠ formSeparator
  /-- The key is its own. -/
  key : (Entry.ofStrings pair.1 pair.2).key = key

/-- The headers in the blocks among pairs, one block behind the other. -/
def fieldsOf (pairs : List (Bytes × Bytes)) : List (String × String) :=
  pairs.flatMap fun pair =>
    if pair.1 = [] then parseBlock (String.ofList (Utf8.decodeLossy pair.2)) else []

/-- Each name where it comes first, with the value that comes last. -/
def lastFields (fields : List (String × String)) : List (String × String) :=
  (fields.map (·.1)).eraseDups.filterMap fun name =>
    (fields.reverse.lookup name).map fun value => (name, value)

/-- The catalog that pairs mean. -/
structure Means (pairs : List (Bytes × Bytes)) (c : Catalog) : Prop where
  /-- Under a key is the entry of the last pair that counts for it. -/
  entries : ∀ key e, c.entries.find? key = some e ↔
    ∃ pair, IsLast (CountsFor key) pairs pair ∧ e = Entry.ofStrings pair.1 pair.2
  /-- The headers are those of all blocks. -/
  headers : c.headers.fields = lastFields (fieldsOf pairs)
  /-- The rule is not compiled yet. -/
  compiled : c.compiled = none

/-! ### Entries -/

theorem CountsFor.hasMessage {key : Bytes} {pair : Bytes × Bytes} (h : CountsFor key pair) :
    (Entry.ofStrings pair.1 pair.2).hasMessage = true := by
  simpa [Entry.hasMessage] using h.message

/-- The record of a pair whose entry counts for a key. -/
theorem ofPair_of_countsFor {key : Bytes} {pair : Bytes × Bytes} (h : CountsFor key pair) :
    Record.ofPair pair.1 pair.2 = .entry (Entry.ofStrings pair.1 pair.2) := by
  have htext : (Entry.ofStrings pair.1 pair.2).isUntranslated = false :=
    Entry.isUntranslated_ofStrings_eq_false_iff.2 h.text
  rw [Record.ofPair, if_neg h.msgid]
  simp only [h.hasMessage, htext]
  rfl

/-- Any other record leaves the key alone. -/
theorem find?_absorb_of_not_countsFor {key : Bytes} {pair : Bytes × Bytes}
    (h : ¬CountsFor key pair) (c : Catalog) :
    (c.absorb (.ofPair pair.1 pair.2)).entries.find? key = c.entries.find? key := by
  rw [Record.ofPair]
  split
  case isTrue => rw [absorb, entries_setHeaders]
  case isFalse hmsgid =>
    dsimp only
    split
    · rfl
    case isFalse hmessage =>
      split
      · rfl
      case isFalse htext =>
        have hkey : key ≠ (Entry.ofStrings pair.1 pair.2).key := fun heq => h {
          msgid := hmsgid
          message := by simpa [Entry.hasMessage] using hmessage
          text := Entry.isUntranslated_ofStrings_eq_false_iff.1 (by simpa using htext)
          key := heq.symm }
        rw [absorb, find?_entries_add, if_neg fun hadded => hkey hadded.1]

theorem find?_absorb_of_countsFor {key : Bytes} {pair : Bytes × Bytes} (h : CountsFor key pair)
    (c : Catalog) :
    (c.absorb (.ofPair pair.1 pair.2)).entries.find? key =
      some (Entry.ofStrings pair.1 pair.2) := by
  rw [ofPair_of_countsFor h, absorb, find?_entries_add, if_pos ⟨h.key.symm, h.hasMessage⟩]

theorem ofRecords_append_singleton (pairs : List (Bytes × Bytes)) (pair : Bytes × Bytes) :
    ofRecords (recordsOf (pairs ++ [pair])) =
      (ofRecords (recordsOf pairs)).absorb (.ofPair pair.1 pair.2) := by
  simp only [ofRecords, recordsOf, List.map_append, List.foldl_append, List.map_cons, List.map_nil,
    List.foldl_cons, List.foldl_nil]

/-- Under a key is the entry of the last pair that counts for it. -/
theorem find?_ofRecords_iff {pairs : List (Bytes × Bytes)} {key : Bytes} {e : Entry} :
    (ofRecords (recordsOf pairs)).entries.find? key = some e ↔
      ∃ pair, IsLast (CountsFor key) pairs pair ∧ e = Entry.ofStrings pair.1 pair.2 := by
  induction pairs using List.reverseRecOn with
  | nil => exact ⟨nofun, fun ⟨_, h, _⟩ => absurd h not_isLast_nil⟩
  | append_singleton pairs last ih =>
    rw [ofRecords_append_singleton]
    by_cases hlast : CountsFor key last
    · rw [find?_absorb_of_countsFor hlast, Option.some.injEq, eq_comm]
      simp [isLast_append_singleton_iff, hlast]
    · rw [find?_absorb_of_not_countsFor hlast, ih]
      simp [isLast_append_singleton_iff, hlast]

/-! ### Headers -/

theorem headers_absorb (c : Catalog) (pair : Bytes × Bytes) :
    (c.absorb (.ofPair pair.1 pair.2)).headers = c.headers.setAll (fieldsOf [pair]) := by
  rw [fieldsOf, List.flatMap_singleton, Record.ofPair]
  split
  · exact headers_setHeaders ..
  · dsimp only
    split
    · rfl
    · split
      · rfl
      · exact headers_add ..

/-- The headers of all blocks are set in order. -/
theorem headers_ofRecords (pairs : List (Bytes × Bytes)) :
    (ofRecords (recordsOf pairs)).headers = Headers.empty.setAll (fieldsOf pairs) := by
  induction pairs using List.reverseRecOn with
  | nil => rfl
  | append_singleton pairs pair ih =>
    rw [ofRecords_append_singleton, headers_absorb, ih, Headers.setAll_setAll, fieldsOf, fieldsOf,
      fieldsOf, ← List.flatMap_append]

/-- Headers set in order are the last ones under their names. -/
theorem fields_setAll_empty (fields : List (String × String)) :
    (Headers.empty.setAll fields).fields = lastFields fields := by
  have hnodup := Headers.nodup_names_setAll (h := Headers.empty) List.nodup_nil fields
  rw [Headers.fields_eq hnodup, Headers.names_setAll_empty, lastFields]
  refine List.filterMap_congr fun name _ => ?_
  rw [Headers.get?_setAll]
  exact congrArg _ Option.or_none

example : lastFields [("a", "1"), ("b", "2"), ("a", "3")] = [("a", "3"), ("b", "2")] := by decide

/-! ### Catalogs -/

/-- The catalog of the records of pairs is the one that the pairs mean. -/
theorem means_iff {pairs : List (Bytes × Bytes)} {c : Catalog} :
    Means pairs c ↔ c = ofRecords (recordsOf pairs) := by
  have hmeans : Means pairs (ofRecords (recordsOf pairs)) := {
    entries := fun _ _ => find?_ofRecords_iff
    headers := by rw [headers_ofRecords, fields_setAll_empty]
    compiled := compiled_ofRecords _ }
  constructor
  · intro h
    have hentries : c.entries = (ofRecords (recordsOf pairs)).entries := by
      refine KeyMap.ext fun key => Option.ext fun e => ?_
      rw [h.entries, hmeans.entries]
    have hheaders : c.headers = (ofRecords (recordsOf pairs)).headers :=
      congrArg Headers.mk (h.headers.trans hmeans.headers.symm)
    have hcompiled := h.compiled.trans hmeans.compiled.symm
    cases c
    cases hentries
    cases hheaders
    cases hcompiled
    rfl
  · rintro rfl
    exact hmeans

/-- A byte string has a catalog iff it is an image, and it is the one that its pairs
    mean. So files with the same pairs have the same catalog, and every entry of a catalog
    that was decoded has a message and a form with a text. -/
theorem decode_means (bytes : Bytes) :
    (∀ c, (decode bytes).value = .ok c ↔ ∃ pairs, HasPairs bytes pairs ∧ Means pairs c) ∧
      (∀ bytes' pairs, HasPairs bytes pairs → HasPairs bytes' pairs →
        ∃ c, (decode bytes).value = .ok c ∧ (decode bytes').value = .ok c) ∧
      ∀ c, (decode bytes).value = .ok c → ∀ key e, c.entries.find? key = some e →
        e.singular ≠ [] ∧ ∃ form ∈ e.forms, form ≠ [] := by
  have hiff : ∀ bytes c, (decode bytes).value = .ok c ↔
      ∃ pairs, HasPairs bytes pairs ∧ Means pairs c := by
    simp only [means_iff, decode_eq_ok_iff_hasPairs, implies_true]
  refine ⟨hiff bytes, fun bytes' pairs h h' => ?_, fun c hc key e he => ?_⟩
  · have hmeans : Means pairs (ofRecords (recordsOf pairs)) := means_iff.2 rfl
    exact ⟨_, (hiff bytes _).2 ⟨pairs, h, hmeans⟩, (hiff bytes' _).2 ⟨pairs, h', hmeans⟩⟩
  · obtain ⟨pairs, -, hmeans⟩ := (hiff bytes c).1 hc
    obtain ⟨pair, ⟨-, -, -, hpair, -⟩, rfl⟩ := (hmeans.entries key e).1 he
    refine ⟨hpair.message, ?_⟩
    rw [← Entry.isUntranslated_eq_false_iff, Entry.isUntranslated_ofStrings_eq_false_iff]
    exact hpair.text

end Catalog

end MessageCatalog
