import MessageCatalog.Catalog.Reading
import MessageCatalog.Proofs.Headers
import MessageCatalog.Proofs.KeyMap
import MessageCatalog.Store

/-!
# Reachable catalogs

The catalogs that are made by the operations, from the empty one on: entries are
added and removed, headers set, other catalogs merged into it, and lookups leave
the compiled rule behind. A catalog that is read from an image is one of them, as
it is put together by the same operations.

* `Reachable.sound`: every entry is under its own key and has a message, and no
  two headers have one name;
* `reachable_of_decode`: what is decoded is reachable.
-/

namespace MessageCatalog.Catalog

/-- The catalogs that operations lead to. -/
inductive Reachable : Catalog → Prop
  | empty : Reachable empty
  | add {c : Catalog} (e : Entry) : Reachable c → Reachable (c.add e)
  | remove {c : Catalog} (singular : Bytes) (context : Option Bytes) :
      Reachable c → Reachable (c.remove singular context)
  | setHeader {c : Catalog} (name value : String) : Reachable c → Reachable (c.setHeader name value)
  | merge {c guest : Catalog} : Reachable c → Reachable guest → Reachable (c.merge guest)
  /-- What a lookup leaves that needs the plural rule. -/
  | lookup {c : Catalog} : Reachable c → Reachable c.rule.value.2

/-- What the operations keep up. -/
structure Sound (c : Catalog) : Prop where
  /-- Every entry is under its own key. -/
  keyed : ∀ p ∈ c.entries.toList, p.1 = p.2.key
  /-- Every entry has a message. -/
  message : ∀ p ∈ c.entries.toList, p.2.hasMessage = true
  /-- No name is that of two headers. -/
  names : c.headers.names.Nodup

/-! ### What operations change -/

section Changes

variable (c : Catalog)

@[simp]
theorem headers_add (e : Entry) : (c.add e).headers = c.headers := by
  rw [add]
  split <;> rfl

@[simp]
theorem compiled_add (e : Entry) : (c.add e).compiled = c.compiled := by
  rw [add]
  split <;> rfl

theorem mem_entries_add {e : Entry} {p : Bytes × Entry} (h : p ∈ (c.add e).entries.toList) :
    (p = (e.key, e) ∧ e.hasMessage = true) ∨ p ∈ c.entries.toList := by
  rw [add] at h
  split at h
  case isTrue he => exact (KeyMap.mem_insert h).imp_left fun hp => ⟨hp, he⟩
  case isFalse => exact .inr h

/-- Adding an entry with a message changes what is under its key, and nothing else. -/
theorem find?_entries_add (e : Entry) (key : Bytes) :
    (c.add e).entries.find? key =
      if key = e.key ∧ e.hasMessage = true then some e else c.entries.find? key := by
  rw [add]
  split
  case isTrue hmessage => simp only [KeyMap.find?_insert, hmessage, and_true]
  case isFalse hmessage => rw [if_neg fun h => hmessage h.2]

@[simp]
theorem entries_setHeaders (fields : List (String × String)) :
    (c.setHeaders fields).entries = c.entries := by
  induction fields generalizing c with
  | nil => rfl
  | cons field fields ih => exact ih (c.setHeader field.1 field.2)

/-- Setting headers lets go of the compiled rule iff one of them states the rule. -/
theorem compiled_setHeaders (fields : List (String × String)) :
    (c.setHeaders fields).compiled =
      if pluralFormsHeader ∈ fields.map (·.1) then none else c.compiled := by
  induction fields generalizing c with
  | nil => rfl
  | cons field fields ih =>
    show ((c.setHeader field.1 field.2).setHeaders fields).compiled = _
    rw [ih, List.map_cons]
    by_cases hrest : pluralFormsHeader ∈ fields.map (·.1)
    · rw [if_pos hrest, if_pos (List.mem_cons_of_mem _ hrest)]
    · rw [if_neg hrest, setHeader]
      simp only [List.mem_cons, hrest, or_false, eq_comm]

/-- Setting headers changes no entry. -/
theorem setHeaders_eq (fields : List (String × String)) :
    c.setHeaders fields = {
      entries := c.entries
      headers := c.headers.setAll fields
      compiled := if pluralFormsHeader ∈ fields.map (·.1) then none else c.compiled } := by
  rw [← compiled_setHeaders, ← headers_setHeaders, ← entries_setHeaders c fields]

@[simp]
theorem entries_rule : c.rule.value.2.entries = c.entries := by
  rw [rule]
  split <;> rfl

@[simp]
theorem headers_rule : c.rule.value.2.headers = c.headers := by
  rw [rule]
  split <;> rfl

end Changes

/-! ### Invariant -/

namespace Sound

variable {c guest : Catalog}

theorem empty : Sound empty where
  keyed _ hp := nomatch hp
  message _ hp := nomatch hp
  names := List.nodup_nil

theorem add (h : Sound c) (e : Entry) : Sound (c.add e) where
  keyed p hp := by
    rcases mem_entries_add c hp with ⟨rfl, -⟩ | hp
    · rfl
    · exact h.keyed p hp
  message p hp := by
    rcases mem_entries_add c hp with ⟨rfl, he⟩ | hp
    · exact he
    · exact h.message p hp
  names := headers_add c e ▸ h.names

theorem remove (h : Sound c) (singular : Bytes) (context : Option Bytes) :
    Sound (c.remove singular context) where
  keyed p hp := h.keyed p (KeyMap.mem_erase hp)
  message p hp := h.message p (KeyMap.mem_erase hp)
  names := h.names

theorem setHeader (h : Sound c) (name value : String) : Sound (c.setHeader name value) where
  keyed := h.keyed
  message := h.message
  names := Headers.nodup_names_set h.names name value

theorem merge (h : Sound c) (hguest : Sound guest) : Sound (c.merge guest) where
  keyed p hp := (KeyMap.mem_union hp).elim (h.keyed p) (hguest.keyed p)
  message p hp := (KeyMap.mem_union hp).elim (h.message p) (hguest.message p)
  names := h.names

theorem rule (h : Sound c) : Sound c.rule.value.2 where
  keyed := (entries_rule c).symm ▸ h.keyed
  message := (entries_rule c).symm ▸ h.message
  names := (headers_rule c).symm ▸ h.names

end Sound

namespace Reachable

theorem sound {c : Catalog} (h : Reachable c) : Sound c := by
  induction h with
  | empty => exact .empty
  | add e _ ih => exact ih.add e
  | remove singular context _ ih => exact ih.remove singular context
  | setHeader name value _ ih => exact ih.setHeader name value
  | merge _ _ ih ihguest => exact ih.merge ihguest
  | lookup _ ih => exact ih.rule

/-! ### Decoded catalogs -/

theorem setHeaders {c : Catalog} (h : Reachable c) (fields : List (String × String)) :
    Reachable (c.setHeaders fields) := by
  induction fields generalizing c with
  | nil => exact h
  | cons field fields ih => exact ih (h.setHeader field.1 field.2)

theorem absorb {c : Catalog} (h : Reachable c) (record : Record) : Reachable (c.absorb record) := by
  cases record with
  | headers fields => exact h.setHeaders fields
  | entry e => exact h.add e
  | empty => exact h
  | untranslated e => exact h

theorem ofRecords (records : List Record) : Reachable (ofRecords records) := by
  suffices h : ∀ c, Reachable c → Reachable (records.foldl Catalog.absorb c) from h _ .empty
  induction records with
  | nil => exact fun _ hc => hc
  | cons record records ih => exact fun c hc => ih _ (hc.absorb record)

end Reachable

/-- What decoding gives: the catalog of the records, if the image has no fault. -/
theorem decode_eq_ok_iff {bytes : Bytes} {c : Catalog} :
    (decode bytes).value = .ok c ↔ ∃ image, Image.read bytes = .ok image ∧
      image.reading.fault = none ∧ c = ofRecords (recordsOf image.reading.pairs) := by
  rw [decode]
  cases hread : Image.read bytes with
  | error fault => simp
  | ok image =>
    cases hfault : image.reading.fault with
    | some fault => simp [ofImage, hfault]
    | none => simp [ofImage, hfault, eq_comm]

theorem reachable_of_decode {bytes : Bytes} {c : Catalog} (h : (decode bytes).value = .ok c) :
    Reachable c := by
  obtain ⟨image, -, -, rfl⟩ := decode_eq_ok_iff.1 h
  exact .ofRecords _

/-- A catalog comes from what was fetched if this is its image. -/
theorem value_ofFetched_eq_ok_iff {name : String} {fetched : Except StoreError Bytes}
    {c : Catalog} : (ofFetched name fetched).value = .ok c ↔
      ∃ bytes, fetched = .ok bytes ∧ (decode bytes).value = .ok c := by
  cases fetched with
  | error reason => exact ⟨nofun, nofun⟩
  | ok bytes =>
    show (decode bytes).value.mapError ImportError.fault = .ok c ↔ _
    cases hdecode : (decode bytes).value <;> simp [Except.mapError, hdecode]

end MessageCatalog.Catalog
