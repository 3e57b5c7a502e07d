import MessageCatalog.Proofs.Catalog.RoundTrip

/-!
# Entries at their addresses

A catalog is asked for a message in a context, and looks under a key that is one byte string. Keys
of addresses tell both (`Entry.eq_of_entryKey_eq`), so two questions meet under one key only if
they are the same question, and no context is not the empty context. What is found answers the
question if the entry is at an address, too. Entries that were read from an image are, for a msgid
is split at its first separator, and no operation but adding an entry brings in others.

* `Collected`: the catalogs that come from images and from entries at addresses;
* `Collected.isAddress`: all their entries are at addresses;
* `lookups_apart`: what is found at an address belongs there, and what is done at one address does
  not show at any other.
-/

namespace MessageCatalog.Catalog

/-- The catalogs that operations lead to from those of images, if no entry is added whose key does
    not tell its message and its context. -/
inductive Collected : Catalog → Prop
  | empty : Collected empty
  | decode {bytes : Bytes} {c : Catalog} : (decode bytes).value = .ok c → Collected c
  | add {c : Catalog} {e : Entry} : IsAddress e.singular e.context → Collected c →
      Collected (c.add e)
  | remove {c : Catalog} (singular : Bytes) (context : Option Bytes) :
      Collected c → Collected (c.remove singular context)
  | setHeader {c : Catalog} (name value : String) :
      Collected c → Collected (c.setHeader name value)
  | merge {c guest : Catalog} : Collected c → Collected guest → Collected (c.merge guest)
  /-- What a lookup leaves that needs the plural rule. -/
  | lookup {c : Catalog} : Collected c → Collected c.rule.value.2

namespace Collected

variable {c : Catalog}

theorem reachable (h : Collected c) : Reachable c := by
  induction h with
  | empty => exact .empty
  | decode hdecode => exact reachable_of_decode hdecode
  | add _ _ ih => exact ih.add _
  | remove singular context _ ih => exact ih.remove singular context
  | setHeader name value _ ih => exact ih.setHeader name value
  | merge _ _ ih ihguest => exact ih.merge ihguest
  | lookup _ ih => exact ih.lookup

/-- All entries are at addresses: those of images from the start, the others as they are added. -/
theorem isAddress (h : Collected c) :
    ∀ p ∈ c.entries.toList, IsAddress p.2.singular p.2.context := by
  induction h with
  | empty => exact nofun
  | decode hdecode => exact fun p hp => ((settled_of_decode hdecode).entries p hp).1.isAddress
  | @add c _ he _ ih =>
    intro p hp
    rcases mem_entries_add c hp with ⟨rfl, -⟩ | hp
    · exact he
    · exact ih p hp
  | remove singular context _ ih => exact fun p hp => ih p (KeyMap.mem_erase hp)
  | setHeader name value _ ih => exact ih
  | merge _ _ ih ihguest => exact fun p hp => (KeyMap.mem_union hp).elim (ih p) (ihguest p)
  | @lookup c _ ih => exact (entries_rule c).symm ▸ ih

/-- What is found at an address belongs there. -/
theorem eq_of_find? (h : Collected c) {singular : Bytes} {context : Option Bytes} {e : Entry}
    (haddress : IsAddress singular context) (hfind : c.find? singular context = some e) :
    e.singular = singular ∧ e.context = context := by
  have hmem := KeyMap.find?_eq_some_iff.1 hfind
  have hkey : entryKey singular context = e.key := h.reachable.sound.keyed _ hmem
  exact Entry.eq_of_entryKey_eq (h.isAddress _ hmem) haddress hkey.symm

end Collected

/-- Adding an entry changes what is found where its key is asked for, if it has a message. -/
theorem find?_add (c : Catalog) (e : Entry) (singular : Bytes) (context : Option Bytes) :
    (c.add e).find? singular context =
      if entryKey singular context = e.key ∧ e.hasMessage = true then some e
      else c.find? singular context :=
  find?_entries_add ..

/-- Removing an entry leaves nothing where its key is asked for. -/
theorem find?_remove (c : Catalog) (singular singular' : Bytes) (context context' : Option Bytes) :
    (c.remove singular context).find? singular' context' =
      if entryKey singular' context' = entryKey singular context then none
      else c.find? singular' context' :=
  KeyMap.find?_erase ..

/-- What a catalog of images and of entries at addresses has at an address is an entry of this
    message in this context. Adding an entry there, or removing it, has an effect there and at no
    other address, whether the other one has another message, another context, or none instead of
    an empty one. -/
theorem lookups_apart {c : Catalog} (hc : Collected c) {singular : Bytes} {context : Option Bytes}
    (h : IsAddress singular context) :
    (∀ e, c.find? singular context = some e → e.singular = singular ∧ e.context = context) ∧
    (∀ plural forms, singular ≠ [] → (c.add ⟨singular, plural, context, forms⟩).find?
      singular context = some ⟨singular, plural, context, forms⟩) ∧
    (c.remove singular context).find? singular context = none ∧
    ∀ singular' context', IsAddress singular' context' →
      (singular', context') ≠ (singular, context) →
      (∀ plural forms, (c.add ⟨singular, plural, context, forms⟩).find? singular' context' =
        c.find? singular' context') ∧
      (c.remove singular context).find? singular' context' = c.find? singular' context' := by
  refine ⟨fun e hfind => hc.eq_of_find? h hfind, fun plural forms hsingular => ?_, ?_,
    fun singular' context' h' hne => ?_⟩
  · rw [find?_add, if_pos ⟨rfl, by simpa [Entry.hasMessage] using hsingular⟩]
  · rw [find?_remove, if_pos rfl]
  · have hkey : entryKey singular' context' ≠ entryKey singular context := fun hkey =>
      hne (Prod.ext_iff.2 (Entry.eq_of_entryKey_eq h' h hkey))
    exact ⟨fun plural forms => by rw [find?_add, if_neg fun hadded => hkey hadded.1],
      by rw [find?_remove, if_neg hkey]⟩

/-- An image of one message, which is a separator and a letter, in the empty context. -/
def lookalikeImage : Bytes :=
  [0xDE, 0x12, 0x04, 0x95, 0, 0, 0, 0, 1, 0, 0, 0, 28, 0, 0, 0, 36, 0, 0, 0, 0, 0, 0, 0,
    28, 0, 0, 0, 3, 0, 0, 0, 44, 0, 0, 0, 1, 0, 0, 0, 48, 0, 0, 0,
    0x04, 0x04, 0x72, 0, 0x78, 0]

/-- The catalog of that image, with the letter as a message in the empty context and in none: the
    three keys differ by separators only. -/
def lookalikes : Catalog :=
  ((empty.add ⟨[0x04, 0x72], none, some [], [[0x78]]⟩).add ⟨[0x72], none, some [], [[0x79]]⟩).add
    ⟨[0x72], none, none, [[0x7A]]⟩

theorem collected_lookalikes : Collected lookalikes :=
  have hdecode : (decode lookalikeImage).value =
      .ok (empty.add ⟨[0x04, 0x72], none, some [], [[0x78]]⟩) := rfl
  .add (by decide) (.add (by decide) (.decode hdecode))

theorem lookups_apart_lookalikes : Collected lookalikes ∧ IsAddress [0x72] none ∧
    IsAddress [0x72] (some []) ∧ IsAddress [0x04, 0x72] (some []) ∧
    lookalikes.find? [0x72] none = some ⟨[0x72], none, none, [[0x7A]]⟩ ∧
    (lookalikes.remove [0x72] none).find? [0x72] none = none ∧
    (lookalikes.remove [0x72] none).find? [0x72] (some []) =
      some ⟨[0x72], none, some [], [[0x79]]⟩ ∧
    (lookalikes.remove [0x72] none).find? [0x04, 0x72] (some []) =
      some ⟨[0x04, 0x72], none, some [], [[0x78]]⟩ := by
  have hnone : IsAddress [0x72] none := by decide
  have hempty : IsAddress [0x72] (some []) := by decide
  have hseparator : IsAddress [0x04, 0x72] (some []) := by decide
  obtain ⟨-, -, hremoved, hothers⟩ := lookups_apart collected_lookalikes hnone
  refine ⟨collected_lookalikes, hnone, hempty, hseparator, by decide, hremoved, ?_, ?_⟩
  · exact (hothers [0x72] (some []) hempty (by decide)).2.trans (by decide)
  · exact (hothers [0x04, 0x72] (some []) hseparator (by decide)).2.trans (by decide)

end MessageCatalog.Catalog
