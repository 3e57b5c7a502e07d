import MessageCatalog.Catalog
import MessageCatalog.Proofs.KeyMap

/-!
# Merged catalogs

A merge writes the entries of the guest into a catalog, one after the other. No two of them have
one key, so they may come in any order; the catalog has a guest's entry wherever the guest has one,
and keeps its own elsewhere. It also keeps its headers, and the plural rule that it may have
compiled from them. This tells the merged catalog (`isRightUnion_iff`), and the laws of merging
follow from what is under each key.

* `takeOver`: the entries of a guest written in an order of their own;
* `IsRightUnion`: what is to be seen of two catalogs that were merged;
* `merge_laws`: a merge is the right-biased union, which is associative and idempotent.
-/

namespace MessageCatalog.Catalog

/-- Writes entries under their keys, in order. -/
def takeOver (c : Catalog) (rows : List (Bytes × Entry)) : Catalog :=
  { c with entries := rows.foldl (fun entries row => entries.insert row.1 row.2) c.entries }

/-- A merge takes over the associations of the guest, in whatever order they come. -/
theorem takeOver_eq_merge {guest : Catalog} {rows : List (Bytes × Entry)}
    (h : rows.Perm guest.entries.toList) (c : Catalog) : c.takeOver rows = c.merge guest := by
  rw [takeOver, KeyMap.foldl_insert_perm h, merge]

/-- The catalog `u` has the entries of `a` and `b`, those of `b` in preference, and is like `a` in
    all else. -/
structure IsRightUnion (a b u : Catalog) : Prop where
  /-- Under each key is the entry of `b`, or else that of `a`. -/
  entries : ∀ key, u.entries.find? key = (b.entries.find? key).or (a.entries.find? key)
  /-- There is an entry for each key of either. -/
  size : u.size = (a.entries.keys ∪ b.entries.keys).card
  headers : u.headers = a.headers
  header : ∀ name, u.header? name = a.header? name
  /-- The rule is compiled iff that of `a` is. -/
  compiled : u.compiled = a.compiled
  /-- The rule is that of `a`. -/
  rule : u.rule.value.1 = a.rule.value.1
  /-- A fault of the headers is reported iff `a` reports it. -/
  log : u.rule.log = a.rule.log

section Merge

variable (a b c : Catalog)

theorem headers_merge : (a.merge b).headers = a.headers :=
  rfl

theorem compiled_merge : (a.merge b).compiled = a.compiled :=
  rfl

/-- The plural rule, and what is reported of it, do not depend on the entries. -/
theorem rule_merge :
    (a.merge b).rule.value.1 = a.rule.value.1 ∧ (a.merge b).rule.log = a.rule.log := by
  rw [rule, rule, compiled_merge]
  cases a.compiled with
  | some rule => exact ⟨rfl, rfl⟩
  | none => exact ⟨rfl, rfl⟩

theorem size_merge : (a.merge b).size = (a.entries.keys ∪ b.entries.keys).card := by
  rw [← KeyMap.keys_union, KeyMap.card_keys]
  rfl

theorem isRightUnion_merge : IsRightUnion a b (a.merge b) where
  entries key := KeyMap.find?_union a.entries b.entries key
  size := size_merge a b
  headers := headers_merge a b
  header _ := rfl
  compiled := compiled_merge a b
  rule := (rule_merge a b).1
  log := (rule_merge a b).2

/-- What is to be seen of a merged catalog tells it. -/
theorem isRightUnion_iff {u : Catalog} : IsRightUnion a b u ↔ u = a.merge b := by
  constructor
  · intro h
    obtain ⟨entries, headers, compiled⟩ := u
    have hentries : entries = (a.merge b).entries := KeyMap.ext fun key => by
      rw [(isRightUnion_merge a b).entries]
      exact h.entries key
    rw [hentries, show headers = a.headers from h.headers,
      show compiled = a.compiled from h.compiled]
    rfl
  · rintro rfl
    exact isRightUnion_merge a b

theorem merge_assoc : (a.merge b).merge c = a.merge (b.merge c) :=
  congrArg (fun entries => { a with entries })
    (KeyMap.union_assoc a.entries b.entries c.entries)

theorem merge_self : a.merge a = a :=
  congrArg (fun entries => { a with entries }) (KeyMap.union_self a.entries)

theorem merge_empty : a.merge empty = a :=
  congrArg (fun entries => { a with entries }) (KeyMap.union_empty a.entries)

end Merge

/-- Merging is the union of the entries, those of the guest in preference, whatever the order in
    which these are gone through, and changes nothing else. It groups as one likes, and nothing
    comes of merging a catalog with itself or with the empty one. -/
theorem merge_laws (a b c : Catalog) :
    (∀ rows : List (Bytes × Entry), rows.Perm b.entries.toList → a.takeOver rows = a.merge b) ∧
      (∀ u, u = a.merge b ↔ IsRightUnion a b u) ∧
      ((a.merge b).merge c).entries = (a.merge (b.merge c)).entries ∧
      a.merge a = a ∧ a.merge empty = a :=
  ⟨fun _ hrows => takeOver_eq_merge hrows a, fun _ => (isRightUnion_iff a b).symm,
    congrArg entries (merge_assoc a b c), merge_self a, merge_empty a⟩

/-- A catalog with a rule of its own, and two messages. -/
def drinks : Catalog :=
  ((empty.setHeader pluralFormsHeader "nplurals=1; plural=0;").add
    ⟨[0x61], none, none, [[0x62]]⟩).add ⟨[0x63], none, none, [[0x64]]⟩

/-- Another translation of the first message, and the same message in a context. -/
def revisedDrinks : Catalog :=
  (empty.add ⟨[0x61], none, none, [[0x65]]⟩).add ⟨[0x61], none, some [], [[0x66]]⟩

/-- The revision may be taken over from its last entry to its first. -/
theorem merge_laws_drinks :
    revisedDrinks.entries.toList.reverse ≠ revisedDrinks.entries.toList ∧
      revisedDrinks.entries.toList.reverse.Perm revisedDrinks.entries.toList ∧
      drinks.takeOver revisedDrinks.entries.toList.reverse = drinks.merge revisedDrinks ∧
      (drinks.merge revisedDrinks).find? [0x61] none = some ⟨[0x61], none, none, [[0x65]]⟩ ∧
      (drinks.merge revisedDrinks).find? [0x63] none = some ⟨[0x63], none, none, [[0x64]]⟩ ∧
      (drinks.merge revisedDrinks).size = 3 ∧
      (drinks.merge revisedDrinks).headers = drinks.headers := by
  obtain ⟨horder, hunion, -⟩ := merge_laws drinks revisedDrinks empty
  have hmerge := (hunion _).1 rfl
  refine ⟨by decide, List.reverse_perm _, horder _ (List.reverse_perm _), ?_, ?_, ?_,
    hmerge.headers⟩
  · exact (hmerge.entries _).trans (by decide)
  · exact (hmerge.entries _).trans (by decide)
  · exact hmerge.size.trans (by decide)

end MessageCatalog.Catalog
