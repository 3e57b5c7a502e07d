import Mathlib.Data.Finset.Card
import Mathlib.Data.List.Nodup
import MessageCatalog.KeyMap

/-!
# Associations of maps

A map has a value under a key iff this is one of its associations
(`find?_eq_some_iff`), so what holds of every association can be said of
lookups, and is kept by writing and removing keys and by unions.

* `mem_insert`, `mem_erase`, `mem_union`: where the associations of a changed map
  come from;
* `toList_insert_perm`: what a map associates after writing a key;
* `filter`: the map of the values with a property (`find?_filter`);
* `keys`: the keys of a map, as a set (`keys_union`);
* `empty_union`, `union_empty`, `union_self`, `union_assoc`: the laws of unions;
* `foldl_insert_perm`: a union does not depend on the order of its associations;
* `find?_foldl_union`: what maps united in turn have under a key.
-/

namespace MessageCatalog.KeyMap

variable {α : Type}

/-- A map has a value under a key iff it associates them. -/
theorem find?_eq_some_iff {m : KeyMap α} {key : Bytes} {value : α} :
    m.find? key = some value ↔ (key, value) ∈ m.toList := by
  obtain ⟨l, hl⟩ := m
  show l.lookup key = some value ↔ (key, value) ∈ l
  induction l with
  | nil => simp
  | cons p l ih =>
    obtain ⟨k, v⟩ := p
    rw [List.pairwise_cons] at hl
    rw [lookup_cons, List.mem_cons, Prod.mk.injEq]
    by_cases hk : key = k
    · -- The key is below all that follow, so it is none of them.
      subst hk
      have hnone := lookup_eq_none_of_lt hl.1
      rw [if_pos rfl, Option.some.injEq, eq_comm, ← ih hl.2, hnone]
      simp
    · rw [if_neg hk, ih hl.2]
      simp [hk]

theorem mem_insert {m : KeyMap α} {key : Bytes} {value : α} {p : Bytes × α}
    (h : p ∈ (m.insert key value).toList) : p = (key, value) ∨ p ∈ m.toList :=
  mem_insertList h

theorem mem_erase {m : KeyMap α} {key : Bytes} {p : Bytes × α} (h : p ∈ (m.erase key).toList) :
    p ∈ m.toList :=
  (List.mem_filter.1 h).1

theorem mem_union {m guest : KeyMap α} {p : Bytes × α} (h : p ∈ (m.union guest).toList) :
    p ∈ m.toList ∨ p ∈ guest.toList := by
  have hfind := find?_eq_some_iff.2 h
  rw [find?_union, Option.or_eq_some_iff] at hfind
  rcases hfind with hguest | ⟨_, hm⟩
  · exact .inr (find?_eq_some_iff.1 hguest)
  · exact .inl (find?_eq_some_iff.1 hm)

theorem nodup_keys (m : KeyMap α) : (m.toList.map (·.1)).Nodup := by
  rw [List.nodup_iff_pairwise_ne, List.pairwise_map]
  exact m.ascending.imp fun {a b} hlt (heq : a.1 = b.1) => List.lt_irrefl b.1 (heq ▸ hlt)

theorem mem_keys_iff {m : KeyMap α} {key : Bytes} :
    key ∈ m.toList.map (·.1) ↔ ∃ value, m.find? key = some value := by
  simp only [List.mem_map, find?_eq_some_iff, Prod.exists, exists_and_right, exists_eq_right]

/-- Of two associations of a map with the same key, both are the same. -/
theorem eq_of_mem_of_key_eq {m : KeyMap α} {p q : Bytes × α} (hp : p ∈ m.toList)
    (hq : q ∈ m.toList) (h : p.1 = q.1) : p = q := by
  have hvalue := (find?_eq_some_iff.2 hp).symm.trans (h ▸ find?_eq_some_iff.2 hq)
  exact Prod.ext h (Option.some.inj hvalue)

/-- Writing a key is removing it, and adding an association. -/
theorem toList_insert_perm (m : KeyMap α) (key : Bytes) (value : α) :
    ((key, value) :: (m.erase key).toList).Perm (m.insert key value).toList := by
  have hkey : key ∉ (m.erase key).toList.map (·.1) := by
    rw [mem_keys_iff, find?_erase, if_pos rfl]
    nofun
  have hnodup : (((key, value) :: (m.erase key).toList).map (·.1)).Nodup :=
    List.nodup_cons.2 ⟨hkey, nodup_keys _⟩
  rw [List.perm_ext_iff_of_nodup hnodup.of_map (nodup_keys _).of_map]
  intro ⟨k, v⟩
  rw [List.mem_cons, ← find?_eq_some_iff, ← find?_eq_some_iff, find?_erase, find?_insert]
  by_cases hk : k = key
  · simp [hk, eq_comm]
  · simp [hk]

/-- Different keys may be written in any order. -/
theorem insert_comm (m : KeyMap α) {key key' : Bytes} (h : key ≠ key') (value value' : α) :
    (m.insert key value).insert key' value' = (m.insert key' value').insert key value := by
  refine ext fun k => ?_
  simp only [find?_insert]
  by_cases hk : k = key
  · rw [if_neg fun hk' => h (hk.symm.trans hk'), if_pos hk, if_pos hk]
  · rw [if_neg hk, if_neg hk]

/-! ### Keys -/

/-- The keys of a map. -/
def keys (m : KeyMap α) : Finset Bytes :=
  (m.toList.map (·.1)).toFinset

theorem mem_keys {m : KeyMap α} {key : Bytes} : key ∈ m.keys ↔ (m.find? key).isSome := by
  rw [keys, List.mem_toFinset, mem_keys_iff, Option.isSome_iff_exists]

theorem card_keys (m : KeyMap α) : m.keys.card = m.size := by
  rw [keys, List.toFinset_card_of_nodup (nodup_keys m), List.length_map, size]

/-- The keys of a union are those of both maps. -/
theorem keys_union (m guest : KeyMap α) : (m.union guest).keys = m.keys ∪ guest.keys := by
  ext key
  rw [Finset.mem_union, mem_keys, mem_keys, mem_keys, find?_union, Option.isSome_or,
    Bool.or_eq_true, or_comm]

/-! ### Filters -/

/-- The associations whose value has a property. -/
def filter (m : KeyMap α) (keep : α → Bool) : KeyMap α :=
  ⟨m.toList.filter fun p => keep p.2, m.ascending.filter _⟩

theorem find?_filter (m : KeyMap α) (keep : α → Bool) (key : Bytes) :
    (m.filter keep).find? key = (m.find? key).filter keep := by
  ext value
  rw [find?_eq_some_iff, filter, List.mem_filter, ← find?_eq_some_iff, Option.filter_eq_some_iff]

theorem values_filter (m : KeyMap α) (keep : α → Bool) :
    (m.filter keep).values = m.values.filter keep := by
  rw [values, filter, values, List.filter_map]
  rfl

theorem filter_eq_self {m : KeyMap α} {keep : α → Bool}
    (h : ∀ p ∈ m.toList, keep p.2 = true) : m.filter keep = m := by
  obtain ⟨l, hl⟩ := m
  simp only [filter, List.filter_eq_self.2 h]

/-! ### Unions -/

/-- A map is the union of the empty map with it. -/
theorem empty_union (m : KeyMap α) : empty.union m = m := by
  refine ext fun key => ?_
  rw [find?_union, find?_empty, Option.or_none]

theorem union_empty (m : KeyMap α) : m.union empty = m :=
  rfl

theorem union_self (m : KeyMap α) : m.union m = m := by
  refine ext fun key => ?_
  rw [find?_union, Option.or_self]

/-- What the last of three maps has under a key counts, however they are united. -/
theorem union_assoc (m₁ m₂ m₃ : KeyMap α) : (m₁.union m₂).union m₃ = m₁.union (m₂.union m₃) := by
  refine ext fun key => ?_
  rw [find?_union, find?_union, find?_union, find?_union, Option.or_assoc]

/-- The associations of a map may be added to another one in any order. -/
theorem foldl_insert_perm {rows : List (Bytes × α)} {guest : KeyMap α}
    (h : rows.Perm guest.toList) (m : KeyMap α) :
    rows.foldl (fun m p => m.insert p.1 p.2) m = m.union guest := by
  rw [union]
  refine h.foldl_eq' (fun p hp q hq m => ?_) m
  by_cases hkey : p.1 = q.1
  · rw [eq_of_mem_of_key_eq (h.mem_iff.1 hp) (h.mem_iff.1 hq) hkey]
  · exact m.insert_comm hkey p.2 q.2

/-- Of maps that are united in turn, the last one that has a key counts. -/
theorem find?_foldl_union (maps : List (KeyMap α)) (m : KeyMap α) (key : Bytes) :
    (maps.foldl union m).find? key =
      (maps.reverse.findSome? (·.find? key)).or (m.find? key) := by
  induction maps generalizing m with
  | nil => rfl
  | cons guest maps ih =>
    rw [List.foldl_cons, ih, find?_union, List.reverse_cons, List.findSome?_append,
      List.findSome?_singleton, Option.or_assoc]

end MessageCatalog.KeyMap
