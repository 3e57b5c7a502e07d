import MessageCatalog.Bytes

/-!
# Maps from keys

A finite map from byte strings, kept as the list of its associations by
ascending key. Two maps with the same value under every key are equal (`ext`),
so nothing shows of how a map came about.

* `KeyMap.find?_insert`, `KeyMap.find?_erase`: what writing and removing a key
  do under every key;
* `KeyMap.find?_union`: a union has the second map's value where it has one.
-/

namespace MessageCatalog

/-- A finite map from byte strings. -/
structure KeyMap (α : Type) where
  /-- Keys and values, by ascending key. -/
  toList : List (Bytes × α)
  /-- The keys ascend. -/
  ascending : toList.Pairwise fun a b => a.1 < b.1

namespace KeyMap

variable {α : Type}

/-- Writes a value under a key into a list that ascends. -/
def insertList (key : Bytes) (value : α) : List (Bytes × α) → List (Bytes × α)
  | [] => [(key, value)]
  | (k, v) :: rest =>
    if key < k then (key, value) :: (k, v) :: rest
    else if key = k then (key, value) :: rest
    else (k, v) :: insertList key value rest

theorem mem_insertList {key : Bytes} {value : α} {p : Bytes × α} {l : List (Bytes × α)}
    (h : p ∈ insertList key value l) : p = (key, value) ∨ p ∈ l := by
  induction l with
  | nil => simpa [insertList] using h
  | cons q l ih =>
    obtain ⟨k, v⟩ := q
    rw [insertList] at h
    split at h
    · simpa using h
    · split at h
      · rcases List.mem_cons.1 h with h | h
        · exact .inl h
        · exact .inr (List.mem_cons_of_mem _ h)
      · rcases List.mem_cons.1 h with h | h
        · exact .inr (h ▸ List.mem_cons_self)
        · exact (ih h).imp_right (List.mem_cons_of_mem _)

/-- Of two different keys, one comes before the other. -/
theorem lt_of_not_lt {a b : Bytes} (h : ¬a < b) (hne : a ≠ b) : b < a := by
  refine Classical.byContradiction fun hba => hne ?_
  exact List.le_antisymm (List.not_lt.1 hba) (List.not_lt.1 h)

theorem ascending_insertList (key : Bytes) (value : α) {l : List (Bytes × α)}
    (h : l.Pairwise fun a b => a.1 < b.1) :
    (insertList key value l).Pairwise fun a b => a.1 < b.1 := by
  induction l with
  | nil => simp [insertList]
  | cons q l ih =>
    obtain ⟨k, v⟩ := q
    rw [insertList]
    rw [List.pairwise_cons] at h
    split
    case isTrue hlt =>
      refine List.pairwise_cons.2 ⟨fun p hp => ?_, List.pairwise_cons.2 h⟩
      rcases List.mem_cons.1 hp with rfl | hp
      · exact hlt
      · exact List.lt_trans hlt (h.1 p hp)
    case isFalse hlt =>
      split
      case isTrue heq =>
        subst heq
        exact List.pairwise_cons.2 h
      case isFalse hne =>
        refine List.pairwise_cons.2 ⟨fun p hp => ?_, ih h.2⟩
        rcases mem_insertList hp with rfl | hp
        · exact lt_of_not_lt hlt hne
        · exact h.1 p hp

/-- The map without keys. -/
def empty : KeyMap α :=
  ⟨[], List.Pairwise.nil⟩

/-- The value under a key. -/
def find? (m : KeyMap α) (key : Bytes) : Option α :=
  m.toList.lookup key

/-- Whether there is a value under a key. -/
def contains (m : KeyMap α) (key : Bytes) : Bool :=
  (m.find? key).isSome

/-- Writes a value under a key, in place of an earlier one. -/
def insert (m : KeyMap α) (key : Bytes) (value : α) : KeyMap α :=
  ⟨insertList key value m.toList, ascending_insertList key value m.ascending⟩

/-- Removes a key. -/
def erase (m : KeyMap α) (key : Bytes) : KeyMap α :=
  ⟨m.toList.filter fun p => p.1 != key, m.ascending.filter _⟩

/-- The number of keys. -/
def size (m : KeyMap α) : Nat :=
  m.toList.length

/-- The values, by ascending key. -/
def values (m : KeyMap α) : List α :=
  m.toList.map (·.2)

/-- The map with the associations of both, those of the second in preference. -/
def union (m guest : KeyMap α) : KeyMap α :=
  guest.toList.foldl (fun m p => m.insert p.1 p.2) m

theorem lookup_cons (key k : Bytes) (v : α) (l : List (Bytes × α)) :
    ((k, v) :: l).lookup key = if key = k then some v else l.lookup key := by
  by_cases h : key = k
  · simp [h]
  · rw [List.lookup_cons, beq_eq_false_iff_ne.2 h, if_neg h]

@[simp]
theorem find?_empty (key : Bytes) : (empty : KeyMap α).find? key = none :=
  rfl

/-- A key that comes before all keys of a list is none of them. -/
theorem lookup_eq_none_of_lt {key : Bytes} {l : List (Bytes × α)} (h : ∀ p ∈ l, key < p.1) :
    l.lookup key = none := by
  rw [List.lookup_eq_none_iff]
  intro p hp
  have hne : key ≠ p.1 := fun heq => List.lt_irrefl _ (heq ▸ h p hp : key < key)
  simpa using hne

/-- Writing a key changes what is under it, and nothing else. -/
theorem find?_insert (m : KeyMap α) (key : Bytes) (value : α) (k : Bytes) :
    (m.insert key value).find? k = if k = key then some value else m.find? k := by
  obtain ⟨l, hl⟩ := m
  show (insertList key value l).lookup k = if k = key then some value else l.lookup k
  clear hl
  induction l with
  | nil => simp [insertList, lookup_cons]
  | cons q l ih =>
    obtain ⟨k', v'⟩ := q
    rw [insertList]
    split
    · rw [lookup_cons]
    · split
      case isTrue heq =>
        rw [lookup_cons, lookup_cons, ← heq]
        split <;> rfl
      case isFalse hne =>
        rw [lookup_cons, lookup_cons, ih]
        by_cases h : k = k'
        · rw [if_pos h, if_pos h, if_neg fun hk => hne (hk.symm.trans h)]
        · rw [if_neg h, if_neg h]

/-- Removing a key leaves nothing under it, and all else as it is. -/
theorem find?_erase (m : KeyMap α) (key k : Bytes) :
    (m.erase key).find? k = if k = key then none else m.find? k := by
  obtain ⟨l, hl⟩ := m
  show (l.filter fun p => p.1 != key).lookup k = if k = key then none else l.lookup k
  clear hl
  induction l with
  | nil => simp
  | cons q l ih =>
    obtain ⟨k', v'⟩ := q
    by_cases h : k' = key
    · rw [List.filter_cons, if_neg (by simp [h]), ih, lookup_cons, h]
      split <;> rfl
    · rw [List.filter_cons, if_pos (by simp [h]), lookup_cons, lookup_cons, ih]
      by_cases hk : k = k'
      · rw [if_pos hk, if_pos hk, if_neg fun hkey => h (hk.symm.trans hkey)]
      · rw [if_neg hk, if_neg hk]

/-- The first key of a list that ascends is in no list with the same lookups
    after its own first key. -/
theorem not_lt_of_lookup_eq {k k' : Bytes} {v v' : α} {l l' : List (Bytes × α)}
    (h' : ((k', v') :: l').Pairwise fun a b => a.1 < b.1)
    (h : ((k, v) :: l).lookup k = ((k', v') :: l').lookup k) : ¬k < k' := by
  intro hlt
  rw [lookup_eq_none_of_lt (l := (k', v') :: l'), lookup_cons, if_pos rfl] at h
  · cases h
  · intro p hp
    rcases List.mem_cons.1 hp with rfl | hp
    · exact hlt
    · exact List.lt_trans hlt ((List.pairwise_cons.1 h').1 p hp)

/-- Maps with the same value under every key are equal. -/
theorem ext {m₁ m₂ : KeyMap α} (h : ∀ key, m₁.find? key = m₂.find? key) : m₁ = m₂ := by
  obtain ⟨l₁, h₁⟩ := m₁
  obtain ⟨l₂, h₂⟩ := m₂
  replace h : ∀ key, l₁.lookup key = l₂.lookup key := h
  suffices l₁ = l₂ by subst this; rfl
  induction l₁ generalizing l₂ with
  | nil =>
    cases l₂ with
    | nil => rfl
    | cons q l₂ => simpa [lookup_cons q.1 q.1 q.2] using h q.1
  | cons p l₁ ih =>
    cases l₂ with
    | nil => simpa using h p.1
    | cons q l₂ =>
      obtain ⟨k, v⟩ := p
      obtain ⟨k', v'⟩ := q
      have hk : k = k' := by
        refine Classical.byContradiction fun hne => ?_
        exact not_lt_of_lookup_eq h₁ (h k').symm
          (lt_of_not_lt (not_lt_of_lookup_eq h₂ (h k)) hne)
      subst hk
      rw [List.pairwise_cons] at h₁ h₂
      have hv : v = v' := by simpa [lookup_cons] using h k
      subst hv
      rw [ih h₁.2 l₂ h₂.2]
      intro key
      by_cases hkey : key = k
      · subst hkey
        rw [lookup_eq_none_of_lt h₁.1, lookup_eq_none_of_lt h₂.1]
      · have := h key
        rwa [lookup_cons, lookup_cons, if_neg hkey, if_neg hkey] at this

/-- A union has the guest's value under every key where the guest has one. -/
theorem find?_union (m guest : KeyMap α) (key : Bytes) :
    (m.union guest).find? key = (guest.find? key).or (m.find? key) := by
  obtain ⟨l, hl⟩ := guest
  show (l.foldl (fun m p => m.insert p.1 p.2) m).find? key = (l.lookup key).or (m.find? key)
  induction l generalizing m with
  | nil => rfl
  | cons p l ih =>
    obtain ⟨k, v⟩ := p
    rw [List.pairwise_cons] at hl
    rw [List.foldl_cons, ih (m.insert k v) hl.2, find?_insert, lookup_cons]
    by_cases hk : key = k
    · subst hk
      rw [lookup_eq_none_of_lt hl.1, if_pos rfl, if_pos rfl]
      rfl
    · rw [if_neg hk, if_neg hk]

end KeyMap

end MessageCatalog
