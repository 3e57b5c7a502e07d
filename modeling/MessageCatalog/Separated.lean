/-!
# Separated sequences

Sequences — of bytes or of characters — that a separator divides into parts.

* `cut?` divides at the first separator, `pieces` at every separator;
* `joined` puts parts together with a separator between them. It undoes
  `pieces` (`joined_pieces`), and is undone by it if no part contains the
  separator (`pieces_joined`);
* `replacePair` writes one element for two, and leaves no such two
  (`not_infix_replacePair`).
-/

namespace MessageCatalog

variable {α : Type}

/-- The parts one after the other, with a separator between them. -/
def joined (separator : α) : List (List α) → List α
  | [] => []
  | [part] => part
  | part :: parts => part ++ separator :: joined separator parts

theorem joined_cons {separator : α} {part : List α} {parts : List (List α)} (h : parts ≠ []) :
    joined separator (part :: parts) = part ++ separator :: joined separator parts := by
  cases parts with
  | nil => exact absurd rfl h
  | cons => rfl

theorem joined_eq_nil_iff {separator : α} {parts : List (List α)} :
    joined separator parts = [] ↔ parts = [] ∨ parts = [[]] := by
  match parts with
  | [] => simp [joined]
  | [part] => simp [joined]
  | part :: next :: parts => simp [joined]

/-- What is joined has the elements of its parts, and separators. -/
theorem mem_joined {separator x : α} {parts : List (List α)} (h : x ∈ joined separator parts) :
    x = separator ∨ ∃ part ∈ parts, x ∈ part := by
  induction parts with
  | nil => cases h
  | cons part parts ih =>
    by_cases hnil : parts = []
    · subst hnil
      exact .inr ⟨part, List.mem_cons_self, h⟩
    · rw [joined_cons hnil] at h
      rcases List.mem_append.1 h with h | h
      · exact .inr ⟨part, List.mem_cons_self, h⟩
      · rcases List.mem_cons.1 h with h | h
        · exact .inl h
        · exact (ih h).imp_right fun ⟨p, hp, hx⟩ => ⟨p, List.mem_cons_of_mem _ hp, hx⟩

variable [DecidableEq α]

/-- What precedes and what follows the first `separator`, if there is one. -/
def cut? (separator : α) : List α → Option (List α × List α)
  | [] => none
  | x :: xs =>
    if x = separator then some ([], xs)
    else (cut? separator xs).map fun (before, after) => (x :: before, after)

/-- The parts between the separators, of which there is one more than there are
    separators. -/
def pieces (separator : α) : List α → List (List α)
  | [] => [[]]
  | x :: xs =>
    if x = separator then [] :: pieces separator xs
    else match pieces separator xs with
      | [] => [[x]]
      | part :: parts => (x :: part) :: parts

/-- The sequence with `z` in place of every `x` that a `y` follows, and of that
    `y`, from left to right. -/
def replacePair (x y z : α) : List α → List α
  | a :: b :: rest =>
    if a = x ∧ b = y then z :: replacePair x y z rest
    else a :: replacePair x y z (b :: rest)
  | rest => rest

theorem cut?_eq_none_iff {separator : α} {xs : List α} :
    cut? separator xs = none ↔ separator ∉ xs := by
  induction xs with
  | nil => simp [cut?]
  | cons x xs ih =>
    by_cases h : x = separator
    · simp [cut?, h]
    · simp [cut?, h, ih, Ne.symm h]

/-- The cut is at the first separator. -/
theorem cut?_eq_some_iff {separator : α} {xs before after : List α} :
    cut? separator xs = some (before, after) ↔
      xs = before ++ separator :: after ∧ separator ∉ before := by
  induction xs generalizing before with
  | nil => simp [cut?]
  | cons x xs ih =>
    by_cases h : x = separator
    · subst h
      cases before with
      | nil => simp [cut?]
      | cons b bs =>
        simp only [cut?, ↓reduceIte, Option.some.injEq, Prod.mk.injEq, List.nil_eq, reduceCtorEq,
          false_and, List.cons_append, List.cons.injEq, List.mem_cons, not_or, false_iff, not_and,
          and_imp]
        exact fun hb _ hx => absurd hb hx
    · cases before with
      | nil => simp [cut?, h]
      | cons b bs =>
        simp only [cut?, h, ↓reduceIte, Option.map_eq_some_iff, Prod.mk.injEq, List.cons.injEq,
          Prod.exists, List.cons_append, List.mem_cons, not_or]
        constructor
        · rintro ⟨bs', after', hcut, ⟨rfl, rfl⟩, rfl⟩
          obtain ⟨rfl, hmem⟩ := ih.1 hcut
          exact ⟨⟨rfl, rfl⟩, Ne.symm h, hmem⟩
        · rintro ⟨⟨rfl, rfl⟩, _, hmem⟩
          exact ⟨bs, after, ih.2 ⟨rfl, hmem⟩, ⟨rfl, rfl⟩, rfl⟩

theorem pieces_ne_nil (separator : α) (xs : List α) : pieces separator xs ≠ [] := by
  cases xs with
  | nil => simp [pieces]
  | cons x xs =>
    rw [pieces]
    split
    · simp
    · split <;> simp

/-- Joining what was divided gives it back. -/
theorem joined_pieces (separator : α) (xs : List α) :
    joined separator (pieces separator xs) = xs := by
  induction xs with
  | nil => rfl
  | cons x xs ih =>
    rw [pieces]
    split
    case isTrue h =>
      rw [joined_cons (pieces_ne_nil separator xs), ih, h, List.nil_append]
    case isFalse =>
      split
      case h_1 h => exact absurd h (pieces_ne_nil separator xs)
      case h_2 part parts h =>
        rw [h] at ih
        cases parts with
        | nil => simp_all [joined]
        | cons => simp_all [joined]

/-- No part of what was divided contains the separator. -/
theorem not_mem_of_mem_pieces {separator : α} {xs part : List α}
    (h : part ∈ pieces separator xs) : separator ∉ part := by
  induction xs generalizing part with
  | nil => simp_all [pieces]
  | cons x xs ih =>
    rw [pieces] at h
    split at h
    case isTrue =>
      rcases List.mem_cons.1 h with rfl | h
      · simp
      · exact ih h
    case isFalse hx =>
      split at h
      case h_1 hp => exact absurd hp (pieces_ne_nil separator xs)
      case h_2 first rest hp =>
        rcases List.mem_cons.1 h with rfl | h
        · have hfirst : first ∈ pieces separator xs := by simp [hp]
          simp [ih hfirst, Ne.symm hx]
        · exact ih (by simp [hp, h])

/-- What was divided contains each part without a gap. -/
theorem infix_of_mem_pieces {separator : α} {xs part : List α} (h : part ∈ pieces separator xs) :
    part <:+: xs := by
  rw [← joined_pieces separator xs]
  generalize pieces separator xs = parts at h
  induction parts with
  | nil => cases h
  | cons first parts ih =>
    by_cases hnil : parts = []
    · subst hnil
      obtain rfl := List.mem_singleton.1 h
      exact List.infix_rfl
    · rw [joined_cons hnil]
      rcases List.mem_cons.1 h with rfl | h
      · exact (List.prefix_append _ _).isInfix
      · exact (ih h).trans ⟨first ++ [separator], [], by simp⟩

theorem pieces_of_not_mem {separator : α} {xs : List α} (h : separator ∉ xs) :
    pieces separator xs = [xs] := by
  induction xs with
  | nil => rfl
  | cons x xs ih =>
    simp only [List.mem_cons, not_or] at h
    simp [pieces, Ne.symm h.1, ih h.2]

theorem pieces_append_cons {separator : α} {part : List α} (h : separator ∉ part) (xs : List α) :
    pieces separator (part ++ separator :: xs) = part :: pieces separator xs := by
  induction part with
  | nil => simp [pieces]
  | cons x part ih =>
    simp only [List.mem_cons, not_or] at h
    simp [pieces, Ne.symm h.1, ih h.2]

/-- Dividing what was joined gives the parts back, if there are any and none
    contains the separator. -/
theorem pieces_joined {separator : α} {parts : List (List α)} (hne : parts ≠ [])
    (h : ∀ part ∈ parts, separator ∉ part) : pieces separator (joined separator parts) = parts := by
  induction parts with
  | nil => exact absurd rfl hne
  | cons part parts ih =>
    cases parts with
    | nil => exact pieces_of_not_mem (h part (by simp))
    | cons next parts =>
      rw [joined, pieces_append_cons (h part (by simp)),
        ih (by simp) fun p hp => h p (List.mem_cons_of_mem _ hp)]
      simp

omit [DecidableEq α] in
/-- A pair that a separator is no part of stands on one side of it. -/
theorem pair_infix_append_cons {x y separator : α} (hx : separator ≠ x) (hy : separator ≠ y)
    {before after : List α} (h : [x, y] <:+: before ++ separator :: after) :
    [x, y] <:+: before ∨ [x, y] <:+: after := by
  induction before with
  | nil =>
    rcases List.infix_cons_iff.1 h with h | h
    · exact absurd (List.cons_prefix_cons.1 h).1.symm hx
    · exact .inr h
  | cons a before ih =>
    rcases List.infix_cons_iff.1 h with h | h
    · obtain ⟨rfl, hnext⟩ := List.cons_prefix_cons.1 h
      cases before with
      | nil => exact absurd (List.cons_prefix_cons.1 hnext).1.symm hy
      | cons b before =>
        obtain ⟨rfl, _⟩ := List.cons_prefix_cons.1 hnext
        exact .inl ⟨[], before, rfl⟩
    · exact (ih h).imp_left List.infix_cons

/-- Without the pair, nothing is replaced. -/
theorem replacePair_eq_self {x y z : α} {xs : List α} (h : ¬[x, y] <:+: xs) :
    replacePair x y z xs = xs := by
  fun_induction replacePair x y z xs with
  | case1 a b rest hab =>
    obtain ⟨rfl, rfl⟩ := hab
    exact absurd ⟨[], rest, rfl⟩ h
  | case2 a b rest _ ih => rw [ih fun hrest => h (List.infix_cons hrest)]
  | case3 => rfl

theorem head?_replacePair (x y z a : α) (rest : List α) :
    (replacePair x y z (a :: rest)).head? = some a ∨
      (replacePair x y z (a :: rest)).head? = some z := by
  cases rest with
  | nil => exact .inl rfl
  | cons b rest =>
    rw [replacePair]
    split
    · exact .inr rfl
    · exact .inl rfl

/-- What is replaced is gone: writing one element for a pair makes no new pair, if
    the element is none of the two. -/
theorem not_infix_replacePair {x y z : α} (hx : z ≠ x) (hy : z ≠ y) (xs : List α) :
    ¬[x, y] <:+: replacePair x y z xs := by
  fun_induction replacePair x y z xs with
  | case1 a b rest hab ih =>
    intro h
    rcases List.infix_cons_iff.1 h with h | h
    · exact hx (List.cons_prefix_cons.1 h).1.symm
    · exact ih h
  | case2 a b rest hab ih =>
    intro h
    rcases List.infix_cons_iff.1 h with h | h
    · obtain ⟨rfl, hnext⟩ := List.cons_prefix_cons.1 h
      have hhead : (replacePair x y z (b :: rest)).head? = some y := by
        obtain ⟨tail, htail⟩ := hnext
        rw [← htail]
        rfl
      rcases head?_replacePair x y z b rest with hb | hz
      · exact hab ⟨rfl, Option.some.inj (hb.symm.trans hhead)⟩
      · exact hy (Option.some.inj (hz.symm.trans hhead))
    · exact ih h
  | case3 xs hxs =>
    intro h
    match xs, hxs with
    | [], _ => simpa using h.length_le
    | [_], _ => simpa using h.length_le
    | a :: b :: rest, hxs => exact hxs a b rest rfl

end MessageCatalog
