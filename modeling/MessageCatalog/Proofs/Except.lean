/-!
# Steps that may fail

What is computed in steps is computed iff each step gives what the next one starts from;
otherwise the first step that fails says why.

* `bind_eq_ok_iff`, `bind_eq_error_iff`: a step and what depends on it;
* `both_eq_ok_iff`, `both_eq_error_iff`, `both_mapError`: two steps of which both results are kept;
* `mapError_eq_ok_iff`, `mapError_eq_error_iff`: a step whose failures are told otherwise.
-/

namespace MessageCatalog

variable {ε ε' α β : Type}

theorem bind_eq_ok_iff {x : Except ε α} {f : α → Except ε β} {b : β} :
    x >>= f = .ok b ↔ ∃ a, x = .ok a ∧ f a = .ok b := by
  cases x with
  | error e => exact ⟨(nomatch ·), fun ⟨_, h, _⟩ => nomatch h⟩
  | ok a => exact ⟨fun h => ⟨a, rfl, h⟩, fun ⟨_, ha, h⟩ => by cases ha; exact h⟩

theorem bind_eq_error_iff {x : Except ε α} {f : α → Except ε β} {e : ε} :
    x >>= f = .error e ↔ x = .error e ∨ ∃ a, x = .ok a ∧ f a = .error e := by
  cases x with
  | error e' =>
    constructor
    · rintro ⟨⟩
      exact .inl rfl
    · rintro (⟨⟨⟩⟩ | ⟨_, h, _⟩)
      · rfl
      · cases h
  | ok a =>
    refine ⟨fun h => .inr ⟨a, rfl, h⟩, ?_⟩
    rintro (h | ⟨_, ⟨⟩, h⟩)
    · cases h
    · exact h

theorem both_eq_ok_iff {x : Except ε α} {y : Except ε β} {both : α × β} :
    (do let a ← x; let b ← y; return (a, b)) = .ok both ↔
      x = .ok both.1 ∧ y = .ok both.2 := by
  simp only [bind_eq_ok_iff]
  constructor
  · rintro ⟨a, hx, b, hy, ⟨⟩⟩
    exact ⟨hx, hy⟩
  · rintro ⟨hx, hy⟩
    exact ⟨_, hx, _, hy, rfl⟩

theorem both_eq_error_iff {x : Except ε α} {y : Except ε β} {e : ε} :
    (do let a ← x; let b ← y; return (a, b)) = .error e ↔
      x = .error e ∨ (∃ a, x = .ok a) ∧ y = .error e := by
  have hy : ∀ a : α, (do let b ← y; return (a, b)) = .error e ↔ y = .error e := fun a =>
    bind_eq_error_iff.trans ⟨fun h => h.resolve_right fun ⟨_, _, hpure⟩ => (nomatch hpure), .inl⟩
  rw [bind_eq_error_iff]
  simp only [hy, exists_and_right]

/-- The failures of two steps are told otherwise if those of each are. -/
theorem both_mapError (f : ε → ε') (x : Except ε α) (y : Except ε β) :
    (do let a ← x.mapError f; let b ← y.mapError f; return (a, b)) =
      (do let a ← x; let b ← y; return (a, b) : Except ε (α × β)).mapError f := by
  cases x with
  | error e => rfl
  | ok a =>
    cases y with
    | error e => rfl
    | ok b => rfl

theorem mapError_eq_ok_iff {f : ε → ε'} {x : Except ε α} {a : α} :
    x.mapError f = .ok a ↔ x = .ok a := by
  cases x with
  | error e => exact ⟨(nomatch ·), (nomatch ·)⟩
  | ok a' =>
    constructor
    · rintro ⟨⟩
      rfl
    · rintro ⟨⟩
      rfl

theorem mapError_eq_error_iff {f : ε → ε'} {x : Except ε α} {e' : ε'} :
    x.mapError f = .error e' ↔ ∃ e, x = .error e ∧ f e = e' := by
  cases x with
  | error e =>
    constructor
    · rintro ⟨⟩
      exact ⟨e, rfl, rfl⟩
    · rintro ⟨_, ⟨⟩, rfl⟩
      rfl
  | ok a => exact ⟨(nomatch ·), fun ⟨_, h, _⟩ => nomatch h⟩

end MessageCatalog
