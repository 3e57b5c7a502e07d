import Mathlib.Data.List.TakeWhile
import MessageCatalog.Text.Blank

/-!
# Texts with blanks around them

Trimming takes the blanks from both ends of a text. So the texts with a given trim are those
that have blanks, and nothing else, in front of it and behind it.

* `trim_eq_iff`: the texts with a given trim;
* `trim_append_cons`: a character that is no blank keeps the two ends apart.
-/

namespace MessageCatalog

/-- The text consists of blanks. -/
def IsBlanks (text : List Char) : Prop :=
  ∀ c ∈ text, isBlank c = true

theorem IsBlanks.nil : IsBlanks [] :=
  nofun

theorem trimStart_append {blanks : List Char} (h : IsBlanks blanks) (text : List Char) :
    trimStart (blanks ++ text) = trimStart text :=
  List.dropWhile_append_of_pos h

theorem trimEnd_append {blanks : List Char} (h : IsBlanks blanks) (text : List Char) :
    trimEnd (text ++ blanks) = trimEnd text := by
  rw [trimEnd, trimEnd, List.reverse_append,
    List.dropWhile_append_of_pos fun c hc => h c (List.mem_reverse.1 hc)]

theorem trimStart_eq_nil_iff {text : List Char} : trimStart text = [] ↔ IsBlanks text :=
  List.dropWhile_eq_nil_iff

/-- A text is its trim with blanks around it. -/
theorem exists_blanks (text : List Char) :
    ∃ before after, IsBlanks before ∧ IsBlanks after ∧ text = before ++ trim text ++ after := by
  let core := trimStart text
  refine ⟨text.takeWhile isBlank, (core.reverse.takeWhile isBlank).reverse, ?_, ?_, ?_⟩
  · exact List.all_eq_true.1 List.all_takeWhile
  · exact fun c hc => List.all_eq_true.1 List.all_takeWhile c (List.mem_reverse.1 hc)
  · have hcore : trim text ++ (core.reverse.takeWhile isBlank).reverse = core := by
      rw [trim, trimEnd, ← List.reverse_append, List.takeWhile_append_dropWhile,
        List.reverse_reverse]
    rw [List.append_assoc, hcore]
    exact List.takeWhile_append_dropWhile.symm

theorem trim_eq_nil_iff {text : List Char} : trim text = [] ↔ IsBlanks text := by
  constructor
  · intro h
    obtain ⟨before, after, hbefore, hafter, htext⟩ := exists_blanks text
    rw [h, List.append_nil] at htext
    rw [htext]
    exact fun c hc => (List.mem_append.1 hc).elim (hbefore c) (hafter c)
  · intro h
    rw [trim, trimStart_eq_nil_iff.2 h]
    rfl

/-- A character that is no blank stays, with what is between it and the ends. -/
theorem trim_append_cons {c : Char} (hc : isBlank c = false) (before after : List Char) :
    trim (before ++ c :: after) = trimStart before ++ c :: trimEnd after := by
  have hstart : trimStart (before ++ c :: after) = trimStart before ++ c :: after := by
    rw [trimStart, List.dropWhile_append]
    split
    case isTrue h =>
      rw [trimStart, List.isEmpty_iff.1 h, List.dropWhile_cons_of_neg (by simp [hc])]
      rfl
    case isFalse => rfl
  have hend : ∀ front : List Char, trimEnd (front ++ c :: after) = front ++ c :: trimEnd after := by
    intro front
    rw [trimEnd, trimEnd, List.reverse_append, List.reverse_cons, List.append_assoc,
      List.dropWhile_append]
    split
    case isTrue h =>
      rw [List.isEmpty_iff.1 h, List.singleton_append, List.dropWhile_cons_of_neg (by simp [hc])]
      simp
    case isFalse => simp
  rw [trim, hstart, hend]

/-- Blanks around a text do not change its trim. -/
theorem trim_append_append {before after : List Char} (hbefore : IsBlanks before)
    (hafter : IsBlanks after) (text : List Char) : trim (before ++ text ++ after) = trim text := by
  rw [trim, List.append_assoc, trimStart_append hbefore, trimStart, List.dropWhile_append]
  split
  case isTrue h =>
    have hnil : trimStart text = [] := List.isEmpty_iff.1 h
    have hafter' : trimStart after = [] := trimStart_eq_nil_iff.2 hafter
    rw [trim, hnil, ← trimStart, hafter']
  case isFalse => exact trimEnd_append hafter _

theorem trim_trimStart (text : List Char) : trim (trimStart text) = trim text := by
  have h := trim_append_append (List.all_eq_true.1 (List.all_takeWhile (l := text))) .nil
    (trimStart text)
  rw [List.append_nil, trimStart, List.takeWhile_append_dropWhile] at h
  exact h.symm

theorem trim_trimEnd (text : List Char) : trim (trimEnd text) = trim text := by
  have hafter : IsBlanks (text.reverse.takeWhile isBlank).reverse := fun c hc =>
    List.all_eq_true.1 List.all_takeWhile c (List.mem_reverse.1 hc)
  have h := trim_append_append .nil hafter (trimEnd text)
  rw [List.nil_append, trimEnd, ← List.reverse_append, List.takeWhile_append_dropWhile,
    List.reverse_reverse] at h
  exact h.symm

/-- The texts with a given trim are those with blanks around it. -/
theorem trim_eq_iff {text core : List Char} :
    trim text = core ↔ trim core = core ∧
      ∃ before after, IsBlanks before ∧ IsBlanks after ∧ text = before ++ core ++ after := by
  constructor
  · rintro rfl
    exact ⟨trim_trim text, exists_blanks text⟩
  · rintro ⟨hcore, before, after, hbefore, hafter, rfl⟩
    rw [trim_append_append hbefore hafter, hcore]

end MessageCatalog
