/-!
# Blank characters

The characters that separate words: the 25 characters with the Unicode property
*White_Space*, tabulated in `blankRanges`. Expressions may contain any of them
between tokens, and names and values are trimmed of them.

* `trim_eq_self_iff`: a text is its own trim iff it neither starts nor ends
  with a blank.
-/

namespace MessageCatalog

/-- The characters of the property White_Space, as ranges of code points with
    both ends included. -/
def blankRanges : List (Nat × Nat) :=
  [(0x09, 0x0D), (0x20, 0x20), (0x85, 0x85), (0xA0, 0xA0), (0x1680, 0x1680),
    (0x2000, 0x200A), (0x2028, 0x2029), (0x202F, 0x202F), (0x205F, 0x205F), (0x3000, 0x3000)]

/-- Whether a character is a blank. -/
def isBlank (c : Char) : Bool :=
  blankRanges.any fun (first, last) => first ≤ c.toNat && c.toNat ≤ last

/-- The text without the blanks it starts with. -/
def trimStart (text : List Char) : List Char :=
  text.dropWhile isBlank

/-- The text without the blanks it ends with. -/
def trimEnd (text : List Char) : List Char :=
  (text.reverse.dropWhile isBlank).reverse

/-- The text without the blanks around it. -/
def trim (text : List Char) : List Char :=
  trimEnd (trimStart text)

theorem length_trimStart_le (text : List Char) : (trimStart text).length ≤ text.length :=
  (List.dropWhile_suffix isBlank).length_le

theorem length_trimEnd_le (text : List Char) : (trimEnd text).length ≤ text.length := by
  simpa [trimEnd] using (List.dropWhile_suffix (l := text.reverse) isBlank).length_le

/-- Trimming at the start leaves a text alone iff it does not start with a blank. -/
theorem trimStart_eq_self_iff {text : List Char} :
    trimStart text = text ↔ ∀ c ∈ text.head?, isBlank c = false := by
  cases text with
  | nil => simp [trimStart]
  | cons c cs =>
    by_cases hc : isBlank c = true
    · have hne : cs.dropWhile isBlank ≠ c :: cs := fun h => by
        have hle := length_trimStart_le cs
        rw [trimStart, h, List.length_cons] at hle
        omega
      simp [trimStart, hc, hne]
    · simp [trimStart, hc]

/-- Trimming at the end leaves a text alone iff it does not end with a blank. -/
theorem trimEnd_eq_self_iff {text : List Char} :
    trimEnd text = text ↔ ∀ c ∈ text.getLast?, isBlank c = false := by
  have h : trimEnd text = text ↔ trimStart text.reverse = text.reverse := by
    simp only [trimEnd, trimStart]
    exact List.reverse_eq_iff
  rw [h, trimStart_eq_self_iff, List.head?_reverse]

/-- A text is its own trim iff it neither starts nor ends with a blank. -/
theorem trim_eq_self_iff {text : List Char} :
    trim text = text ↔
      (∀ c ∈ text.head?, isBlank c = false) ∧ ∀ c ∈ text.getLast?, isBlank c = false := by
  rw [← trimStart_eq_self_iff, ← trimEnd_eq_self_iff]
  refine ⟨fun h => ?_, fun ⟨hs, he⟩ => by rw [trim, hs, he]⟩
  have hs : trimStart text = text := by
    refine (List.dropWhile_suffix isBlank).eq_of_length ?_
    have h₁ := length_trimStart_le text
    have h₂ := length_trimEnd_le (trimStart text)
    rw [← trim, h] at h₂
    exact Nat.le_antisymm h₁ h₂
  exact ⟨hs, by rw [trim, hs] at h; exact h⟩

theorem head?_trimStart (text : List Char) : ∀ c ∈ (trimStart text).head?, isBlank c = false := by
  intro c hc
  have h := List.head?_dropWhile_not isBlank text
  rwa [← trimStart, Option.mem_def.1 hc] at h

theorem getLast?_trimEnd (text : List Char) :
    ∀ c ∈ (trimEnd text).getLast?, isBlank c = false := by
  rw [trimEnd, List.getLast?_reverse]
  exact head?_trimStart text.reverse

theorem trimEnd_isPrefix (text : List Char) : trimEnd text <+: text := by
  rw [← List.reverse_suffix, trimEnd, List.reverse_reverse]
  exact List.dropWhile_suffix isBlank

/-- A text contains its trim. -/
theorem trim_isInfix (text : List Char) : trim text <:+: text :=
  (trimEnd_isPrefix _).isInfix.trans (List.dropWhile_suffix isBlank).isInfix

/-- Trimming leaves nothing to trim. -/
theorem trim_trim (text : List Char) : trim (trim text) = trim text := by
  refine trim_eq_self_iff.2 ⟨fun c hc => head?_trimStart text c ?_, getLast?_trimEnd _⟩
  obtain ⟨after, hafter⟩ := trimEnd_isPrefix (trimStart text)
  rw [← hafter, List.head?_append, ← trim, Option.mem_def.1 hc]
  rfl

/-- Blanks in front of a text do not change its trim. -/
theorem trim_cons_of_isBlank {c : Char} (hc : isBlank c = true) (text : List Char) :
    trim (c :: text) = trim text := by
  rw [trim, trimStart, List.dropWhile_cons_of_pos hc]
  rfl

end MessageCatalog
