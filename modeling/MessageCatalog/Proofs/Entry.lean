import MessageCatalog.Entry

/-!
# Entries that a pair tells apart

An entry is written as a msgid and a msgstr, whose separators tell its parts. They
do so if no part contains a separator that comes after it: such entries
(`Entry.Separable`) are read back as they were written. The key of an entry is the
start of its msgid, and tells the message and the context on the same terms
(`IsAddress`).

* `eq_of_entryKey_eq`: two addresses with the same key are the same;
* `ofStrings_strings`: what was written of a separable entry gives the entry
  back, unless its only form is empty;
* `separable_ofStrings`: whatever is read from a pair is separable;
* `ofStrings_retraction`: so these, but for those whose only form is empty, are the
  entries that reading and writing match with the pairs;
* `isUntranslated_ofStrings_eq_false_iff`: it is translated iff the msgstr is more than
  separators.
-/

namespace MessageCatalog

/-- A message and a context that their key tells apart: its first separator, if it has one, is
    the one behind the context. -/
structure IsAddress (message : Bytes) (context : Option Bytes) : Prop where
  /-- Without a context, nothing looks like the end of one. -/
  bare : context = none → contextSeparator ∉ message
  /-- The context ends before the message. -/
  context : ∀ c ∈ context, contextSeparator ∉ c

instance (message : Bytes) (context : Option Bytes) : Decidable (IsAddress message context) :=
  decidable_of_iff ((context = none → contextSeparator ∉ message) ∧
    ∀ c ∈ context, contextSeparator ∉ c) ⟨fun h => ⟨h.1, h.2⟩, fun h => ⟨h.bare, h.context⟩⟩

namespace Entry

/-- An entry none of whose parts contains a separator that comes after it. -/
structure Separable (e : Entry) : Prop where
  /-- The message ends before the plural. -/
  singular : formSeparator ∉ e.singular
  /-- A form ends before the next one. -/
  forms : ∀ form ∈ e.forms, formSeparator ∉ form
  /-- The context ends before the message. -/
  context : ∀ context ∈ e.context, contextSeparator ∉ context
  /-- Without a context, nothing looks like the end of one. -/
  bare : e.context = none →
    contextSeparator ∉ e.singular ∧ ∀ plural ∈ e.plural, contextSeparator ∉ plural

/-- The key of an entry with a message is not that of the headers. -/
theorem key_ne_nil {e : Entry} (h : e.singular ≠ []) : e.key ≠ [] := by
  rw [key]
  cases e.context with
  | none => exact h
  | some context => exact List.append_ne_nil_of_right_ne_nil _ (List.cons_ne_nil _ _)

/-! ### Addresses -/

/-- The key of an address is split into its parts. -/
theorem splitContext_entryKey {message : Bytes} {context : Option Bytes}
    (h : IsAddress message context) :
    splitContext (entryKey message context) = (context, message) := by
  cases context with
  | some context =>
    have hcut : cut? contextSeparator (context ++ contextSeparator :: message) =
        some (context, message) := cut?_eq_some_iff.2 ⟨rfl, h.context context rfl⟩
    simp only [splitContext, entryKey, hcut]
  | none => simp only [splitContext, entryKey, cut?_eq_none_iff.2 (h.bare rfl)]

/-- Whatever the bytes are, they are split into an address. -/
theorem isAddress_splitContext (bytes : Bytes) :
    IsAddress (splitContext bytes).2 (splitContext bytes).1 := by
  rw [splitContext]
  split
  case h_1 context message hcut =>
    refine ⟨nofun, fun c hc => ?_⟩
    rw [← Option.mem_some_iff.1 hc]
    exact (cut?_eq_some_iff.1 hcut).2
  case h_2 hcut => exact ⟨fun _ => cut?_eq_none_iff.1 hcut, nofun⟩

/-- Two addresses with the same key are the same. -/
theorem eq_of_entryKey_eq {message message' : Bytes} {context context' : Option Bytes}
    (h : IsAddress message context) (h' : IsAddress message' context')
    (hkey : entryKey message context = entryKey message' context') :
    message = message' ∧ context = context' := by
  have hsplit := splitContext_entryKey h
  rw [hkey, splitContext_entryKey h', Prod.mk.injEq] at hsplit
  exact ⟨hsplit.2.symm, hsplit.1.symm⟩

/-- A separator in a context hides where the context ends: the key is that of an address, too. -/
example : entryKey [0x72] (some [0x04]) = entryKey [0x04, 0x72] (some []) := rfl

/-! ### Reading what was written -/

/-- The msgid without its context. -/
def message (e : Entry) : Bytes :=
  match e.plural with
  | some plural => e.singular ++ formSeparator :: plural
  | none => e.singular

theorem msgid_eq (e : Entry) : e.msgid = entryKey e.message e.context := by
  rw [msgid, message, key]
  cases e.plural <;> cases e.context <;> simp [entryKey]

theorem Separable.isAddress_message {e : Entry} (h : e.Separable) :
    IsAddress e.message e.context where
  context := h.context
  bare hc := by
    obtain ⟨hs, hp⟩ := h.bare hc
    rw [message]
    cases hplural : e.plural with
    | none => exact hs
    | some plural =>
      simp only [List.mem_append, List.mem_cons, not_or]
      exact ⟨hs, by decide, hp plural hplural⟩

theorem splitContext_msgid {e : Entry} (h : e.Separable) :
    splitContext e.msgid = (e.context, e.message) := by
  rw [msgid_eq, splitContext_entryKey h.isAddress_message]

theorem splitPlural_message {e : Entry} (h : e.Separable) :
    splitPlural e.message = (e.singular, e.plural) := by
  rw [message]
  cases hp : e.plural with
  | some plural =>
    have hcut : cut? formSeparator (e.singular ++ formSeparator :: plural) =
        some (e.singular, plural) := cut?_eq_some_iff.2 ⟨rfl, h.singular⟩
    simp only [splitPlural, hcut]
  | none => simp only [splitPlural, cut?_eq_none_iff.2 h.singular]

theorem formsOf_msgstr {e : Entry} (h : e.Separable) (hforms : e.forms ≠ [[]]) :
    formsOf e.msgstr = e.forms := by
  rw [formsOf, msgstr]
  split
  case isTrue hnil =>
    rcases joined_eq_nil_iff.1 hnil with hf | hf
    · exact hf.symm
    · exact absurd hf hforms
  case isFalse hne =>
    refine pieces_joined (fun hf => hne ?_) h.forms
    rw [hf, joined]

/-- What was written of a separable entry gives the entry back, unless its only
    form is empty: that looks like none. -/
theorem ofStrings_strings {e : Entry} (h : e.Separable) (hforms : e.forms ≠ [[]]) :
    ofStrings e.msgid e.msgstr = e := by
  simp only [ofStrings, splitContext_msgid h, splitPlural_message h, formsOf_msgstr h hforms]

/-! ### What is read -/

/-- An entry is translated iff a form has a text. -/
theorem isUntranslated_eq_false_iff {e : Entry} :
    e.isUntranslated = false ↔ ∃ form ∈ e.forms, form ≠ [] := by
  simp [isUntranslated]

/-- Message and plural contain no byte that the text they are split from does not. -/
theorem not_mem_splitPlural {message : Bytes} {b : UInt8} (h : b ∉ message) :
    b ∉ (splitPlural message).1 ∧ ∀ plural ∈ (splitPlural message).2, b ∉ plural := by
  rw [splitPlural]
  split
  case h_1 singular plural hcut =>
    obtain ⟨rfl, _⟩ := cut?_eq_some_iff.1 hcut
    simp only [List.mem_append, List.mem_cons, not_or] at h
    exact ⟨h.1, fun p hp => Option.mem_some_iff.1 hp ▸ h.2.2⟩
  case h_2 => exact ⟨h, fun plural hp => absurd hp (Option.not_mem_none plural)⟩

theorem not_mem_singular_splitPlural (message : Bytes) :
    formSeparator ∉ (splitPlural message).1 := by
  rw [splitPlural]
  split
  case h_1 hcut => exact (cut?_eq_some_iff.1 hcut).2
  case h_2 hcut => exact cut?_eq_none_iff.1 hcut

theorem not_mem_formsOf {msgstr form : Bytes} (h : form ∈ formsOf msgstr) :
    formSeparator ∉ form := by
  rw [formsOf] at h
  split at h
  · cases h
  · exact not_mem_of_mem_pieces h

/-- What is read from a pair is translated iff the msgstr is more than separators. -/
theorem isUntranslated_ofStrings_eq_false_iff {first second : Bytes} :
    (ofStrings first second).isUntranslated = false ↔ ∃ b ∈ second, b ≠ formSeparator := by
  rw [isUntranslated_eq_false_iff]
  show (∃ form ∈ formsOf second, form ≠ []) ↔ _
  rw [formsOf]
  split
  case isTrue hnil => simp [hnil]
  case isFalse =>
    constructor
    · rintro ⟨form, hform, hne⟩
      obtain ⟨b, hb⟩ := List.exists_mem_of_ne_nil form hne
      exact ⟨b, (infix_of_mem_pieces hform).subset hb,
        fun hsep => not_mem_of_mem_pieces hform (hsep ▸ hb)⟩
    · rintro ⟨b, hb, hne⟩
      rw [← joined_pieces formSeparator second] at hb
      obtain ⟨form, hform, hmem⟩ := (mem_joined hb).resolve_left hne
      exact ⟨form, hform, List.ne_nil_of_mem hmem⟩

/-- Whatever is read from a pair is separable. -/
theorem separable_ofStrings (first second : Bytes) : (ofStrings first second).Separable where
  singular := not_mem_singular_splitPlural _
  forms _ hform := not_mem_formsOf hform
  context := (isAddress_splitContext first).context
  bare hc := not_mem_splitPlural ((isAddress_splitContext first).bare hc)

/-- Message and context of a separable entry are an address. -/
theorem Separable.isAddress {e : Entry} (h : e.Separable) : IsAddress e.singular e.context where
  context := h.context
  bare hc := (h.bare hc).1

/-- An empty msgstr is read as no form at all, and not as an empty one. -/
theorem formsOf_ne_singleton_nil (msgstr : Bytes) : formsOf msgstr ≠ [[]] := by
  intro h
  have hjoined : joined formSeparator (formsOf msgstr) = msgstr := msgstr_ofStrings [] msgstr
  rw [h] at hjoined
  -- So the msgstr is empty, and has no form.
  subst hjoined
  cases h

/-- Every pair is what is written of the entry read from it. And an entry is read from what is
    written of it exactly if no part of it contains a separator that comes after it, and it has
    not an empty form alone: no other entry is read from any pair. -/
theorem ofStrings_retraction :
    (∀ first second,
      (ofStrings first second).msgid = first ∧ (ofStrings first second).msgstr = second) ∧
    ∀ e : Entry, ofStrings e.msgid e.msgstr = e ↔ e.Separable ∧ e.forms ≠ [[]] := by
  refine ⟨fun first second => ⟨msgid_ofStrings first second, msgstr_ofStrings first second⟩,
    fun e => ⟨fun h => ?_, fun ⟨h, hforms⟩ => ofStrings_strings h hforms⟩⟩
  rw [← h]
  exact ⟨separable_ofStrings _ _, formsOf_ne_singleton_nil _⟩

end Entry

end MessageCatalog
