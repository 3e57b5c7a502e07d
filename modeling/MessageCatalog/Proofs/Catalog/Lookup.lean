import MessageCatalog.Proofs.Catalog.RoundTrip
import MessageCatalog.Proofs.Catalog.Rule

/-!
# Lookups before and after storing

A catalog is stored without its untranslated entries, and looks messages up by the forms
that its entries have, be they empty or not. So the stored catalog gives the same texts,
with one exception: an untranslated entry may have empty forms (`IsBlankAt`). As long as it
is there, such a form is the text; once it is gone, the text is the message, or the plural,
that was asked for.

* `find?_stored`: what is found in the stored catalog;
* `lookups_stored`: all lookups, in a catalog and in what is read from its image;
* `blank_lookup_changes`: the exception, at one entry with one empty form.
-/

namespace MessageCatalog.Catalog

/-- The entry of a message has no text in any form, but has a form at an index. -/
def IsBlankAt (c : Catalog) (singular : Bytes) (context : Option Bytes) (index : Nat) : Prop :=
  ∃ e, c.find? singular context = some e ∧ e.isUntranslated = true ∧ index < e.forms.length

/-! ### Rules -/

/-- The compiled rule of a reachable catalog is the one that its headers state. -/
theorem Reachable.current {c : Catalog} (h : Reachable c) : c.Current := by
  induction h with
  | empty => exact .of_compiled_eq_none rfl
  | @add c e _ ih => exact ih.congr (compiled_add c e) (by rw [header?, headers_add]; rfl)
  | remove singular context _ ih => exact ih.congr rfl rfl
  | @setHeader c name value _ ih =>
    by_cases hname : name = pluralFormsHeader
    · exact .of_compiled_eq_none (if_pos hname)
    · exact ih.congr (if_neg hname) (Headers.get?_set_of_ne (Ne.symm hname) c.headers value)
  | merge _ _ ih _ => exact ih.congr rfl rfl
  | lookup _ ih => exact ih.rule

/-! ### Entries -/

section Stored

variable (c : Catalog) (singular : Bytes) (context : Option Bytes)

/-- In the stored catalog, a message is found if its entry is translated. -/
theorem find?_stored :
    c.stored.find? singular context =
      (c.find? singular context).filter fun e => !e.isUntranslated :=
  KeyMap.find?_filter ..

variable {c singular context} {index : Nat}

/-- A blank form is there before storing, and gone afterwards. -/
theorem forms_of_isBlankAt (h : IsBlankAt c singular context index) :
    (c.find? singular context).bind (·.form? index) = some [] ∧
      (c.stored.find? singular context).bind (·.form? index) = none := by
  obtain ⟨e, hfind, huntranslated, hindex⟩ := h
  rw [find?_stored, hfind]
  have hform : e.forms[index] = [] := by
    simpa using List.all_eq_true.1 huntranslated _ (List.getElem_mem hindex)
  refine ⟨?_, ?_⟩
  · rw [Option.bind_some, Entry.form?, List.getElem?_eq_getElem hindex, hform]
  · rw [Option.filter_some, huntranslated]
    rfl

/-- Any other form is the same before and after storing. -/
theorem form_stored_of_not_isBlankAt (h : ¬IsBlankAt c singular context index) :
    (c.stored.find? singular context).bind (·.form? index) =
      (c.find? singular context).bind (·.form? index) := by
  rw [find?_stored]
  cases hfind : c.find? singular context with
  | none => rfl
  | some e =>
    rw [Option.filter_some]
    cases huntranslated : e.isUntranslated with
    | false => rfl
    | true =>
      -- The entry is gone, but it had no form at this index.
      have hlength : e.forms.length ≤ index :=
        Nat.not_lt.1 fun hlt => h ⟨e, hfind, huntranslated, hlt⟩
      rw [Option.bind_some, Entry.form?, List.getElem?_eq_none hlength]
      rfl

end Stored

/-! ### Lookups -/

/-- A text is the form at the index that the rule selects, if the message has one, and else
    the message or the plural that was asked for. -/
theorem value_translatePlural_eq {c : Catalog} (h : c.Current) (singular plural : Bytes)
    (n : Int64) (context : Option Bytes) :
    (c.translatePlural singular plural n context).value.1 =
      ((c.find? singular context).bind (·.form? (c.select n).value.1)).getD
        (if (c.select n).value.1 ≠ 0 then plural else singular) := by
  rw [h.value_translatePlural, h.value_select]
  rfl

/-- The lookups in `d` are those in `c`, except for the blank forms of `c`: where they are
    the texts in `c`, the texts in `d` are what was asked for. -/
structure SameTexts (c d : Catalog) : Prop where
  /-- The text for a message. -/
  translate {singular : Bytes} {context : Option Bytes} (h : ¬IsBlankAt c singular context 0) :
    d.translate singular context = c.translate singular context
  /-- The text for a message with a blank form. -/
  translate_blank {singular : Bytes} {context : Option Bytes} (h : IsBlankAt c singular context 0) :
    c.translate singular context = [] ∧ d.translate singular context = singular
  /-- The text for a message and a count. -/
  plural {singular : Bytes} (plural : Bytes) {n : Int64} {context : Option Bytes}
    (h : ¬IsBlankAt c singular context (c.select n).value.1) :
    (d.translatePlural singular plural n context).value.1 =
      (c.translatePlural singular plural n context).value.1
  /-- The text for a message with a blank form, and a count that selects it. -/
  plural_blank {singular : Bytes} (plural : Bytes) {n : Int64} {context : Option Bytes}
    (h : IsBlankAt c singular context (c.select n).value.1) :
    (c.translatePlural singular plural n context).value.1 = [] ∧
      (d.translatePlural singular plural n context).value.1 =
        if (c.select n).value.1 ≠ 0 then plural else singular

theorem sameTexts_stored {c : Catalog} (h : c.Current) : SameTexts c c.stored := by
  have hstored : c.stored.Current := .of_compiled_eq_none rfl
  have hselect : ∀ n, (c.stored.select n).value.1 = (c.select n).value.1 := fun n => by
    rw [hstored.value_select, h.value_select]
    rfl
  constructor
  case translate =>
    intro singular context hblank
    rw [Catalog.translate, Catalog.translate, form_stored_of_not_isBlankAt hblank]
  case translate_blank =>
    intro singular context hblank
    rw [Catalog.translate, Catalog.translate, (forms_of_isBlankAt hblank).1,
      (forms_of_isBlankAt hblank).2]
    exact ⟨rfl, rfl⟩
  case plural =>
    intro singular plural n context hblank
    rw [value_translatePlural_eq hstored, value_translatePlural_eq h, hselect,
      form_stored_of_not_isBlankAt hblank]
  case plural_blank =>
    intro singular plural n context hblank
    rw [value_translatePlural_eq hstored, value_translatePlural_eq h, hselect,
      (forms_of_isBlankAt hblank).1, (forms_of_isBlankAt hblank).2]
    exact ⟨rfl, rfl⟩

/-- Of a writable catalog, the catalog read from its image gives the same texts, except
    that instead of a blank form it gives what was asked for. -/
theorem lookups_stored {c : Catalog} (hc : Reachable c) (hw : Writable c) (order : ByteOrder) :
    ∃ d, (decode (c.encode order).value).value = .ok d ∧ SameTexts c d :=
  ⟨c.stored, decode_image_of_sound hc.sound hw order, sameTexts_stored hc.current⟩

/-- A catalog of one message, with one form, which is empty. -/
def blank : Catalog :=
  empty.add ⟨[0x61], some [0x62], none, [[]]⟩

theorem reachable_blank : Reachable blank :=
  .add _ .empty

theorem writable_blank : Writable blank where
  entries e he := by
    have hvalues : blank.entries.values = [⟨[0x61], some [0x62], none, [[]]⟩] := by decide
    rw [hvalues] at he
    obtain rfl := List.mem_singleton.1 he
    exact ⟨by decide, by decide, by decide, by decide⟩
  headers field hf := nomatch hf
  length := by decide

/-- The catalog that is read from the image of this one gives other texts. -/
theorem blank_lookup_changes : Reachable blank ∧ Writable blank ∧
    ∃ d, (decode (blank.encode .little).value).value = .ok d ∧
      blank.translate [0x61] none = [] ∧ d.translate [0x61] none = [0x61] ∧
      (blank.translatePlural [0x61] [0x62] 1 none).value.1 = [] ∧
      (d.translatePlural [0x61] [0x62] 1 none).value.1 = [0x61] :=
  ⟨reachable_blank, writable_blank, blank.stored,
    decode_image_of_sound reachable_blank.sound writable_blank .little, rfl, rfl, rfl, rfl⟩

/-- A catalog with that message and one that has a text in its second form only. -/
def faint : Catalog :=
  (blank.setHeader "Plural-Forms" "nplurals=2; plural=n>1").add ⟨[0x63], none, none, [[], [0x64]]⟩

theorem reachable_faint : Reachable faint :=
  .add _ (.setHeader _ _ reachable_blank)

theorem writable_faint : Writable faint where
  entries e he := by
    have hvalues : faint.entries.values =
        [⟨[0x61], some [0x62], none, [[]]⟩, ⟨[0x63], none, none, [[], [0x64]]⟩] := by decide
    rw [hvalues] at he
    rcases List.mem_pair.1 he with rfl | rfl
    · exact ⟨by decide, by decide, by decide, by decide⟩
    · exact ⟨by decide, by decide, by decide, by decide⟩
  headers field hf := by
    have hfields : faint.headers.fields = [("Plural-Forms", "nplurals=2; plural=n>1")] := by decide
    rw [hfields] at hf
    obtain rfl := List.mem_singleton.1 hf
    exact ⟨by decide, by decide, ⟨by decide, by decide, writtenBreak_not_infix (by decide)⟩,
      ⟨by decide, by decide, writtenBreak_not_infix (by decide)⟩⟩
  length := by decide

theorem lookups_stored_faint : Reachable faint ∧ Writable faint ∧
    ∃ d, (decode (faint.encode .big).value).value = .ok d ∧ SameTexts faint d :=
  ⟨reachable_faint, writable_faint, lookups_stored reachable_faint writable_faint .big⟩

end MessageCatalog.Catalog
