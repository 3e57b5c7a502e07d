import MessageCatalog.Proofs.Catalog.Reachable
import MessageCatalog.Proofs.PoText.Quoted
import MessageCatalog.Proofs.Text.Utf8

/-!
# PO text, read back

The text of a catalog tells all of its entries and its header block. It can be cut into lines,
as no line has a line break within it, and the lines into paragraphs, as no line of a field is
empty. A line that starts with a quote goes on with the string above, and every other line
starts with a keyword, so that a paragraph has its fields back. The keywords then tell where a
context, a plural and the forms stand, and a paragraph with an empty message and no context is
that of the headers, for no entry of a catalog is without a message.

* `ended`, `units`: parts with a terminator behind each, and the parts before the terminators;
* `paragraphs`: the fields that the text of a catalog is made of (`ofCatalog_eq_ended`);
* `readLine?`, `readParagraph?`, `readEntry?`, `read?`: the readers of a line, of a paragraph, of
  an entry, and of a whole text;
* `read?_ofCatalog`: what is read is the header block and the entries by ascending key;
* `ofCatalog_unambiguous`: so two catalogs of one text have the same entries and header block.
-/

namespace MessageCatalog

/-! ### Terminators -/

section Ended

variable {α : Type}

/-- The parts one after the other, with a terminator behind each. -/
def ended (terminator : α) (parts : List (List α)) : List α :=
  parts.flatMap (· ++ [terminator])

theorem ended_append (terminator : α) (parts more : List (List α)) :
    ended terminator (parts ++ more) = ended terminator parts ++ ended terminator more :=
  List.flatMap_append

theorem joined_append_terminator (terminator : α) {parts : List (List α)} (h : parts ≠ []) :
    joined terminator parts ++ [terminator] = ended terminator parts := by
  induction parts with
  | nil => exact absurd rfl h
  | cons part parts ih =>
    by_cases hnil : parts = []
    · subst hnil
      simp [ended, joined]
    · rw [joined_cons hnil, List.append_assoc, List.cons_append, ih hnil]
      simp [ended]

variable [DecidableEq α]

/-- The parts before the terminators. What is behind the last one is left out. -/
def units (terminator : α) (xs : List α) : List (List α) :=
  (pieces terminator xs).dropLast

/-- Parts without the terminator are found again. -/
theorem units_ended {terminator : α} {parts : List (List α)}
    (h : ∀ part ∈ parts, terminator ∉ part) :
    units terminator (ended terminator parts) = parts := by
  suffices hpieces : pieces terminator (ended terminator parts) = parts ++ [[]] by
    rw [units, hpieces, List.dropLast_concat]
  induction parts with
  | nil => rfl
  | cons part parts ih =>
    have hcons : ended terminator (part :: parts) =
        part ++ terminator :: ended terminator parts := by
      simp [ended]
    rw [hcons, pieces_append_cons (h part List.mem_cons_self),
      ih fun p hp => h p (List.mem_cons_of_mem _ hp)]
    rfl

end Ended

namespace PoText

/-! ### Paragraphs of a text -/

/-- The lines of a field: the keyword stands before the first line of its string. -/
def fieldLines (field : String × Bytes) : List Bytes :=
  match contents field.2 with
  | [] => []
  | first :: more =>
    (Utf8.encode field.1.toList ++ ascii ' ' :: quoteLine first) :: more.map quoteLine

theorem field_eq_ended (keyword : String) (bytes : Bytes) :
    field keyword bytes = ended (ascii '\n') (fieldLines (keyword, bytes)) := by
  rw [field, quote_eq, fieldLines]
  have hne := contents_ne_nil bytes
  cases hcontents : contents bytes with
  | nil => exact absurd hcontents hne
  | cons first more =>
    have hquoted : (first :: more).map quoteLine ≠ [] := by simp
    rw [List.append_assoc, List.cons_append, joined_append_terminator _ hquoted]
    simp [ended]

/-- The keyword of the form at an index of a message with a plural. -/
def formKeyword (index : Nat) : String :=
  s!"msgstr[{index}]"

/-- The fields of an entry. -/
def entryFields (e : Entry) : List (String × Bytes) :=
  (match e.context with
    | some context => [("msgctxt", context)]
    | none => []) ++
    ("msgid", e.singular) ::
    match e.plural with
    | none => [("msgstr", (e.form? 0).getD [])]
    | some plural =>
      ("msgid_plural", plural) :: e.forms.zipIdx.map fun (form, index) => (formKeyword index, form)

/-- The fields of headers. -/
def headerFields (h : Headers) : List (String × Bytes) :=
  [("msgid", []), ("msgstr", Utf8.encode h.block.toList ++ [ascii '\n'])]

/-- The paragraphs of a catalog, each with its fields. -/
def paragraphs (c : Catalog) : List (List (String × Bytes)) :=
  (if c.headers.fields = [] then [] else [headerFields c.headers]) ++
    c.entries.values.map entryFields

/-- The text of fields, one after the other. -/
theorem ended_fieldLines (fields : List (String × Bytes)) :
    ended (ascii '\n') (fields.flatMap fieldLines) =
      fields.flatMap fun f => field f.1 f.2 := by
  simp only [field_eq_ended, ended, List.flatMap_assoc]

theorem ofEntry_eq_ended (e : Entry) :
    ofEntry e = ended (ascii '\n') ((entryFields e).flatMap fieldLines ++ [[]]) := by
  rw [ended_append, ended_fieldLines, entryFields, ofEntry, formFields]
  cases e.context <;> cases e.plural <;> simp [ended, List.flatMap_map, formKeyword]

theorem ofHeaders_eq_ended (h : Headers) :
    ofHeaders h = ended (ascii '\n')
      ((if h.fields = [] then [] else [headerFields h]).flatMap
        fun fields => fields.flatMap fieldLines ++ [[]]) := by
  rw [ofHeaders]
  split
  · rfl
  · rw [List.flatMap_singleton, ended_append, ended_fieldLines]
    simp [ended, headerFields]

theorem ofCatalog_eq_ended (c : Catalog) :
    ofCatalog c = ended (ascii '\n')
      (ended [] ((paragraphs c).map fun fields => fields.flatMap fieldLines)) := by
  have hentries : c.entries.values.flatMap ofEntry = ended (ascii '\n')
      ((c.entries.values.map entryFields).flatMap fun fields =>
        fields.flatMap fieldLines ++ [[]]) := by
    rw [funext ofEntry_eq_ended]
    simp only [ended, List.flatMap_map, List.flatMap_assoc]
  have hended : ended [] ((paragraphs c).map fun fields => fields.flatMap fieldLines) =
      (paragraphs c).flatMap fun fields => fields.flatMap fieldLines ++ [[]] := by
    rw [ended, List.flatMap_map]
  rw [hended, paragraphs, List.flatMap_append, ended_append, ← ofHeaders_eq_ended, ← hentries,
    ofCatalog]

/-! ### Readers -/

/-- What a line of a paragraph says. -/
inductive Line
  /-- The keyword of a field, and the first line of its string. -/
  | first (keyword : String) (content : Bytes)
  /-- A further line of the string above. -/
  | further (content : Bytes)

/-- Reads a line. -/
def readLine? (line : Bytes) : Option Line :=
  match unquoteLine? line with
  | some content => some (.further content)
  | none => do
    let (keyword, quoted) ← cut? (ascii ' ') line
    let content ← unquoteLine? quoted
    return .first (String.ofList (Utf8.decodeLossy keyword)) content

/-- Reads lines: gives what belongs to a string above them, and the fields that follow. -/
def readLines? : List Bytes → Option (Bytes × List (String × Bytes))
  | [] => some ([], [])
  | line :: lines => do
    let (above, fields) ← readLines? lines
    match ← readLine? line with
    | .further content => return (content ++ above, fields)
    | .first keyword content => return ([], (keyword, content ++ above) :: fields)

/-- Reads the fields of a paragraph. -/
def readParagraph? (lines : List Bytes) : Option (List (String × Bytes)) := do
  let (above, fields) ← readLines? lines
  if above = [] then some fields else none

/-- The string of the first field, if it has this keyword, and the other fields. -/
def take? (keyword : String) : List (String × Bytes) → Option (Bytes × List (String × Bytes))
  | [] => none
  | field :: fields => if field.1 = keyword then some (field.2, fields) else none

/-- Reads the forms of a message with a plural, from an index on. -/
def readForms? (index : Nat) : List (String × Bytes) → Option (List Bytes)
  | [] => some []
  | field :: fields =>
    if field.1 = formKeyword index then (readForms? (index + 1) fields).map (field.2 :: ·)
    else none

/-- Reads what follows the message of an entry: the plural, if there is one, and the forms. -/
def readPlural? (fields : List (String × Bytes)) : Option (Option Bytes × List Bytes) :=
  match take? "msgid_plural" fields with
  | some (plural, fields) => (readForms? 0 fields).map fun forms => (some plural, forms)
  | none => do
    let (form, fields) ← take? "msgstr" fields
    if fields = [] then some (none, [form]) else none

/-- Reads the entry of a paragraph. -/
def readEntry? (fields : List (String × Bytes)) : Option Entry := do
  let (context, fields) := match take? "msgctxt" fields with
    | some (context, fields) => (some context, fields)
    | none => (none, fields)
  let (singular, fields) ← take? "msgid" fields
  let (plural, forms) ← readPlural? fields
  return { singular, plural, context, forms }

/-- The string that holds the header block, if the paragraph is that of the headers. -/
def headerBlock? (fields : List (String × Bytes)) : Option Bytes := do
  let (message, fields) ← take? "msgid" fields
  if message = [] then (take? "msgstr" fields).map (·.1) else none

/-- The header block, which is empty if there is no paragraph of the headers, and the other
    paragraphs. -/
def splitHeaders : List (List (String × Bytes)) → String × List (List (String × Bytes))
  | [] => ("", [])
  | fields :: paragraphs =>
    match headerBlock? fields with
    | some block => (String.ofList (Utf8.decodeLossy block.dropLast), paragraphs)
    | none => ("", fields :: paragraphs)

/-- Reads a text: gives the header block and the entries. -/
def read? (text : Bytes) : Option (String × List Entry) := do
  let paragraphs ← (units [] (units (ascii '\n') text)).mapM readParagraph?
  let (block, paragraphs) := splitHeaders paragraphs
  return (block, ← paragraphs.mapM readEntry?)

/-! ### Keywords -/

/-- Keywords have no control characters, blanks or quotes, and only ASCII characters. -/
def IsKeyword (keyword : String) : Prop :=
  ∀ c ∈ keyword.toList, 0x23 ≤ c.toNat ∧ c.toNat < 0x7F

instance : DecidablePred IsKeyword := fun keyword =>
  List.decidableBAll _ keyword.toList

theorem isKeyword_formKeyword (index : Nat) : IsKeyword (formKeyword index) := by
  intro c hc
  have hbefore : IsKeyword "msgstr[" := by decide
  have hafter : IsKeyword "]" := by decide
  have htext : formKeyword index = "msgstr[" ++ toString index ++ "]" := rfl
  rw [htext, String.toList_append, String.toList_append, List.mem_append, List.mem_append] at hc
  obtain (hc | hc) | hc := hc
  · exact hbefore c hc
  · have hdigit : c.isDigit = true := by
      refine Nat.isDigit_of_mem_toDigits (b := 10) (by decide) (by decide) (n := index) ?_
      simpa [toString] using hc
    simp only [Char.isDigit, ge_iff_le, Bool.and_eq_true, decide_eq_true_eq] at hdigit
    have hlow := UInt32.le_iff_toNat_le.1 hdigit.1
    have hhigh := UInt32.le_iff_toNat_le.1 hdigit.2
    exact ⟨Nat.le_trans (by decide) hlow, Nat.lt_of_le_of_lt hhigh (by decide)⟩
  · exact hafter c hc

theorem isKeyword_entryFields (e : Entry) : ∀ field ∈ entryFields e, IsKeyword field.1 := by
  have hcontext : IsKeyword "msgctxt" := by decide
  have hmessage : IsKeyword "msgid" := by decide
  have hplural : IsKeyword "msgid_plural" := by decide
  have hform : IsKeyword "msgstr" := by decide
  have hforms : ∀ field ∈ e.forms.zipIdx.map fun (form, index) => (formKeyword index, form),
      IsKeyword field.1 := by
    intro field hfield
    obtain ⟨⟨form, index⟩, -, rfl⟩ := List.mem_map.1 hfield
    exact isKeyword_formKeyword index
  rw [entryFields]
  cases e.context <;> cases e.plural <;>
    simp only [List.nil_append, List.singleton_append, List.forall_mem_cons]
  case none.none => exact ⟨hmessage, hform, nofun⟩
  case none.some => exact ⟨hmessage, hplural, hforms⟩
  case some.none => exact ⟨hcontext, hmessage, hform, nofun⟩
  case some.some => exact ⟨hcontext, hmessage, hplural, hforms⟩

theorem isKeyword_of_mem_paragraphs {c : Catalog} {fields : List (String × Bytes)}
    (h : fields ∈ paragraphs c) : ∀ field ∈ fields, IsKeyword field.1 := by
  rcases List.mem_append.1 h with h | h
  · split at h
    · cases h
    · obtain rfl := List.mem_singleton.1 h
      simp only [headerFields, List.forall_mem_cons]
      exact ⟨by decide, by decide, nofun⟩
  · obtain ⟨e, -, rfl⟩ := List.mem_map.1 h
    exact isKeyword_entryFields e

/-- The bytes of a keyword are those of its characters. -/
theorem IsKeyword.of_mem_encode {keyword : String} (h : IsKeyword keyword) {b : UInt8}
    (hb : b ∈ Utf8.encode keyword.toList) : 0x23 ≤ b.toNat ∧ b.toNat < 0x7F := by
  obtain ⟨c, hc, hb⟩ := List.mem_flatMap.1 hb
  obtain ⟨hlow, hhigh⟩ := h c hc
  have hascii : String.utf8EncodeChar c = [UInt8.ofNat c.toNat] := by
    rw [String.utf8EncodeChar]
    exact if_pos (by show c.toNat ≤ 127; omega)
  rw [hascii, List.mem_singleton] at hb
  rw [hb, Utf8.toNat_byte (by omega)]
  exact ⟨hlow, hhigh⟩

theorem IsKeyword.not_mem_encode {keyword : String} (h : IsKeyword keyword) {b : UInt8}
    (hb : b.toNat < 0x23) : b ∉ Utf8.encode keyword.toList :=
  fun hmem => absurd hb (Nat.not_lt.2 (h.of_mem_encode hmem).1)

/-! ### Lines are read back -/

/-- A further line of a string is read. -/
theorem readLine?_quoteLine (line : Bytes) : readLine? (quoteLine line) = some (.further line) := by
  rw [readLine?, unquoteLine?_quoteLine]

/-- The first line of a field is read: its keyword does not start with a quote, and ends at the
    first blank. -/
theorem readLine?_keyword {keyword : String} (h : IsKeyword keyword) (line : Bytes) :
    readLine? (Utf8.encode keyword.toList ++ ascii ' ' :: quoteLine line) =
      some (.first keyword line) := by
  have hquote :
      unquoteLine? (Utf8.encode keyword.toList ++ ascii ' ' :: quoteLine line) = none := by
    have hnot := h.not_mem_encode (b := ascii '"') (by decide)
    cases hk : Utf8.encode keyword.toList with
    | nil => rfl
    | cons b bytes =>
      rw [hk, List.mem_cons, not_or] at hnot
      exact if_neg (Ne.symm hnot.1)
  have hcut : cut? (ascii ' ') (Utf8.encode keyword.toList ++ ascii ' ' :: quoteLine line) =
      some (Utf8.encode keyword.toList, quoteLine line) :=
    cut?_eq_some_iff.2 ⟨rfl, h.not_mem_encode (by decide)⟩
  simp [readLine?, hquote, hcut, unquoteLine?_quoteLine, Utf8.decodeLossy_encode]

theorem readLines?_further {lines : List Bytes} {above : Bytes} {fields : List (String × Bytes)}
    (h : readLines? lines = some (above, fields)) (more : List Bytes) :
    readLines? (more.map quoteLine ++ lines) = some (more.flatten ++ above, fields) := by
  induction more with
  | nil => exact h
  | cons line more ih =>
    simp [readLines?, ih, readLine?_quoteLine]

/-- The lines of a field are read as the field, before the fields that follow. -/
theorem readLines?_fieldLines {lines : List Bytes} {fields : List (String × Bytes)}
    (h : readLines? lines = some ([], fields)) {field : String × Bytes} (hkey : IsKeyword field.1) :
    readLines? (fieldLines field ++ lines) = some ([], field :: fields) := by
  have hcontents := flatten_contents field.2
  have hne := contents_ne_nil field.2
  rw [fieldLines]
  cases hc : contents field.2 with
  | nil => exact absurd hc hne
  | cons first more =>
    rw [hc, List.flatten_cons] at hcontents
    simp [readLines?, readLines?_further h, readLine?_keyword hkey, hcontents]

/-- A paragraph is read as its fields. -/
theorem readParagraph?_fieldLines {fields : List (String × Bytes)}
    (h : ∀ field ∈ fields, IsKeyword field.1) :
    readParagraph? (fields.flatMap fieldLines) = some fields := by
  suffices hlines : readLines? (fields.flatMap fieldLines) = some ([], fields) by
    simp [readParagraph?, hlines]
  induction fields with
  | nil => rfl
  | cons field fields ih =>
    rw [List.flatMap_cons]
    exact readLines?_fieldLines (ih fun f hf => h f (List.mem_cons_of_mem _ hf))
      (h field List.mem_cons_self)

/-- No line of a field is empty, and none has a line break. -/
theorem fieldLines_spec {field : String × Bytes} (h : IsKeyword field.1) {line : Bytes}
    (hline : line ∈ fieldLines field) : line ≠ [] ∧ ascii '\n' ∉ line := by
  rw [fieldLines] at hline
  split at hline
  case h_1 => cases hline
  case h_2 first more _ =>
    rcases List.mem_cons.1 hline with rfl | hline
    · refine ⟨by simp, ?_⟩
      rw [List.mem_append, List.mem_cons, not_or, not_or]
      exact ⟨h.not_mem_encode (by decide), by decide, newline_not_mem_quoteLine first⟩
    · obtain ⟨content, -, rfl⟩ := List.mem_map.1 hline
      exact ⟨by simp [quoteLine], newline_not_mem_quoteLine content⟩

/-! ### Entries are read back -/

theorem readForms?_forms (forms : List Bytes) (index : Nat) :
    readForms? index ((forms.zipIdx index).map fun (form, index) => (formKeyword index, form)) =
      some forms := by
  induction forms generalizing index with
  | nil => rfl
  | cons form forms ih => simp [readForms?, ih]

theorem readEntry?_entryFields {e : Entry} (h : e.plural = none → e.forms.length = 1) :
    readEntry? (entryFields e) = some e := by
  obtain ⟨singular, plural, context, forms⟩ := e
  cases plural with
  | some plural =>
    cases context <;> simp [entryFields, readEntry?, readPlural?, take?, readForms?_forms]
  | none =>
    obtain ⟨form, rfl⟩ := List.length_eq_one_iff.1 (h rfl)
    cases context <;> simp [entryFields, readEntry?, readPlural?, take?, Entry.form?]

theorem headerBlock?_entryFields {e : Entry} (h : e.singular ≠ []) :
    headerBlock? (entryFields e) = none := by
  cases hcontext : e.context <;> simp [entryFields, headerBlock?, take?, hcontext, h]

theorem splitHeaders_entries {entries : List Entry} (h : ∀ e ∈ entries, e.singular ≠ []) :
    splitHeaders (entries.map entryFields) = ("", entries.map entryFields) := by
  cases entries with
  | nil => rfl
  | cons e entries =>
    rw [List.map_cons, splitHeaders, headerBlock?_entryFields (h e List.mem_cons_self)]

theorem splitHeaders_paragraphs {c : Catalog} (h : ∀ e ∈ c.entries.values, e.singular ≠ []) :
    splitHeaders (paragraphs c) = (c.headers.block, c.entries.values.map entryFields) := by
  rw [paragraphs]
  split
  case isTrue hnone =>
    have hblock : c.headers.block = "" := by rw [Headers.block, hnone]; rfl
    rw [hblock]
    exact splitHeaders_entries h
  case isFalse =>
    simp [splitHeaders, headerFields, headerBlock?, take?, Utf8.decodeLossy_encode]

theorem mapM_map_eq_some {α β : Type} {f : β → Option α} {g : α → β} {xs : List α}
    (h : ∀ x ∈ xs, f (g x) = some x) : (xs.map g).mapM f = some xs := by
  induction xs with
  | nil => rfl
  | cons x xs ih =>
    simp [h x List.mem_cons_self, ih fun y hy => h y (List.mem_cons_of_mem _ hy)]

/-! ### Texts are read back -/

/-- The lines of a text are found, and so are its paragraphs. -/
theorem units_ofCatalog (c : Catalog) : units [] (units (ascii '\n') (ofCatalog c)) =
    (paragraphs c).map fun fields => fields.flatMap fieldLines := by
  have hlines : ∀ part ∈ (paragraphs c).map fun fields => fields.flatMap fieldLines,
      ∀ line ∈ part, line ≠ [] ∧ ascii '\n' ∉ line := by
    intro part hpart line hline
    obtain ⟨fields, hfields, rfl⟩ := List.mem_map.1 hpart
    obtain ⟨field, hfield, hline⟩ := List.mem_flatMap.1 hline
    exact fieldLines_spec (isKeyword_of_mem_paragraphs hfields field hfield) hline
  rw [ofCatalog_eq_ended, units_ended, units_ended]
  · exact fun part hpart hmem => (hlines part hpart [] hmem).1 rfl
  · intro line hline
    obtain ⟨part, hpart, hline⟩ := List.mem_flatMap.1 hline
    rcases List.mem_append.1 hline with hline | hline
    · exact (hlines part hpart line hline).2
    · rw [List.mem_singleton.1 hline]
      exact List.not_mem_nil

/-- Every message without a plural has exactly one form. The text of such a message shows its
    first form and no other, and an empty one if there is none. -/
def SingleForms (c : Catalog) : Prop :=
  ∀ e ∈ c.entries.values, e.plural = none → e.forms.length = 1

theorem singular_ne_nil {c : Catalog} (h : c.Sound) {e : Entry} (he : e ∈ c.entries.values) :
    e.singular ≠ [] := by
  obtain ⟨p, hp, rfl⟩ := List.mem_map.1 he
  simpa [Entry.hasMessage] using h.message p hp

/-- The text of a catalog is read as its header block and its entries. -/
theorem read?_ofCatalog {c : Catalog} (h : c.Sound) (hforms : SingleForms c) :
    read? (ofCatalog c) = some (c.headers.block, c.entries.values) := by
  have hparagraphs : ((paragraphs c).map fun fields => fields.flatMap fieldLines).mapM
      readParagraph? = some (paragraphs c) :=
    mapM_map_eq_some fun fields hfields =>
      readParagraph?_fieldLines (isKeyword_of_mem_paragraphs hfields)
  have hheaders := splitHeaders_paragraphs fun e he => singular_ne_nil h he
  have hentries : (c.entries.values.map entryFields).mapM readEntry? = some c.entries.values :=
    mapM_map_eq_some fun e he => readEntry?_entryFields (hforms e he)
  simp [read?, units_ofCatalog, hparagraphs, hheaders, hentries]

/-! ### Texts of two catalogs -/

/-- Entries that are under their own keys tell the map. -/
theorem entries_eq_of_values_eq {c c' : Catalog} (hc : c.Sound) (hc' : c'.Sound)
    (h : c.entries.values = c'.entries.values) : c.entries = c'.entries := by
  have htoList : ∀ {c : Catalog}, c.Sound →
      c.entries.toList = c.entries.values.map fun e => (e.key, e) := by
    intro c hc
    rw [KeyMap.values, List.map_map]
    exact (List.map_id _).symm.trans
      (List.map_congr_left fun p hp => Prod.ext (hc.keyed p hp) rfl)
  refine KeyMap.ext fun key => ?_
  rw [KeyMap.find?, KeyMap.find?, htoList hc, htoList hc', h]

/-- The text of a catalog can be read: it tells the header block and the entries. So catalogs of
    one text agree in both. -/
theorem ofCatalog_unambiguous {c c' : Catalog} (hc : Catalog.Reachable c)
    (hc' : Catalog.Reachable c') (hforms : SingleForms c) (hforms' : SingleForms c') :
    read? (ofCatalog c) = some (c.headers.block, c.entries.values) ∧
      (ofCatalog c = ofCatalog c' →
        c.entries = c'.entries ∧ c.headers.block = c'.headers.block) := by
  have hread := read?_ofCatalog hc.sound hforms
  have hread' := read?_ofCatalog hc'.sound hforms'
  refine ⟨hread, fun htext => ?_⟩
  rw [htext, hread', Option.some.injEq, Prod.mk.injEq] at hread
  exact ⟨entries_eq_of_values_eq hc.sound hc'.sound hread.2.symm, hread.1.symm⟩

/-- A catalog with messages that look like other parts of a text: one that starts like the
    headers, one without any form, and one with bytes that are no text. -/
def riddles : Catalog :=
  let quoted : Entry :=
    { singular := Utf8.encode "msgid \"\"\nmsgstr \"a\"\n\nb".toList, plural := none,
      context := none, forms := [Utf8.encode "\\n\n\n".toList] }
  let formless : Entry :=
    { singular := [0xFF], plural := some [], context := some [], forms := [] }
  let raw : Entry :=
    { singular := [0x00], plural := some [0x0A], context := some [0x22],
      forms := [[], [0x01, 0x31]] }
  ((Catalog.empty.add quoted).add formless).add raw

theorem reachable_riddles : Catalog.Reachable riddles :=
  ((Catalog.Reachable.empty.add _).add _).add _

theorem singleForms_riddles : SingleForms riddles := by
  unfold SingleForms
  decide

/-- The riddles with a header of two lines. -/
def riddlesFolded : Catalog :=
  riddles.setHeader "A" "b\nC: d"

/-- The riddles with the same two lines as two headers. -/
def riddlesPlain : Catalog :=
  (riddles.setHeader "A" "b").setHeader "C" "d"

/-- Two catalogs of one text need not have the same headers, but have the same block. -/
theorem ofCatalog_unambiguous_riddles :
    riddlesFolded.headers ≠ riddlesPlain.headers ∧
      read? (ofCatalog riddlesFolded) = some ("A: b\nC: d", riddles.entries.values) ∧
      ofCatalog riddlesFolded = ofCatalog riddlesPlain ∧
      riddlesFolded.headers.block = riddlesPlain.headers.block := by
  have hfolded : Catalog.Reachable riddlesFolded := reachable_riddles.setHeader _ _
  have hplain : Catalog.Reachable riddlesPlain :=
    (reachable_riddles.setHeader _ _).setHeader _ _
  have htext : ofCatalog riddlesFolded = ofCatalog riddlesPlain := by decide +kernel
  obtain ⟨hread, hsame⟩ :=
    ofCatalog_unambiguous hfolded hplain singleForms_riddles singleForms_riddles
  exact ⟨by decide, hread, htext, (hsame htext).2⟩

end PoText

end MessageCatalog
