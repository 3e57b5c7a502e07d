import MessageCatalog.Proofs.Workspace.Content

/-!
# Catalogs in hash tables

The entries of a catalog may be kept in a hash table, whose rows come in an order of its own
(`Table`). A change may put them in any other order, and a merge goes through the guest in
the order of its rows. Nothing of this shows in what is written of a catalog: no two rows have
the same key, so there is only one way to sort them by key, and entries with different keys
may be written in any order. Nor does anything else of a history show there, only what it
led to.

* `Content.after_writes_perm`: the order in which entries with different keys are written;
* `Table.Lists.sorted_eq`: what the rows of a map, in whatever order, are sorted to;
* `tabled_iff`: the tables of a run are those that list its catalogs, in every order;
* `output_of_content`: what is written of catalogs with the same content, after any runs.
-/

namespace MessageCatalog

/-- A catalog as a hash table, and its headers. -/
structure Table where
  /-- The keys and their entries, in the order of the table. -/
  rows : List (Bytes × Entry)
  /-- The headers. -/
  headers : Headers

/-- The changes by adding rows, in order. -/
def Change.ofRows (rows : List (Bytes × Entry)) : List Change :=
  rows.map fun row => write row.1 row.2

/-! ### Tables -/

namespace Table

/-- The table without rows. -/
def empty : Table :=
  ⟨[], Headers.empty⟩

/-- The table after a change. -/
def apply (t : Table) : Change → Table
  | .write key e => { t with rows := (key, e) :: t.rows.filter (·.1 != key) }
  | .removal key => { t with rows := t.rows.filter (·.1 != key) }
  | .header name value => { t with headers := t.headers.set name value }

/-- The table after changes. -/
def after (t : Table) (changes : List Change) : Table :=
  changes.foldl apply t

/-- The entries, after the rows are sorted by key. -/
def sorted (t : Table) : List Entry :=
  (t.rows.mergeSort fun a b => decide (a.1 ≤ b.1)).map (·.2)

/-- The image of a table: its headers, and its translated entries in the order of keys. -/
def image (t : Table) (order : ByteOrder) : Bytes :=
  Image.layout order (([], Utf8.encode t.headers.block.toList) ::
    (t.sorted.filter fun e => !e.isUntranslated).map fun e => (e.msgid, e.msgstr))

/-- The text of a table: its headers, and its entries in the order of keys. -/
def text (t : Table) : Bytes :=
  PoText.ofHeaders t.headers ++ t.sorted.flatMap PoText.ofEntry

/-- The same rows, perhaps in another order. -/
structure Reorders (t t' : Table) : Prop where
  rows : t.rows.Perm t'.rows
  headers : t.headers = t'.headers

/-- The rows are the associations of a map, in some order. -/
structure Lists (t : Table) (content : Content) : Prop where
  rows : t.rows.Perm content.entries.toList
  headers : t.headers = content.headers

variable {t : Table} {content : Content}

theorem lists_empty : Lists empty Content.empty where
  rows := .nil
  headers := rfl

/-- A change keeps a table the listing of a map. -/
theorem Lists.apply (h : Lists t content) (change : Change) :
    Lists (t.apply change) (content.apply change) := by
  cases change with
  | write key e =>
    refine ⟨?_, h.headers⟩
    exact ((h.rows.filter _).cons (key, e)).trans (KeyMap.toList_insert_perm content.entries key e)
  | removal key => exact ⟨h.rows.filter _, h.headers⟩
  | header name value => exact ⟨h.rows, congrArg (·.set name value) h.headers⟩

theorem Lists.after (h : Lists t content) (changes : List Change) :
    Lists (t.after changes) (content.after changes) := by
  induction changes generalizing t content with
  | nil => exact h
  | cons change changes ih => exact ih (h.apply change)

theorem Lists.reorder {t' : Table} (h : Lists t content) (ht : Reorders t t') :
    Lists t' content :=
  ⟨ht.rows.symm.trans h.rows, ht.headers.symm.trans h.headers⟩

/-- Sorting a listing of a map gives its entries by ascending key. -/
theorem Lists.sorted_eq (h : Lists t content) : t.sorted = content.entries.values := by
  have hsorted : (t.rows.mergeSort fun a b => decide (a.1 ≤ b.1)).Pairwise
      fun a b => decide (a.1 ≤ b.1) = true := by
    refine List.pairwise_mergeSort (fun a b c hab hbc => ?_) (fun a b => ?_) t.rows
    · exact decide_eq_true (List.le_trans (of_decide_eq_true hab) (of_decide_eq_true hbc))
    · simpa using List.le_total a.1 b.1
  have hascending : content.entries.toList.Pairwise fun a b => decide (a.1 ≤ b.1) = true :=
    content.entries.ascending.imp fun hlt => decide_eq_true (List.le_of_lt hlt)
  have hperm := (List.mergeSort_perm t.rows fun a b => decide (a.1 ≤ b.1)).trans h.rows
  -- Different associations have different keys, so there is only one way to sort them.
  have heq := List.Perm.eq_of_pairwise (fun a b ha hb hab hba => ?_) hsorted hascending hperm
  · rw [sorted, heq, KeyMap.values]
  · exact KeyMap.eq_of_mem_of_key_eq (hperm.mem_iff.1 ha) hb
      (List.le_antisymm (of_decide_eq_true hab) (of_decide_eq_true hba))

/-- The image of a listing is the one of the catalog. -/
theorem Lists.image_eq {c : Catalog} (h : Lists t c.content) (order : ByteOrder) :
    t.image order = c.image order := by
  rw [image, h.sorted_eq, h.headers]
  rfl

/-- The text of a listing is the one of the catalog. -/
theorem Lists.text_eq {c : Catalog} (h : Lists t c.content) : t.text = PoText.ofCatalog c := by
  rw [text, h.sorted_eq, h.headers]
  rfl

end Table

/-- Entries with different keys may be written in any order. -/
theorem Content.after_writes_perm {rows : List (Bytes × Entry)} {m : KeyMap Entry}
    (h : rows.Perm m.toList) (content : Content) :
    content.after (Change.ofRows rows) = content.after (Change.ofMap m) := by
  rw [after, after, Change.ofRows, Change.ofMap, List.foldl_map, List.foldl_map]
  refine h.foldl_eq' (fun p hp q hq content => ?_) content
  by_cases hkey : p.1 = q.1
  · rw [KeyMap.eq_of_mem_of_key_eq (h.mem_iff.1 hp) (h.mem_iff.1 hq) hkey]
  · exact congrArg (Content.mk · content.headers) (content.entries.insert_comm hkey p.2 q.2)

/-! ### Runs -/

namespace Workspace

/-- For each slot, the table of its catalog. -/
abbrev Tables := String → Table

/-- The table in a slot of a lineage. -/
def Tables.extended (tables : Tables) (slot : String) : Lineage → Table
  | .changed changes => (tables slot).after changes
  | .begun changes => Table.empty.after changes
  | .copied source => tables source

/-- The table in a slot after a step that succeeds. A merge goes through the table of the
    guest. -/
def Tables.evolved (tables : Tables) (w : Workspace) (slot : String) : Step → Table
  | .merge guest => (tables slot).after (Change.ofRows (tables guest).rows)
  | s => tables.extended slot (w.lineage s)

/-- The tables after one more step. -/
def Tables.record (tables : Tables) (w : Workspace) (slot : String) (s : Step) : Tables :=
  recorded tables w slot s (tables.evolved w slot s)

/-- The tables that steps in turn lead to. At any time, rows may come in another order. -/
inductive Tabled : List (String × Step) → Tables → Prop
  | empty : Tabled [] fun _ => Table.empty
  | perform {steps : List (String × Step)} {tables : Tables} (slot : String) (s : Step) :
      Tabled steps tables →
        Tabled (steps ++ [(slot, s)]) (tables.record (Workspace.empty.after steps) slot s)
  | reorder {steps : List (String × Step)} {tables tables' : Tables} :
      Tabled steps tables → (∀ slot, (tables slot).Reorders (tables' slot)) → Tabled steps tables'

section Steps

variable {w : Workspace} {tables : Tables}

/-- The table of a lineage lists the catalog that descends so. -/
theorem lists_extended (h : ∀ slot, (tables slot).Lists (w.catalog slot).content) {slot : String}
    {lineage : Lineage} {c' : Catalog} (hdescends : w.Descends slot lineage c') :
    (tables.extended slot lineage).Lists c'.content := by
  cases lineage with
  | changed changes =>
    rw [show c'.content = _ from hdescends]
    exact (h slot).after changes
  | begun changes =>
    rw [show c'.content = _ from hdescends]
    exact Table.lists_empty.after changes
  | copied source =>
    rw [show c'.content = _ from hdescends]
    exact h source

/-- The table that a step makes lists the catalog that descends from the step. -/
theorem lists_evolved (h : ∀ slot, (tables slot).Lists (w.catalog slot).content) {slot : String}
    {s : Step} {c' : Catalog} (hdescends : w.Descends slot (w.lineage s) c') :
    (tables.evolved w slot s).Lists c'.content := by
  cases s with
  | merge guest =>
    have hguest : (w.catalog slot).content.after (Change.ofRows (tables guest).rows) =
        (w.catalog slot).content.after (Change.ofMap (w.catalog guest).entries) :=
      Content.after_writes_perm (h guest).rows _
    rw [show c'.content = _ from hdescends, ← hguest]
    exact (h slot).after _
  | _ => exact lists_extended h hdescends

/-- A step keeps tables listings of the catalogs. -/
theorem lists_record (h : ∀ slot, (tables slot).Lists (w.catalog slot).content) (slot : String)
    (s : Step) (other : String) :
    (tables.record w slot s other).Lists ((w.perform slot s).value.2.catalog other).content :=
  forall_recorded (R := fun t c => Table.Lists t c.content) h (step_descends w slot s) _
    (fun _ => lists_evolved h) other

end Steps

variable {steps : List (String × Step)} {tables : Tables}

theorem after_append_singleton (w : Workspace) (steps : List (String × Step)) (slot : String)
    (s : Step) : w.after (steps ++ [(slot, s)]) = ((w.after steps).perform slot s).value.2 :=
  List.foldl_append

/-- The tables of a run list its catalogs. -/
theorem Tabled.lists (h : Tabled steps tables) (slot : String) :
    (tables slot).Lists ((Workspace.empty.after steps).catalog slot).content := by
  induction h generalizing slot with
  | empty => exact Table.lists_empty
  | perform slot' s _ ih =>
    rw [after_append_singleton]
    exact lists_record ih slot' s slot
  | reorder _ hreorder ih => exact (ih slot).reorder (hreorder slot)

/-- Every run has tables. -/
theorem exists_tabled (steps : List (String × Step)) : ∃ tables, Tabled steps tables := by
  induction steps using List.reverseRecOn with
  | nil => exact ⟨_, .empty⟩
  | append_singleton steps s ih =>
    obtain ⟨tables, h⟩ := ih
    exact ⟨_, h.perform s.1 s.2⟩

/-- The tables of a run are those that list its catalogs, in every order. -/
theorem tabled_iff : Tabled steps tables ↔
    ∀ slot, (tables slot).Lists ((empty.after steps).catalog slot).content := by
  refine ⟨Tabled.lists, fun h => ?_⟩
  obtain ⟨tables', htables⟩ := exists_tabled steps
  refine htables.reorder fun slot => ⟨?_, ?_⟩
  · exact (htables.lists slot).rows.trans (h slot).rows.symm
  · exact (htables.lists slot).headers.trans (h slot).headers.symm

/-! ### Output -/

/-- An image in each order of bytes and a text are what is written of the catalog in a slot,
    and of a table of this catalog. -/
structure Writes (w : Workspace) (slot : String) (t : Table) (image : ByteOrder → Bytes)
    (text : Bytes) : Prop where
  answer_encode : ∀ order, (w.perform slot (.encode order)).value.1 = .ok (.bytes (image order))
  answer_text : (w.perform slot .text).value.1 = .ok (.bytes text)
  image_eq : ∀ order, t.image order = image order
  text_eq : t.text = text

/-- A catalog is written as any table that lists it, and as any catalog with its content. -/
theorem writes_of_lists {w : Workspace} {slot : String} {t : Table} {c : Catalog}
    (h : t.Lists (w.catalog slot).content) (hc : (w.catalog slot).content = c.content) :
    Writes w slot t c.image (PoText.ofCatalog c) := by
  have hlists : t.Lists c.content := hc ▸ h
  refine ⟨fun order => ?_, ?_, hlists.image_eq, hlists.text_eq⟩
  · rw [← hlists.image_eq, h.image_eq]
    rfl
  · rw [← hlists.text_eq, h.text_eq]
    rfl

/-- What is written of a catalog shows nothing but what it holds. If two runs lead to catalogs
    with the same entry under every key, and the same headers, then their images are the same
    in each order of bytes, and so are their texts, whatever the orders in which the rows of
    their tables come. -/
theorem output_of_content {steps₁ steps₂ : List (String × Step)} {tables₁ tables₂ : Tables}
    (h₁ : Tabled steps₁ tables₁) (h₂ : Tabled steps₂ tables₂) {slot₁ slot₂ : String}
    (hentries : ∀ key, ((empty.after steps₁).catalog slot₁).entries.find? key =
      ((empty.after steps₂).catalog slot₂).entries.find? key)
    (hheaders : ((empty.after steps₁).catalog slot₁).headers =
      ((empty.after steps₂).catalog slot₂).headers) :
    ∃ image text, Writes (empty.after steps₁) slot₁ (tables₁ slot₁) image text ∧
      Writes (empty.after steps₂) slot₂ (tables₂ slot₂) image text := by
  have hcontent : ((empty.after steps₁).catalog slot₁).content =
      ((empty.after steps₂).catalog slot₂).content := by
    rw [Catalog.content, Catalog.content, KeyMap.ext hentries, hheaders]
  exact ⟨_, _, writes_of_lists (h₁.lists slot₁) hcontent, writes_of_lists (h₂.lists slot₂) rfl⟩

/-- Two entries and a header. -/
def draft : List (String × Step) :=
  [("draft", .add ⟨[0x61], none, none, [[0x41]]⟩), ("draft", .add ⟨[0x62], none, none, [[0x42]]⟩),
    ("draft", .setHeaders [("Language", "bg")])]

/-- The entries and the header of the draft, by way of others. -/
def revision : List (String × Step) :=
  [("old", .setHeaders [("Language", "mk")]), ("old", .add ⟨[0x62], none, none, [[0x43]]⟩),
    ("old", .select [1]), ("guest", .add ⟨[0x63], none, none, [[0x43]]⟩),
    ("guest", .add ⟨[0x61], none, none, [[0x41]]⟩), ("old", .merge "guest"),
    ("new", .copy "old"), ("new", .add ⟨[0x62], none, none, [[0x42]]⟩),
    ("new", .remove [0x63] none), ("new", .setHeaders [("Language", "bg")])]

/-- The rows of the one table come in the opposite order of the rows of the other one. -/
theorem output_of_content_revision :
    ∃ tables₁ tables₂, Tabled draft tables₁ ∧ Tabled revision tables₂ ∧
      (tables₁ "draft").rows = (tables₂ "new").rows.reverse ∧
      (tables₁ "draft").rows ≠ (tables₂ "new").rows ∧
      (∀ key, ((empty.after draft).catalog "draft").entries.find? key =
        ((empty.after revision).catalog "new").entries.find? key) ∧
      ((empty.after draft).catalog "draft").headers =
        ((empty.after revision).catalog "new").headers ∧
      ∃ image text, Writes (empty.after draft) "draft" (tables₁ "draft") image text ∧
        Writes (empty.after revision) "new" (tables₂ "new") image text := by
  let tables₁ : Tables := fun slot =>
    ⟨((empty.after draft).catalog slot).entries.toList.reverse,
      ((empty.after draft).catalog slot).headers⟩
  let tables₂ : Tables := fun slot =>
    ⟨((empty.after revision).catalog slot).entries.toList,
      ((empty.after revision).catalog slot).headers⟩
  have h₁ : Tabled draft tables₁ := tabled_iff.2 fun slot => ⟨List.reverse_perm _, rfl⟩
  have h₂ : Tabled revision tables₂ := tabled_iff.2 fun slot => ⟨.refl _, rfl⟩
  have hentries : ((empty.after draft).catalog "draft").entries =
      ((empty.after revision).catalog "new").entries := rfl
  have hheaders : ((empty.after draft).catalog "draft").headers =
      ((empty.after revision).catalog "new").headers := rfl
  refine ⟨tables₁, tables₂, h₁, h₂, rfl, by decide, fun key => by rw [hentries], hheaders, ?_⟩
  exact output_of_content h₁ h₂ (fun key => by rw [hentries]) hheaders

end Workspace

end MessageCatalog
