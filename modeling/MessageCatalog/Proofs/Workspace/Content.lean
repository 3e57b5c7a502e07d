import MessageCatalog.Proofs.Catalog.Meaning
import MessageCatalog.Proofs.Workspace

/-!
# What catalogs in workspaces hold

A catalog is a map from keys to entries, and headers in order. Whatever is done with it
comes to changes one after the other (`Change`): an entry is written under a key, a key is
removed, or a header is set. A step changes the catalog in its slot, or begins another one
there, or puts a copy of one there (`Workspace.lineage`); so every catalog has its changes
since it began, those of its originals included (`changesFrom`). They tell what it holds:
under a key is what the last change wrote that concerns the key, if it wrote anything.

* `Content.find?_after_iff`: the last change that concerns a key;
* `step_descends`: what a step makes of the catalog in its slot;
* `Traced.perform`, `Traced.after`: every catalog is what its changes lead to, after a step
  and after a run;
* `holds_after`: what every catalog of a run holds, and what a step leaves alone.
-/

namespace MessageCatalog

/-- A change of what a catalog holds. -/
inductive Change where
  /-- An entry is written under a key. -/
  | write (key : Bytes) (entry : Entry)
  /-- A key is removed. -/
  | removal (key : Bytes)
  /-- A header is set. -/
  | header (name value : String)

/-- What a catalog holds. -/
structure Content where
  /-- The entries, under their keys. -/
  entries : KeyMap Entry
  /-- The headers. -/
  headers : Headers

/-- What a catalog holds, whether its rule is compiled or not. -/
def Catalog.content (c : Catalog) : Content :=
  ⟨c.entries, c.headers⟩

namespace Change

/-- The change is one of what is under a key. -/
def Concerns (key : Bytes) : Change → Prop
  | write k _ | removal k => k = key
  | header .. => False

/-- The header that a change sets. -/
def field? : Change → Option (String × String)
  | header name value => some (name, value)
  | write .. | removal _ => none

/-- An entry that a change writes has a message, and the key is its own. -/
def IsProper : Change → Prop
  | write key e => key = e.key ∧ e.singular ≠ []
  | removal _ | header .. => True

/-- The changes by adding an entry: none, if it has no message. -/
def ofEntry (e : Entry) : List Change :=
  if e.singular = [] then [] else [write e.key e]

/-- The changes by setting headers. -/
def ofFields (fields : List (String × String)) : List Change :=
  fields.map fun field => header field.1 field.2

/-- The changes by adding the entries of a map. -/
def ofMap (m : KeyMap Entry) : List Change :=
  m.toList.map fun p => write p.1 p.2

/-- The changes by taking over a record. -/
def ofRecord : Record → List Change
  | .headers fields => ofFields fields
  | .entry e => ofEntry e
  | .empty | .untranslated _ => []

/-- The changes by taking over the records of an image. -/
def ofImage (bytes : Bytes) : List Change :=
  match Image.read bytes with
  | .error _ => []
  | .ok image => (Catalog.recordsOf image.reading.pairs).flatMap ofRecord

/-- The changes by taking over the records of an image that was fetched. -/
def ofFetched : Except StoreError Bytes → List Change
  | .error _ => []
  | .ok bytes => ofImage bytes

theorem isProper_ofEntry (e : Entry) : ∀ change ∈ ofEntry e, change.IsProper := by
  intro change hchange
  rw [ofEntry] at hchange
  split at hchange
  · cases hchange
  case isFalse hsingular =>
    cases List.mem_singleton.1 hchange
    exact ⟨rfl, hsingular⟩

theorem isProper_ofFields (fields : List (String × String)) :
    ∀ change ∈ ofFields fields, change.IsProper := by
  intro change hchange
  obtain ⟨field, -, rfl⟩ := List.mem_map.1 hchange
  trivial

theorem isProper_ofRecord (record : Record) : ∀ change ∈ ofRecord record, change.IsProper := by
  cases record with
  | headers fields => exact isProper_ofFields fields
  | entry e => exact isProper_ofEntry e
  | empty => nofun
  | untranslated e => nofun

theorem isProper_ofImage (bytes : Bytes) : ∀ change ∈ ofImage bytes, change.IsProper := by
  intro change hchange
  rw [ofImage] at hchange
  split at hchange
  · cases hchange
  · obtain ⟨record, -, hrecord⟩ := List.mem_flatMap.1 hchange
    exact isProper_ofRecord record change hrecord

theorem isProper_ofFetched (fetched : Except StoreError Bytes) :
    ∀ change ∈ ofFetched fetched, change.IsProper := by
  cases fetched with
  | error reason => nofun
  | ok bytes => exact isProper_ofImage bytes

end Change

open Change (Concerns)
open Catalog (lastFields)

/-! ### Changes one after the other -/

namespace Content

/-- Nothing. -/
def empty : Content :=
  ⟨KeyMap.empty, Headers.empty⟩

/-- What is held after a change. -/
def apply (content : Content) : Change → Content
  | .write key e => { content with entries := content.entries.insert key e }
  | .removal key => { content with entries := content.entries.erase key }
  | .header name value => { content with headers := content.headers.set name value }

/-- What is held after changes. -/
def after (content : Content) (changes : List Change) : Content :=
  changes.foldl apply content

theorem after_append (content : Content) (first second : List Change) :
    content.after (first ++ second) = (content.after first).after second :=
  List.foldl_append

/-- A change leaves the keys alone that it does not concern. -/
theorem find?_apply_of_not_concerns {key : Bytes} {change : Change} (h : ¬Concerns key change)
    (content : Content) : (content.apply change).entries.find? key = content.entries.find? key := by
  cases change with
  | write k e => exact (KeyMap.find?_insert ..).trans (if_neg (Ne.symm h))
  | removal k => exact (KeyMap.find?_erase ..).trans (if_neg (Ne.symm h))
  | header name value => rfl

theorem find?_after_of_not_concerns {key : Bytes} {changes : List Change}
    (h : ∀ change ∈ changes, ¬Concerns key change) (content : Content) :
    (content.after changes).entries.find? key = content.entries.find? key := by
  induction changes generalizing content with
  | nil => rfl
  | cons change changes ih =>
    exact (ih (fun later hlater => h later (List.mem_cons_of_mem _ hlater)) _).trans
      (find?_apply_of_not_concerns (h change List.mem_cons_self) content)

/-- Under a key is an entry iff the last change that concerns the key wrote it. -/
theorem find?_after_iff {changes : List Change} {key : Bytes} {e : Entry} :
    (empty.after changes).entries.find? key = some e ↔
      IsLast (Concerns key) changes (.write key e) := by
  induction changes using List.reverseRecOn with
  | nil => exact ⟨nofun, fun h => absurd h not_isLast_nil⟩
  | append_singleton changes change ih =>
    rw [after_append, isLast_append_singleton_iff, ← ih]
    show ((empty.after changes).apply change).entries.find? key = some e ↔ _
    by_cases hconcerns : Concerns key change
    · cases change with
      | write k e' =>
        obtain rfl : k = key := hconcerns
        simp [apply, KeyMap.find?_insert, Concerns, eq_comm]
      | removal k =>
        obtain rfl : k = key := hconcerns
        simp [apply, KeyMap.find?_erase, Concerns]
      | header name value => cases hconcerns
    · rw [find?_apply_of_not_concerns hconcerns]
      simp [hconcerns]

theorem headers_after (content : Content) (changes : List Change) :
    (content.after changes).headers = content.headers.setAll (changes.filterMap Change.field?) := by
  induction changes generalizing content with
  | nil => rfl
  | cons change changes ih =>
    refine (ih (content.apply change)).trans ?_
    cases change <;> rfl

theorem after_ofMap (content : Content) (m : KeyMap Entry) :
    content.after (Change.ofMap m) = { content with entries := content.entries.union m } := by
  rw [after, Change.ofMap, List.foldl_map, KeyMap.union]
  generalize m.toList = l
  induction l generalizing content with
  | nil => rfl
  | cons p l ih => exact ih _

end Content

/-! ### Changes by the operations -/

namespace Catalog

open Content (after_append)

theorem content_add (c : Catalog) (e : Entry) :
    (c.add e).content = c.content.after (Change.ofEntry e) := by
  rw [add, Entry.hasMessage, Change.ofEntry]
  by_cases h : e.singular = []
  · rw [if_neg (by simp [h]), if_pos h]
    rfl
  · rw [if_pos (by simp [h]), if_neg h]
    rfl

theorem content_setHeaders (c : Catalog) (fields : List (String × String)) :
    (c.setHeaders fields).content = c.content.after (Change.ofFields fields) := by
  induction fields generalizing c with
  | nil => rfl
  | cons field fields ih => exact ih (c.setHeader field.1 field.2)

theorem content_merge (c guest : Catalog) :
    (c.merge guest).content = c.content.after (Change.ofMap guest.entries) :=
  (Content.after_ofMap c.content guest.entries).symm

theorem content_rule (c : Catalog) : c.rule.value.2.content = c.content := by
  rw [content, entries_rule, headers_rule, ← content]

theorem content_absorb (c : Catalog) (record : Record) :
    (c.absorb record).content = c.content.after (Change.ofRecord record) := by
  cases record with
  | headers fields => exact content_setHeaders c fields
  | entry e => exact content_add c e
  | empty => rfl
  | untranslated e => rfl

theorem content_ofRecords (records : List Record) :
    (ofRecords records).content = Content.empty.after (records.flatMap Change.ofRecord) := by
  induction records using List.reverseRecOn with
  | nil => rfl
  | append_singleton records record ih =>
    rw [List.flatMap_append, List.flatMap_singleton, after_append, ← ih, ← content_absorb,
      ofRecords, List.foldl_append]
    rfl

theorem content_of_decode {bytes : Bytes} {c : Catalog} (h : (decode bytes).value = .ok c) :
    c.content = Content.empty.after (Change.ofImage bytes) := by
  obtain ⟨image, hread, -, rfl⟩ := decode_eq_ok_iff.1 h
  rw [content_ofRecords, Change.ofImage, hread]

theorem content_of_ofFetched {name : String} {fetched : Except StoreError Bytes} {c : Catalog}
    (h : (ofFetched name fetched).value = .ok c) :
    c.content = Content.empty.after (Change.ofFetched fetched) := by
  obtain ⟨bytes, rfl, hdecode⟩ := value_ofFetched_eq_ok_iff.1 h
  exact content_of_decode hdecode

end Catalog

/-! ### Steps -/

/-- How the catalog in a slot comes about by a step. -/
inductive Lineage where
  /-- The catalog is changed. -/
  | changed (changes : List Change)
  /-- Another catalog begins, with these changes. -/
  | begun (changes : List Change)
  /-- The catalog becomes a copy of the one in another slot. -/
  | copied (source : String)

namespace Workspace

variable {w : Workspace} {slot : String}

/-- How the catalog in a slot comes about by a step on it, unless the step fails. A merge
    takes over the entries that the guest has at the time. -/
def lineage (w : Workspace) : Step → Lineage
  | .create => .begun []
  | .decode bytes => .begun (Change.ofImage bytes)
  | .importFrom name => .begun (Change.ofFetched (w.resources.fetch name))
  | .importFromFile name => .begun (Change.ofFetched (w.folder.fetch name))
  | .copy source => .copied source
  | .add e => .changed (Change.ofEntry e)
  | .remove singular context => .changed [.removal (entryKey singular context)]
  | .setHeaders fields => .changed (Change.ofFields fields)
  | .merge guest => .changed (Change.ofMap (w.catalog guest).entries)
  | .find .. | .get _ | .contains _ | .header _ | .headerBlock | .formCount | .select _ | .rule
  | .translate .. | .translatePlural .. | .encode _ | .text | .state | .exportTo _ | .exported _
  | .put .. | .fetch _ | .storeFile .. | .fetchFile _ | .exportToFile _ => .changed []

/-- The catalog `c'` comes about in a slot by a step. -/
def Descends (w : Workspace) (slot : String) : Lineage → Catalog → Prop
  | .changed changes, c' => c'.content = (w.catalog slot).content.after changes
  | .begun changes, c' => c'.content = Content.empty.after changes
  | .copied source, c' => c'.content = (w.catalog source).content

theorem content_forCounts {α : Type} {f : Catalog → Int64 → Logged (α × Catalog)}
    (h : ∀ c n, (f c n).value.2 = c.rule.value.2) (c : Catalog) (counts : List Int64) :
    (forCounts f c counts).value.2.content = c.content := by
  induction counts generalizing c with
  | nil => rfl
  | cons n counts ih =>
    refine (ih (f c n).value.2).trans ?_
    rw [h, Catalog.content_rule]

/-- A step that succeeds leaves the catalog that its lineage says. -/
theorem step_descends (w : Workspace) (slot : String) (s : Step) :
    Leads w slot (w.Descends slot (w.lineage s)) (w.step slot s) := by
  cases s with
  | create => exact leads_keep (by rfl) _
  | copy source => exact leads_keep (by rfl) _
  | decode bytes =>
    refine leads_bind ?_
    cases hdecode : (Catalog.decode bytes).value with
    | error fault => exact leads_error _
    | ok c => exact leads_keep (Catalog.content_of_decode hdecode) _
  | importFrom name => exact leads_takeFetched fun _ => Catalog.content_of_ofFetched
  | importFromFile name => exact leads_takeFetched fun _ => Catalog.content_of_ofFetched
  | add e => exact leads_keep (Catalog.content_add ..) _
  | remove singular context => exact leads_keep (by rfl) _
  | setHeaders fields => exact leads_keep (Catalog.content_setHeaders ..) _
  | merge guest => exact leads_keep (Catalog.content_merge ..) _
  | formCount => exact leads_bind (leads_keep (Catalog.content_rule _) _)
  | rule => exact leads_bind (leads_keep (Catalog.content_rule _) _)
  | select counts =>
    refine leads_bind (leads_keep ?_ _)
    exact content_forCounts (f := Catalog.select) (fun _ _ => rfl) _ counts
  | translatePlural singular plural context counts =>
    refine leads_bind (leads_keep ?_ _)
    exact content_forCounts (f := fun c n => c.translatePlural singular plural n context)
      (fun _ _ => rfl) _ counts
  | find | get | contains | header | headerBlock | translate | text | state | exported =>
    exact leads_answer (by rfl) _
  | encode order => exact leads_bind (leads_answer (by rfl) _)
  | put name content => exact leads_stores (by rfl) _ rfl
  | exportTo name => exact leads_bind (leads_stores (by rfl) _ rfl)
  | fetch name =>
    rw [step]
    cases w.resources.fetch name with
    | error e => exact leads_error _
    | ok bytes => exact leads_answer (by rfl) _
  | fetchFile name =>
    rw [step]
    cases w.folder.fetch name with
    | error e => exact leads_error _
    | ok bytes => exact leads_answer (by rfl) _
  | storeFile name content =>
    rw [step]
    cases w.folder.store name content with
    | error e => exact leads_error _
    | ok folder => exact leads_stores (by rfl) _ rfl
  | exportToFile name =>
    refine leads_bind ?_
    cases w.folder.store name ((w.catalog slot).encode .little).value with
    | error e => exact leads_error _
    | ok folder => exact leads_stores (by rfl) _ rfl

/-! ### Runs -/

/-- For each slot, the changes to its catalog since it began, copies included. -/
abbrev Changes := String → List Change

/-- The changes to the catalog in a slot after a step that succeeds. A copy takes over the
    changes of its original. -/
def Changes.extended (changes : Changes) (slot : String) : Lineage → List Change
  | .changed more => changes slot ++ more
  | .begun first => first
  | .copied source => changes source

/-- The changes after one more step. -/
def Changes.record (changes : Changes) (w : Workspace) (slot : String) (s : Step) : Changes :=
  recorded changes w slot s (changes.extended slot (w.lineage s))

/-- The changes after steps in turn. -/
def changesFrom (changes : Changes) (w : Workspace) : List (String × Step) → Changes
  | [] => changes
  | (slot, s) :: steps => changesFrom (changes.record w slot s) (w.perform slot s).value.2 steps

/-- Every catalog is what its changes lead to, and they write proper entries. -/
structure Traced (w : Workspace) (changes : Changes) : Prop where
  content : ∀ slot, (w.catalog slot).content = Content.empty.after (changes slot)
  proper : ∀ slot, ∀ change ∈ changes slot, change.IsProper

theorem traced_empty : Traced empty fun _ => [] where
  content _ := rfl
  proper _ := nofun

section Steps

variable {changes : Changes}

/-- The entries in every slot are under their own keys, and have messages. -/
theorem Traced.isProper (h : Traced w changes) {key : Bytes} {e : Entry}
    (hfind : (w.catalog slot).entries.find? key = some e) : (Change.write key e).IsProper := by
  have hentry : (w.catalog slot).content.entries.find? key = some e := hfind
  rw [h.content, Content.find?_after_iff] at hentry
  exact h.proper slot _ hentry.mem

theorem Traced.content_of_descends (h : Traced w changes) {lineage : Lineage} {c' : Catalog}
    (hdescends : w.Descends slot lineage c') :
    c'.content = Content.empty.after (changes.extended slot lineage) := by
  cases lineage with
  | changed more =>
    rw [show c'.content = _ from hdescends, h.content slot, ← Content.after_append]
    rfl
  | begun first => exact hdescends
  | copied source => exact (show c'.content = _ from hdescends).trans (h.content source)

theorem Traced.proper_extended (h : Traced w changes) (slot : String) (s : Step) :
    ∀ change ∈ changes.extended slot (w.lineage s), change.IsProper := by
  -- A step that changes the catalog adds to the changes that there were.
  have happend : ∀ more : List Change, (∀ change ∈ more, change.IsProper) →
      ∀ change ∈ changes slot ++ more, change.IsProper := fun more hmore change hchange =>
    (List.mem_append.1 hchange).elim (h.proper slot change) (hmore change)
  cases s with
  | create => nofun
  | decode bytes => exact Change.isProper_ofImage bytes
  | importFrom name => exact Change.isProper_ofFetched _
  | importFromFile name => exact Change.isProper_ofFetched _
  | copy source => exact h.proper source
  | add e => exact happend _ (Change.isProper_ofEntry e)
  | remove singular context =>
    refine happend _ fun change hchange => ?_
    cases List.mem_singleton.1 hchange
    trivial
  | setHeaders fields => exact happend _ (Change.isProper_ofFields fields)
  | merge guest =>
    refine happend _ fun change hchange => ?_
    obtain ⟨p, hp, rfl⟩ := List.mem_map.1 hchange
    exact h.isProper (KeyMap.find?_eq_some_iff.2 hp)
  | _ => exact happend [] nofun

/-- A step keeps every catalog what its changes lead to. -/
theorem Traced.perform (h : Traced w changes) (slot : String) (s : Step) :
    Traced (w.perform slot s).value.2 (changes.record w slot s) := by
  have hrecorded := forall_recorded
    (R := fun changes c => c.content = Content.empty.after changes ∧
      ∀ change ∈ changes, change.IsProper)
    (fun other => ⟨h.content other, h.proper other⟩) (step_descends w slot s)
    (changes.extended slot (w.lineage s))
    fun c hdescends => ⟨h.content_of_descends hdescends, h.proper_extended slot s⟩
  exact ⟨fun other => (hrecorded other).1, fun other => (hrecorded other).2⟩

/-- A run keeps every catalog what its changes lead to. -/
theorem Traced.after (h : Traced w changes) (steps : List (String × Step)) :
    Traced (w.after steps) (changesFrom changes w steps) := by
  induction steps generalizing w changes with
  | nil => exact h
  | cons s steps ih => exact ih (h.perform s.1 s.2)

end Steps

/-! ### Holding -/

/-- A catalog is the map and the headers that changes tell. -/
structure Holds (changes : List Change) (c : Catalog) : Prop where
  /-- Every entry is under its own key, and has a message. -/
  keyed : ∀ key e, c.entries.find? key = some e → key = e.key ∧ e.singular ≠ []
  /-- The key of the headers in an image is no key of an entry. -/
  unoccupied : c.entries.find? [] = none
  /-- No name is that of two headers. -/
  names : c.headers.names.Nodup
  /-- Every header is where it was set first, with the value that was set last. -/
  headers : c.headers.fields = lastFields (changes.filterMap Change.field?)
  /-- Under a key is what was written there last, if the key was not removed afterwards. -/
  entries : ∀ key e, c.entries.find? key = some e ↔
    IsLast (Concerns key) changes (.write key e)
  /-- The size is the number of keys with an entry. -/
  size : ∃ keys : List Bytes, keys.Nodup ∧ c.size = keys.length ∧
    ∀ key, key ∈ keys ↔ ∃ e, IsLast (Concerns key) changes (.write key e)

theorem Traced.holds {changes : Changes} (h : Traced w changes) (slot : String) :
    Holds (changes slot) (w.catalog slot) := by
  have hentries : ∀ key e, (w.catalog slot).entries.find? key = some e ↔
      IsLast (Concerns key) (changes slot) (.write key e) := by
    intro key e
    rw [← Content.find?_after_iff, ← h.content]
    rfl
  have hheaders : (w.catalog slot).headers =
      Headers.empty.setAll ((changes slot).filterMap Change.field?) :=
    (congrArg Content.headers (h.content slot)).trans (Content.headers_after ..)
  refine ⟨fun key e => h.isProper, ?_, ?_, ?_, hentries, ?_⟩
  · refine Option.eq_none_iff_forall_ne_some.2 fun e he => ?_
    obtain ⟨hkey, hsingular⟩ := h.isProper he
    exact Entry.key_ne_nil hsingular hkey.symm
  · rw [hheaders]
    exact Headers.nodup_names_setAll (h := Headers.empty) List.nodup_nil _
  · rw [hheaders, Catalog.fields_setAll_empty]
  · refine ⟨_, (w.catalog slot).entries.nodup_keys, (List.length_map _).symm, fun key => ?_⟩
    simp only [KeyMap.mem_keys_iff, hentries]

/-- In every state that steps lead to, a catalog is the map and the headers that the changes
    since it began tell. The next step changes no other slot, and no key that none of its
    changes concerns; adding an entry without a message changes nothing. -/
theorem holds_after (steps : List (String × Step)) (slot : String) :
    let w := empty.after steps
    let c := w.catalog slot
    Holds (changesFrom (fun _ => []) empty steps slot) c ∧
      (∀ s : Step, let w' := (w.perform slot s).value.2
        (∀ other, other ≠ slot → w'.catalog other = w.catalog other) ∧
          ∀ changes, w.lineage s = .changed changes →
            ∀ key, (∀ change ∈ changes, ¬Concerns key change) →
              (w'.catalog slot).entries.find? key = c.entries.find? key) ∧
      ∀ e : Entry, e.singular = [] →
        (w.perform slot (.add e)).value.1 = .ok (.added false c.size) ∧
          ∀ other, (w.perform slot (.add e)).value.2.catalog other = w.catalog other := by
  intro w c
  refine ⟨(traced_empty.after steps).holds slot, fun s => ⟨?_, ?_⟩, fun e he => ?_⟩
  · exact fun other hne => catalog_perform_of_ne w hne s
  · intro changes hlineage key hkey
    rcases perform_of_leads (step_descends w slot s) with ⟨-, hsame⟩ | ⟨-, hdescends⟩
    · rw [hsame]
    · rw [hlineage] at hdescends
      have hfind := Content.find?_after_of_not_concerns hkey c.content
      rw [← show _ = c.content.after changes from hdescends] at hfind
      exact hfind
  · have hmessage : e.hasMessage = false := by simp [Entry.hasMessage, he]
    have hadd : c.add e = c := by rw [Catalog.add, hmessage, if_neg Bool.false_ne_true]
    have hperform : (w.perform slot (.add e)).value =
        (.ok (.added e.hasMessage (c.add e).size), w.setCatalog slot (c.add e)) := rfl
    rw [hperform, hmessage, hadd]
    refine ⟨rfl, fun other => ?_⟩
    by_cases hne : other = slot
    · rw [hne]
      exact catalog_setCatalog_self c
    · exact catalog_setCatalog_of_ne hne c

end Workspace

end MessageCatalog
