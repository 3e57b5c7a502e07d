import MessageCatalog.PoText
import MessageCatalog.Store.Folder

/-!
# Workspaces

A workspace holds catalogs in named slots, and the stores they are exchanged
with: a memory that catalogs are exported to, further resources that cover
exported ones of the same name, and a folder. Steps work on the catalog in one
slot; a slot that was never filled holds the empty catalog. A step that fails
leaves the workspace as it was.

* `Step`, `Answer`, `Failure`: what can be asked of a workspace, and what it
  answers;
* `Workspace.perform`: one step; one that fails changes nothing
  (`perform_of_step_eq_error`);
* `Workspace.run`, `Workspace.after`: what steps in turn answer, and the
  workspace they leave.
-/

namespace MessageCatalog

open Plural (Rule)

/-- A step on the catalog in a slot. -/
inductive Step where
  /-- Empties the slot. -/
  | create
  /-- Copies the catalog of another slot. -/
  | copy (source : String)
  /-- Reads the catalog of an image. -/
  | decode (bytes : Bytes)
  /-- Adds an entry. -/
  | add (entry : Entry)
  /-- Removes the entry of a message. -/
  | remove (singular : Bytes) (context : Option Bytes)
  /-- The entry of a message. -/
  | find (singular : Bytes) (context : Option Bytes)
  /-- The entry under a key. -/
  | get (key : Bytes)
  /-- Whether there is an entry under a key. -/
  | contains (key : Bytes)
  /-- Sets headers, in order. -/
  | setHeaders (fields : List (String × String))
  /-- The value of a header. -/
  | header (name : String)
  /-- The header block. -/
  | headerBlock
  /-- The number of plural forms. -/
  | formCount
  /-- The indexes of the plural forms for counts. -/
  | select (counts : List Int64)
  /-- The plural rule. -/
  | rule
  /-- The text for a message. -/
  | translate (singular : Bytes) (context : Option Bytes)
  /-- The texts for a message with a plural, for counts. -/
  | translatePlural (singular plural : Bytes) (context : Option Bytes) (counts : List Int64)
  /-- Adds the entries of the catalog in another slot. -/
  | merge (guest : String)
  /-- The image of the catalog. -/
  | encode (order : ByteOrder)
  /-- The text of the catalog. -/
  | text
  /-- The catalog. -/
  | state
  /-- Stores the image of the catalog in memory. -/
  | exportTo (name : String)
  /-- What was exported under a name. -/
  | exported (name : String)
  /-- Adds a further resource. -/
  | put (name : String) (content : Bytes)
  /-- The content of a resource in memory. -/
  | fetch (name : String)
  /-- Reads the catalog of a resource in memory. -/
  | importFrom (name : String)
  /-- Stores a file. -/
  | storeFile (name : String) (content : Bytes)
  /-- The content of a file. -/
  | fetchFile (name : String)
  /-- Stores the image of the catalog in a file. -/
  | exportToFile (name : String)
  /-- Reads the catalog of a file. -/
  | importFromFile (name : String)
  deriving DecidableEq, Repr

/-- What a step gives. -/
inductive Answer where
  /-- The step is done. -/
  | done
  /-- The number of entries now in the slot. -/
  | size (size : Nat)
  /-- Whether an entry was added, and the number of entries. -/
  | added (added : Bool) (size : Nat)
  /-- The entry that was removed, and the number of entries. -/
  | removed (entry : Option Entry) (size : Nat)
  /-- An entry, or none. -/
  | entry (entry : Option Entry)
  /-- A truth value. -/
  | flag (value : Bool)
  /-- The headers. -/
  | headers (fields : List (String × String))
  /-- A text, or none. -/
  | text? (text : Option String)
  /-- A text. -/
  | text (text : String)
  /-- A number of forms. -/
  | formCount (number : Nat)
  /-- Indexes of forms. -/
  | indexes (indexes : List Nat)
  /-- A plural rule. -/
  | rule (rule : Rule)
  /-- A byte string. -/
  | bytes (bytes : Bytes)
  /-- A byte string, or none. -/
  | bytes? (bytes : Option Bytes)
  /-- Byte strings. -/
  | texts (texts : List Bytes)
  /-- A catalog. -/
  | catalog (catalog : Catalog)

/-- Why a step fails. -/
inductive Failure where
  /-- A byte string is no image. -/
  | image (fault : Image.Fault)
  /-- No catalog can be imported. -/
  | imported (error : ImportError)
  /-- A store refuses. -/
  | store (error : StoreError)
  deriving DecidableEq, Repr

/-- Catalogs in slots, and stores. -/
structure Workspace where
  /-- The catalogs, by slot. -/
  slots : List (String × Catalog)
  /-- What was exported to memory. -/
  exported : Memory
  /-- Further resources in memory. -/
  further : Memory
  /-- The folder for files. -/
  folder : Folder

namespace Workspace

/-- The workspace at the beginning. -/
def empty : Workspace :=
  ⟨[], Memory.empty, Memory.empty, Folder.empty⟩

/-- The catalog in a slot. -/
def catalog (w : Workspace) (slot : String) : Catalog :=
  (w.slots.lookup slot).getD Catalog.empty

/-- Puts a catalog into a slot. -/
def setCatalog (w : Workspace) (slot : String) (c : Catalog) : Workspace :=
  { w with slots := (slot, c) :: w.slots.filter (·.1 != slot) }

/-- The resources in memory. -/
def resources (w : Workspace) : Memory :=
  w.exported.overlay w.further

/-- What a step comes to: an answer and the workspace afterwards, or a failure. -/
abbrev Result := Logged (Except Failure (Answer × Workspace))

/-- Puts a catalog into the slot, and answers. -/
def keep (w : Workspace) (slot : String) (c : Catalog) (answer : Catalog → Answer) : Result :=
  pure (.ok (answer c, w.setCatalog slot c))

/-- Answers without a change. -/
def answer (w : Workspace) (a : Answer) : Result :=
  pure (.ok (a, w))

/-- Does something for each count in turn, with a catalog that it may change. -/
def forCounts {α : Type} (f : Catalog → Int64 → Logged (α × Catalog)) (c : Catalog) :
    List Int64 → Logged (List α × Catalog)
  | [] => pure ([], c)
  | n :: counts => do
    let (a, c) ← f c n
    let (as, c) ← forCounts f c counts
    return (a :: as, c)

/-- The number of entries of a catalog. -/
def sizeAnswer (c : Catalog) : Answer :=
  .size c.size

/-- Puts the catalog in what was fetched into the slot. -/
def takeFetched (w : Workspace) (slot name : String) (fetched : Except StoreError Bytes) :
    Result := do
  match ← Catalog.ofFetched name fetched with
  | .ok c => w.keep slot c sizeAnswer
  | .error e => return .error (.imported e)

/-- One step on the catalog in a slot. -/
def step (w : Workspace) (slot : String) : Step → Result
  | .create => w.keep slot Catalog.empty sizeAnswer
  | .copy source => w.keep slot (w.catalog source) sizeAnswer
  | .decode bytes => do
    match ← Catalog.decode bytes with
    | .ok c => w.keep slot c sizeAnswer
    | .error fault => return .error (.image fault)
  | .add entry =>
    w.keep slot ((w.catalog slot).add entry) fun c => .added entry.hasMessage c.size
  | .remove singular context =>
    let c := w.catalog slot
    w.keep slot (c.remove singular context) fun c' =>
      .removed (c.find? singular context) c'.size
  | .find singular context => w.answer (.entry ((w.catalog slot).find? singular context))
  | .get key => w.answer (.entry ((w.catalog slot).entries.find? key))
  | .contains key => w.answer (.flag ((w.catalog slot).entries.contains key))
  | .setHeaders fields =>
    w.keep slot ((w.catalog slot).setHeaders fields) fun c => .headers c.headers.fields
  | .header name => w.answer (.text? ((w.catalog slot).header? name))
  | .headerBlock => w.answer (.text (w.catalog slot).headers.block)
  | .formCount => do
    let (number, c) ← (w.catalog slot).formCount
    w.keep slot c fun _ => .formCount number
  | .select counts => do
    let (indexes, c) ← forCounts Catalog.select (w.catalog slot) counts
    w.keep slot c fun _ => .indexes indexes
  | .rule => do
    let (rule, c) ← (w.catalog slot).rule
    w.keep slot c fun _ => .rule rule
  | .translate singular context =>
    w.answer (.bytes ((w.catalog slot).translate singular context))
  | .translatePlural singular plural context counts => do
    let (texts, c) ← forCounts (fun c n => c.translatePlural singular plural n context)
      (w.catalog slot) counts
    w.keep slot c fun _ => .texts texts
  | .merge guest => w.keep slot ((w.catalog slot).merge (w.catalog guest)) sizeAnswer
  | .encode order => do
    let bytes ← (w.catalog slot).encode order
    w.answer (.bytes bytes)
  | .text => w.answer (.bytes (PoText.ofCatalog (w.catalog slot)))
  | .state => w.answer (.catalog (w.catalog slot))
  | .exportTo name => do
    let bytes ← (w.catalog slot).encode .little
    return .ok (.done, { w with exported := w.exported.put name bytes })
  | .exported name => w.answer (.bytes? (w.exported.get? name))
  | .put name content =>
    return .ok (.done, { w with further := w.further.put name content })
  | .fetch name =>
    match w.resources.fetch name with
    | .ok bytes => w.answer (.bytes bytes)
    | .error e => return .error (.store e)
  | .importFrom name => w.takeFetched slot name (w.resources.fetch name)
  | .storeFile name content =>
    match w.folder.store name content with
    | .ok folder => return .ok (.done, { w with folder })
    | .error e => return .error (.store e)
  | .fetchFile name =>
    match w.folder.fetch name with
    | .ok bytes => w.answer (.bytes bytes)
    | .error e => return .error (.store e)
  | .exportToFile name => do
    let bytes ← (w.catalog slot).encode .little
    match w.folder.store name bytes with
    | .ok folder => return .ok (.done, { w with folder })
    | .error e => return .error (.store e)
  | .importFromFile name => w.takeFetched slot name (w.folder.fetch name)

/-- One step on the catalog in a slot: the answer or the failure, and the
    workspace afterwards. -/
def perform (w : Workspace) (slot : String) (s : Step) :
    Logged (Except Failure Answer × Workspace) := do
  match ← w.step slot s with
  | .ok (a, w') => return (.ok a, w')
  | .error e => return (.error e, w)

/-- The workspace after steps in turn. -/
def after (w : Workspace) (steps : List (String × Step)) : Workspace :=
  steps.foldl (fun w s => (w.perform s.1 s.2).value.2) w

/-- What steps answer in turn, each with its own events. -/
def run (w : Workspace) : List (String × Step) → List (Logged (Except Failure Answer))
  | [] => []
  | (slot, s) :: steps =>
    let done := w.perform slot s
    ⟨done.value.1, done.log⟩ :: done.value.2.run steps

/-- A step that fails leaves the workspace as it was. -/
theorem perform_of_step_eq_error {w : Workspace} {slot : String} {s : Step} {e : Failure}
    (h : (w.step slot s).value = .error e) : (w.perform slot s).value = (.error e, w) := by
  simp only [perform, Logged.value_bind, h, Logged.value_pure]

/-- Steps in turn answer as the first ones do, and then as the others do
    afterwards. -/
theorem run_append (w : Workspace) (first second : List (String × Step)) :
    w.run (first ++ second) = w.run first ++ (w.after first).run second := by
  induction first generalizing w with
  | nil => rfl
  | cons s first ih => exact congrArg _ (ih _)

end Workspace

end MessageCatalog
