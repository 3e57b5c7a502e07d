import MessageCatalog.Proofs.CommandLine.Concatenate

/-!
# What counts when catalogs are put together

`msgunfmt` and `mocat` put catalogs together in turn. For both, of the entries of a key the
last one counts, and the names of headers stand in the order in which they come first
(`Unites`). They differ in the values of headers: the last one of a name counts for
`msgunfmt`, which overrides, and the first one for `mocat`, which appends.

* `unites_append`, `header?_append`: catalogs appended in turn;
* `unites_override`, `header?_override`: catalogs that override those before them;
* `Unites.entries_eq`, `Unites.headers_eq`: how far what is put together is determined.
-/

namespace MessageCatalog.CommandLine

open Catalog

/-- A catalog has the entries and the header names of catalogs: of entries of one key that of
    the last catalog that has it, and each name where it comes first. -/
structure Unites (catalogs : List Catalog) (c : Catalog) : Prop where
  entries : ∀ key, c.entries.find? key = catalogs.reverse.findSome? (·.entries.find? key)
  names : c.headers.names = (catalogs.flatMap (·.headers.names)).eraseDups

variable {catalogs : List Catalog} {c d : Catalog}

/-- The entries of what is put together are determined. -/
theorem Unites.entries_eq (hc : Unites catalogs c) (hd : Unites catalogs d) :
    c.entries = d.entries :=
  KeyMap.ext fun key => (hc.entries key).trans (hd.entries key).symm

/-- The headers of what is put together are determined by their values. -/
theorem Unites.headers_eq (hc : Unites catalogs c) (hd : Unites catalogs d)
    (hnodup : c.headers.names.Nodup) (hvalues : ∀ name, c.header? name = d.header? name) :
    c.headers = d.headers :=
  Headers.ext_get? hnodup (hc.names.trans hd.names.symm) hvalues

/-- Catalogs that agree on the headers they share. -/
def Agree (catalogs : List Catalog) : Prop :=
  ∀ c ∈ catalogs, ∀ d ∈ catalogs, ∀ name, ∀ value ∈ c.header? name, ∀ value' ∈ d.header? name,
    value = value'

/-- The first value of a header is the last one, if the catalogs agree. -/
theorem Agree.findSome?_reverse (h : Agree catalogs) (name : String) :
    catalogs.reverse.findSome? (·.header? name) = catalogs.findSome? (·.header? name) := by
  cases hfirst : catalogs.findSome? (·.header? name) with
  | none =>
    rw [List.findSome?_eq_none_iff] at hfirst ⊢
    exact fun c hc => hfirst c (List.mem_reverse.1 hc)
  | some value =>
    obtain ⟨c, hc, hvalue⟩ := List.exists_of_findSome?_eq_some hfirst
    cases hlast : catalogs.reverse.findSome? (·.header? name) with
    | none =>
      rw [List.findSome?_eq_none_iff] at hlast
      rw [hlast c (List.mem_reverse.2 hc)] at hvalue
      cases hvalue
    | some value' =>
      obtain ⟨d, hd, hvalue'⟩ := List.exists_of_findSome?_eq_some hlast
      rw [h d (List.mem_reverse.1 hd) c hc name value' hvalue' value hvalue]

/-- Of the entries of one key that are united in turn the last one counts. -/
theorem find?_foldl {op : Catalog → Catalog → Catalog}
    (hop : ∀ c guest, (op c guest).entries = c.entries.union guest.entries)
    (catalogs : List Catalog) (key : Bytes) :
    (catalogs.foldl op empty).entries.find? key =
      catalogs.reverse.findSome? (·.entries.find? key) := by
  have hfold : ∀ c, (catalogs.foldl op c).entries =
      (catalogs.map (·.entries)).foldl KeyMap.union c.entries := by
    induction catalogs with
    | nil => exact fun _ => rfl
    | cons guest catalogs ih =>
      exact fun c => (ih _).trans (by rw [hop, List.map_cons, List.foldl_cons])
  rw [hfold, KeyMap.find?_foldl_union, ← List.map_reverse, List.findSome?_map]
  exact Option.or_none

/-- No decoded catalog has two headers of one name. -/
theorem nodup_names_of_decoded (h : ∀ c ∈ catalogs, ∃ bytes, (decode bytes).value = .ok c) :
    ∀ headers ∈ catalogs.map (·.headers), headers.names.Nodup := by
  intro headers hheaders
  obtain ⟨c, hc, rfl⟩ := List.mem_map.1 hheaders
  obtain ⟨bytes, hdecode⟩ := h c hc
  exact (reachable_of_decode hdecode).sound.names

/-! ### Appending -/

theorem entries_append (c guest : Catalog) :
    (append c guest).entries = c.entries.union guest.entries := by
  have hcomplete : (guest.headers.fields.foldl complete c).entries = c.entries := by
    refine List.foldlRecOn (motive := fun d => d.entries = c.entries) _ complete rfl ?_
    intro d hd field _
    rw [complete]
    split
    · exact hd
    · exact hd
  exact congrArg (KeyMap.union · guest.entries) hcomplete

/-- The headers of catalogs that are appended in turn complete each other. -/
theorem headers_foldl_append (h : ∀ c ∈ catalogs, ∃ bytes, (decode bytes).value = .ok c) :
    (catalogs.foldl append empty).headers =
      (catalogs.map (·.headers)).foldl Headers.extended Headers.empty := by
  induction catalogs using List.reverseRecOn with
  | nil => rfl
  | append_singleton catalogs guest ih =>
    have hcatalogs : ∀ c ∈ catalogs, ∃ bytes, (decode bytes).value = .ok c :=
      fun c hc => h c (List.mem_append_left _ hc)
    obtain ⟨bytes, hdecode⟩ := h guest (by simp)
    rw [List.foldl_append, List.foldl_cons, List.foldl_nil,
      append_eq (foldl_append_decoded hcatalogs).2.compiled (reachable_of_decode hdecode).sound,
      ih hcatalogs, List.map_append, List.foldl_append]
    rfl

theorem unites_append (h : ∀ c ∈ catalogs, ∃ bytes, (decode bytes).value = .ok c) :
    Unites catalogs (catalogs.foldl append empty) where
  entries := find?_foldl entries_append catalogs
  names := by
    rw [headers_foldl_append h, Headers.names_foldl_extended (nodup_names_of_decoded h),
      List.flatMap_map]

/-- Of the values of a header that are appended in turn the first one counts. -/
theorem header?_append (h : ∀ c ∈ catalogs, ∃ bytes, (decode bytes).value = .ok c)
    (name : String) :
    (catalogs.foldl append empty).header? name = catalogs.findSome? (·.header? name) := by
  rw [header?, headers_foldl_append h, Headers.get?_foldl_extended, List.findSome?_map]
  rfl

/-! ### Overriding -/

theorem entries_override (c guest : Catalog) :
    (override c guest).entries = c.entries.union guest.entries :=
  congrArg (KeyMap.union · guest.entries) (entries_setHeaders c guest.headers.fields)

theorem headers_override (c guest : Catalog) :
    (override c guest).headers = c.headers.setAll guest.headers.fields :=
  headers_setHeaders c guest.headers.fields

/-- The headers of catalogs that override each other are set in turn. -/
theorem headers_foldl_override (catalogs : List Catalog) (c : Catalog) :
    (catalogs.foldl override c).headers =
      (catalogs.map (·.headers)).foldl (fun h guest => h.setAll guest.fields) c.headers := by
  induction catalogs generalizing c with
  | nil => rfl
  | cons guest catalogs ih =>
    rw [List.foldl_cons, ih, headers_override, List.map_cons, List.foldl_cons]

theorem unites_override (catalogs : List Catalog) :
    Unites catalogs (catalogs.foldl override empty) where
  entries := find?_foldl entries_override catalogs
  names := by
    rw [headers_foldl_override]
    exact (Headers.names_foldl_setAll _).trans (by rw [List.flatMap_map])

/-- Of the values of a header that override each other the last one counts. -/
theorem header?_override (h : ∀ c ∈ catalogs, ∃ bytes, (decode bytes).value = .ok c)
    (name : String) :
    (catalogs.foldl override empty).header? name =
      catalogs.reverse.findSome? (·.header? name) := by
  rw [header?, headers_foldl_override, Headers.get?_foldl_setAll (nodup_names_of_decoded h),
    ← List.map_reverse, List.findSome?_map]
  exact Option.or_none

end MessageCatalog.CommandLine
