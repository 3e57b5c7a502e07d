import MessageCatalog.Proofs.Except
import MessageCatalog.Store.Folder

/-!
# Files that are stored

What is stored at a path is fetched there again. Only folders lie on the way of a path, and storing
a file leaves all folders what they are: so the path leads to the same place afterwards. The null
device alone keeps nothing.

* `Folder.Takes`: the paths at which a folder takes a file, whatever its content is
  (`exists_store_iff`);
* `Folder.fetch_store`: what was stored at a path is fetched there;
* `Folder.IsStored`: this, and that nothing else in the folder has changed (`isStored_of_store`).
-/

namespace MessageCatalog.Folder

/-- A path leads to a place. -/
def LeadsTo (f : Folder) (path : String) (place : Place) : Prop :=
  f.walk ⟨originOf path, []⟩ (partsOf path) = .ok place

/-- There may be a file at a path: it can be followed, does not end with a slash, and leads to no
    folder. -/
structure Takes (f : Folder) (path : String) : Prop where
  valid : checkPath path = .ok ()
  noSlash : endsWithSlash path = false
  place : ∃ place, f.LeadsTo path place ∧ f.node? place ≠ some .folder

/-- The second folder is the first one with a content stored at a path. -/
structure IsStored (before after : Folder) (path : String) (content : Bytes) : Prop where
  /-- The content is fetched there. -/
  fetch : ¬before.LeadsTo path .nullDevice → after.fetch path = .ok content
  /-- The null device drops it. -/
  dropped : before.LeadsTo path .nullDevice → after = before
  /-- The other files are as before. -/
  others : ∀ place, ¬before.LeadsTo path place →
    after.files.lookup place = before.files.lookup place

variable {f f' : Folder} {path : String} {place : Place} {content : Bytes}

/-! ### Writing -/

theorem lookup_filter_ne (files : List (Place × Bytes)) (place other : Place) :
    (files.filter (·.1 != place)).lookup other =
      if other = place then none else files.lookup other := by
  induction files with
  | nil => exact (ite_self none).symm
  | cons file files ih =>
    by_cases hfile : file.1 = place
    · rw [List.filter_cons_of_neg (by simp [hfile]), ih, List.lookup_cons, hfile]
      by_cases hother : other = place
      · rw [if_pos hother, if_pos hother]
      · simp only [if_neg hother, beq_false_of_ne hother]
    · rw [List.filter_cons_of_pos (by simp [hfile]), List.lookup_cons, List.lookup_cons, ih]
      by_cases hother : other = file.1
      · simp only [hother, if_neg hfile, BEq.rfl]
      · simp only [beq_false_of_ne hother]

theorem lookup_write (h : place ≠ .nullDevice) (other : Place) :
    (f.write place content).files.lookup other =
      if other = place then some content else f.files.lookup other := by
  rw [write, if_neg h, List.lookup_cons, lookup_filter_ne]
  by_cases hother : other = place
  · simp only [hother, BEq.rfl, ↓reduceIte]
  · simp only [beq_false_of_ne hother, if_neg hother]

theorem node?_eq_folder_iff :
    f.node? place = some .folder ↔
      f.files.lookup place = none ∧
        (place.parts = [] ∨ ∃ file ∈ f.files, place.isOnWayTo file.1 = true) := by
  rw [node?]
  cases f.files.lookup place with
  | some content => simp
  | none => simp only [List.any_eq_true, Option.ite_none_right_eq_some, and_true, true_and]

theorem node?_eq_file_iff :
    f.node? place = some (.file content) ↔ f.files.lookup place = some content := by
  rw [node?]
  cases f.files.lookup place with
  | some content => simp
  | none => simp

/-- Where a file may be, writing it leaves all folders. -/
theorem node?_write_of_folder (hplace : f.node? place ≠ some .folder) {other : Place}
    (h : f.node? other = some .folder) :
    (f.write place content).node? other = some .folder := by
  by_cases hnull : place = .nullDevice
  · rwa [write, if_pos hnull]
  have hne : other ≠ place := fun heq => hplace (heq ▸ h)
  obtain ⟨hlookup, hway⟩ := node?_eq_folder_iff.1 h
  refine node?_eq_folder_iff.2 ⟨?_, hway.imp_right ?_⟩
  · rw [lookup_write hnull, if_neg hne, hlookup]
  · rintro ⟨file, hfile, hon⟩
    rw [write, if_neg hnull]
    -- What was on the way to the file that is replaced is on the way to the new one.
    by_cases hsame : file.1 = place
    · exact ⟨(place, content), List.mem_cons_self, hsame ▸ hon⟩
    · exact ⟨file, List.mem_cons_of_mem _ (List.mem_filter.2 ⟨hfile, by simp [hsame]⟩), hon⟩

/-! ### Following a path -/

/-- A part is only followed from a folder. -/
theorem node?_of_step {p q : Place} {part : String} (h : f.step p part = .ok q) :
    f.node? p = some .folder := by
  rw [step] at h
  split at h
  · cases h
  · cases h
  · assumption

theorem step_congr {p : Place} (h : f.node? p = f'.node? p) (part : String) :
    f.step p part = f'.step p part := by
  rw [step, step, h]

/-- A path leads where it led before a file was written. -/
theorem walk_write (hplace : f.node? place ≠ some .folder) {p q : Place} {parts : List String}
    (h : f.walk p parts = .ok q) : (f.write place content).walk p parts = .ok q := by
  induction parts generalizing p with
  | nil => exact h
  | cons part parts ih =>
    rw [walk, List.foldlM_cons, bind_eq_ok_iff] at h
    obtain ⟨r, hstep, hrest⟩ := h
    have hfolder := node?_of_step hstep
    have hkept : (f.write place content).node? p = some .folder :=
      node?_write_of_folder hplace hfolder
    rw [walk, List.foldlM_cons, step_congr (hkept.trans hfolder.symm), hstep]
    exact ih hrest

/-- A path that ends with `.` leads to a folder. -/
theorem node?_of_walk_dot {p q : Place} {parts : List String}
    (h : f.walk p (parts ++ ["."]) = .ok q) : f.node? q = some .folder := by
  rw [walk, List.foldlM_append, bind_eq_ok_iff] at h
  obtain ⟨r, -, hlast⟩ := h
  obtain ⟨_, hstep, ⟨⟩⟩ := bind_eq_ok_iff.1 hlast
  have hfolder := node?_of_step hstep
  simp only [step, hfolder, ↓reduceIte] at hstep
  cases hstep
  exact hfolder

/-! ### Storing and fetching -/

theorem store_eq_ok_iff_walk :
    f.store path content = .ok f' ↔
      checkPath path = .ok () ∧ ∃ place,
        f.walk ⟨originOf path, []⟩ (partsToWrite path) = .ok place ∧
          f.node? place ≠ some .folder ∧ f.write place content = f' := by
  rw [store, bind_eq_ok_iff]
  constructor
  · rintro ⟨⟨⟩, hvalid, hstore⟩
    obtain ⟨place, hwalk, hstore⟩ := bind_eq_ok_iff.1 hstore
    split at hstore
    · cases hstore
    case isFalse hfolder =>
      cases hstore
      exact ⟨hvalid, place, hwalk, hfolder, rfl⟩
  · rintro ⟨hvalid, place, hwalk, hfolder, rfl⟩
    refine ⟨(), hvalid, bind_eq_ok_iff.2 ⟨place, hwalk, ?_⟩⟩
    rw [if_neg hfolder]
    rfl

/-- A content is stored at a path iff a file may be there, and then it is written where the path
    leads. -/
theorem store_eq_ok_iff :
    f.store path content = .ok f' ↔
      checkPath path = .ok () ∧ endsWithSlash path = false ∧ ∃ place,
        f.LeadsTo path place ∧ f.node? place ≠ some .folder ∧ f.write place content = f' := by
  rw [store_eq_ok_iff_walk, partsToWrite]
  by_cases hslash : endsWithSlash path = true
  · rw [if_pos hslash]
    refine iff_of_false ?_ fun h => Bool.false_ne_true (h.2.1.symm.trans hslash)
    rintro ⟨-, place, hwalk, hfolder, -⟩
    exact hfolder (node?_of_walk_dot hwalk)
  · rw [if_neg hslash, and_iff_right (Bool.eq_false_iff.2 hslash)]
    rfl

/-- A folder takes any content at a path, or none. -/
theorem exists_store_iff (content : Bytes) :
    (∃ f', f.store path content = .ok f') ↔ f.Takes path := by
  simp only [store_eq_ok_iff]
  constructor
  · rintro ⟨_, hvalid, hslash, place, hleads, hfolder, -⟩
    exact ⟨hvalid, hslash, place, hleads, hfolder⟩
  · rintro ⟨hvalid, hslash, place, hleads, hfolder⟩
    exact ⟨_, hvalid, hslash, place, hleads, hfolder, rfl⟩

theorem fetch_of_leadsTo (hvalid : checkPath path = .ok ()) (hslash : endsWithSlash path = false)
    (hleads : f.LeadsTo path place) (hfile : f.files.lookup place = some content) :
    f.fetch path = .ok content := by
  refine bind_eq_ok_iff.2 ⟨(), hvalid, bind_eq_ok_iff.2 ⟨place, hleads, ?_⟩⟩
  rw [node?_eq_file_iff.2 hfile, hslash]
  rfl

/-- What was stored at a path is fetched there. -/
theorem fetch_store (h : f.store path content = .ok f') (hnull : ¬f.LeadsTo path .nullDevice) :
    f'.fetch path = .ok content := by
  obtain ⟨hvalid, hslash, place, hleads, hfolder, rfl⟩ := store_eq_ok_iff.1 h
  have hne : place ≠ .nullDevice := fun heq => hnull (heq ▸ hleads)
  refine fetch_of_leadsTo hvalid hslash (walk_write hfolder hleads) ?_
  rw [lookup_write hne, if_pos rfl]

/-- Storing a content at a path does this, and nothing else. -/
theorem isStored_of_store (h : f.store path content = .ok f') : f.IsStored f' path content := by
  obtain ⟨-, -, place, hleads, -, hwrite⟩ := store_eq_ok_iff.1 h
  refine ⟨fetch_store h, fun hnull => ?_, fun other hother => ?_⟩
  · rw [← hwrite, write, if_pos (Except.ok.inj (hleads.symm.trans hnull))]
  · rw [← hwrite]
    by_cases hnull : place = .nullDevice
    · rw [write, if_pos hnull]
    · rw [lookup_write hnull, if_neg (fun heq : other = place => hother (heq ▸ hleads))]

end MessageCatalog.Folder
