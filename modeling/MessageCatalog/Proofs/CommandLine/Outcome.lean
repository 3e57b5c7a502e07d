import Mathlib.Data.List.Forall2
import MessageCatalog.CommandLine.Run
import MessageCatalog.Proofs.CommandLine.Precedence
import MessageCatalog.Proofs.Store.Folder

/-!
# Outcomes of concatenating

`mocat` stores the image of all its inputs together, or nothing: with one input that cannot
be read, or is no image, it fails before it stores anything. What it stores is read again as
what the inputs were put together to. So under each key is the entry of the last input that
has the key, and each header has the value of the first input that has it.

* `Job.outcome`: what a job leaves, which is what its command leaves (`run_eq_outcome`);
* `Stores`: a content is the output or is fetched from the folder, if that takes it
  (`stores_carryOut`);
* `Job.outcome_concatenate`: what `mocat` leaves, for any inputs.
-/

namespace MessageCatalog.CommandLine

open Catalog

/-! ### Jobs -/

/-- What a job leaves in its surroundings. -/
def Job.outcome (job : Job) (s : Surroundings) : Outcome :=
  carryOut job.command s.folder (job.plan (fetchAll s job.inputNames))

theorem Command.command_of_job? {command : Command} {call : Call} {job : Job}
    (h : command.job? call = some job) : job.command = command := by
  simp only [job?] at h
  split at h
  · cases h; rfl
  · cases h; rfl
  · cases h; rfl
  · cases h

/-- A command whose arguments ask for a job leaves what the job does. -/
theorem run_eq_outcome {command : Command} {arguments : List String} {job : Job}
    (h : command.read arguments = .ok job) (s : Surroundings) :
    run command arguments s = job.outcome s := by
  have hcommand : job.command = command := by
    rw [Command.read, bind_eq_ok_iff] at h
    obtain ⟨call, -, h⟩ := h
    cases hjob : command.job? call with
    | none =>
      rw [hjob] at h
      cases h
    | some job' =>
      rw [hjob] at h
      cases h
      exact Command.command_of_job? hjob
  rw [run, h, Job.outcome, hcommand]

/-! ### Storing -/

/-- An outcome of storing a content under a name, which has the status `status` unless the
    content cannot be stored. -/
structure Stores (folder : Folder) (name : String) (content : Bytes) (status : Nat)
    (outcome : Outcome) : Prop where
  /-- The content is the standard output. -/
  standard : name = standardStream →
    outcome.status = status ∧ outcome.output = content ∧ outcome.folder = folder
  /-- The content is in the folder: it is what is fetched from there. -/
  file : name ≠ standardStream → folder.Takes name →
    outcome.status = status ∧ outcome.output = [] ∧
      folder.store name content = .ok outcome.folder ∧
      folder.IsStored outcome.folder name content
  /-- The folder does not take it. -/
  refused : name ≠ standardStream → ¬folder.Takes name →
    outcome.status = 1 ∧ outcome.output = [] ∧ outcome.folder = folder

/-- Carrying out a plan stores its product. -/
theorem stores_carryOut {plan : Plan} {name : String} {content : Bytes}
    (h : plan.product = some (name, content)) (command : Command) (folder : Folder) :
    Stores folder name content plan.status (carryOut command folder plan) := by
  constructor
  · intro hname
    simp only [carryOut, h, if_pos hname, and_self]
  · intro hname htakes
    obtain ⟨folder', hstore⟩ := (Folder.exists_store_iff content).2 htakes
    simp only [carryOut, h, if_neg hname, hstore, true_and]
    exact Folder.isStored_of_store hstore
  · intro hname htakes
    cases hstore : folder.store name content with
    | ok folder' => exact absurd ((Folder.exists_store_iff content).1 ⟨folder', hstore⟩) htakes
    | error e => simp only [carryOut, h, if_neg hname, hstore, and_self]

/-! ### Inputs -/

/-- The catalogs of inputs that are images, in order. -/
def AreImages (inputs : Inputs) (catalogs : List Catalog) : Prop :=
  List.Forall₂ (fun input c => ∃ bytes, input.2 = .ok bytes ∧ (decode bytes).value = .ok c)
    inputs catalogs

theorem AreImages.isUsable {inputs : Inputs} {catalogs : List Catalog}
    (h : AreImages inputs catalogs) : ∀ input ∈ inputs, IsUsable input := by
  induction h with
  | nil => nofun
  | @cons input c inputs catalogs hinput _ ih =>
    obtain ⟨bytes, hfetched, hdecode⟩ := hinput
    exact List.forall_mem_cons.2 ⟨⟨bytes, c, hfetched, hdecode⟩, ih⟩

theorem AreImages.usable_eq {inputs : Inputs} {catalogs : List Catalog}
    (h : AreImages inputs catalogs) : usable (catalogsOf inputs) = catalogs := by
  induction h with
  | nil => rfl
  | @cons input c inputs catalogs hinput _ ih =>
    have himported : (ofFetched input.1 input.2).value = .ok c :=
      value_ofFetched_eq_ok_iff.2 hinput
    rw [usable, catalogsOf, List.map_cons, List.filterMap_cons]
    simp only [himported]
    exact congrArg (c :: ·) ih

/-- Inputs of which all are usable are images of the usable catalogs. -/
theorem areImages_usable {inputs : Inputs} (h : ∀ input ∈ inputs, IsUsable input) :
    AreImages inputs (usable (catalogsOf inputs)) := by
  induction inputs with
  | nil => exact .nil
  | cons input inputs ih =>
    obtain ⟨hinput, hinputs⟩ := List.forall_mem_cons.1 h
    obtain ⟨bytes, c, hfetched, hdecode⟩ := hinput
    have hall : AreImages (input :: inputs) (c :: usable (catalogsOf inputs)) :=
      .cons ⟨bytes, hfetched, hdecode⟩ (ih hinputs)
    rwa [hall.usable_eq]

theorem AreImages.merged_eq {inputs : Inputs} {catalogs : List Catalog}
    (h : AreImages inputs catalogs) : merged inputs = catalogs.foldl append empty := by
  rw [merged, h.usable_eq]

theorem AreImages.decoded {inputs : Inputs} {catalogs : List Catalog}
    (h : AreImages inputs catalogs) : ∀ c ∈ catalogs, ∃ bytes, (decode bytes).value = .ok c := by
  rw [← h.usable_eq]
  exact fun c => exists_decode_of_mem_usable

/-- What images are put together to is read from its image again. -/
theorem AreImages.decode_image {inputs : Inputs} {catalogs : List Catalog}
    (h : AreImages inputs catalogs)
    (hlength : (catalogs.foldl append empty).imageLength ≤ 2 ^ 32 - 1) (order : ByteOrder) :
    (decode ((catalogs.foldl append empty).image order)).value =
      .ok (catalogs.foldl append empty) := by
  rw [← h.merged_eq] at hlength ⊢
  exact decode_image_merged hlength order

namespace Job

/-! ### Concatenating -/

/-- With an input that is no image, there is nothing to store. -/
theorem planConcatenate_of_not_isUsable {inputs : Inputs}
    (h : ∃ input ∈ inputs, ¬IsUsable input) (output : String) (order : ByteOrder)
    (verbose : Bool) :
    (planConcatenate output order verbose inputs).product = none ∧
      (planConcatenate output order verbose inputs).status = 1 := by
  have hunusable : unusable (catalogsOf inputs) ≠ [] := by
    rw [Ne, unusable_eq_nil_iff]
    push Not
    exact h
  obtain ⟨bad, more, hbad⟩ := List.exists_cons_of_ne_nil hunusable
  simp only [planConcatenate, hbad, and_self]

theorem status_planConcatenate {inputs : Inputs} (h : ∀ input ∈ inputs, IsUsable input)
    (output : String) (order : ByteOrder) (verbose : Bool) :
    (planConcatenate output order verbose inputs).status = 0 := by
  simp only [planConcatenate, unusable_eq_nil_iff.2 h]

/-- What `mocat` leaves of inputs that are images. -/
theorem stores_concatenate {names : List String} {s : Surroundings} {catalogs : List Catalog}
    (h : AreImages (fetchAll s names) catalogs) (output : String) (order : ByteOrder)
    (verbose : Bool) :
    Stores s.folder output ((catalogs.foldl append empty).image order) 0
      ((concatenate output order verbose names).outcome s) := by
  have hstores := stores_carryOut (product_planConcatenate h.isUsable output order verbose)
    .concatenate s.folder
  rwa [status_planConcatenate h.isUsable, h.merged_eq] at hstores

/-- What `mocat` leaves. With an input that cannot be read, or is no image, it fails and
    leaves everything as it is. Otherwise it stores an image, unless it cannot be stored,
    in which under each key is the entry of the last input that has the key, and the headers
    are those of all inputs, each where it comes first and with its first value. -/
theorem outcome_concatenate (output : String) (order : ByteOrder) (verbose : Bool)
    (names : List String) (s : Surroundings) :
    let job := concatenate output order verbose names
    let inputs := fetchAll s names
    (∀ arguments, Command.concatenate.read arguments = .ok job →
        run .concatenate arguments s = job.outcome s) ∧
      ((∃ input ∈ inputs, ¬IsUsable input) →
        (job.outcome s).status = 1 ∧ (job.outcome s).output = [] ∧
          (job.outcome s).folder = s.folder) ∧
      ∀ catalogs, AreImages inputs catalogs →
        (catalogs.foldl append empty).imageLength ≤ 2 ^ 32 - 1 →
          ∃ image d, Stores s.folder output image 0 (job.outcome s) ∧
            (decode image).value = .ok d ∧ Unites catalogs d ∧
            ∀ name, d.header? name = catalogs.findSome? (·.header? name) := by
  intro job inputs
  refine ⟨fun arguments hread => run_eq_outcome hread s, fun hbad => ?_,
    fun catalogs himages hlength => ?_⟩
  · obtain ⟨hproduct, hstatus⟩ := planConcatenate_of_not_isUsable hbad output order verbose
    have houtcome : job.outcome s = carryOut .concatenate s.folder
      (planConcatenate output order verbose inputs) := rfl
    rw [houtcome, carryOut, hproduct]
    exact ⟨hstatus, rfl, rfl⟩
  · exact ⟨_, catalogs.foldl append empty, stores_concatenate himages output order verbose,
      himages.decode_image hlength order, unites_append himages.decoded,
      header?_append himages.decoded⟩

/-- A folder with two drafts. -/
def desk : Surroundings where
  folder := .ofFiles (drafts.filterMap fun draft => draft.2.toOption.map (draft.1, ·))
  input := []

theorem fetchAll_desk : fetchAll desk ["first", "second"] = drafts :=
  rfl

theorem areImages_desk :
    AreImages (fetchAll desk ["first", "second"]) (usable (catalogsOf drafts)) := by
  rw [fetchAll_desk]
  exact areImages_usable isUsable_drafts

/-- There may be a new file in the folder. -/
theorem takes_desk : desk.folder.Takes "both" ∧ ¬desk.folder.LeadsTo "both" .nullDevice :=
  ⟨⟨rfl, rfl, _, rfl, by decide⟩, nofun⟩

/-- The drafts have a message and a header in common, and are stored in a new file. A third one is
    not there, and nothing is stored. -/
theorem outcome_concatenate_drafts :
    let job := concatenate "both" .little false ["first", "second"]
    let failing := concatenate "both" .little false ["first", "third"]
    run .concatenate ["-o", "both", "first", "second"] desk = job.outcome desk ∧
      AreImages (fetchAll desk ["first", "second"]) (usable (catalogsOf drafts)) ∧
      ((usable (catalogsOf drafts)).foldl append empty).imageLength ≤ 2 ^ 32 - 1 ∧
      desk.folder.Takes "both" ∧ ¬desk.folder.LeadsTo "both" .nullDevice ∧
      (job.outcome desk).status = 0 ∧
      (∃ image d, (job.outcome desk).folder.fetch "both" = .ok image ∧
        (decode image).value = .ok d ∧
        d.entries.find? [0x61] = some ⟨[0x61], none, none, [[0x42]]⟩ ∧
        d.headers.names = ["Language", "Team"] ∧ d.header? "Language" = some "bg") ∧
      (∃ input ∈ fetchAll desk ["first", "third"], ¬IsUsable input) ∧
      (failing.outcome desk).status = 1 ∧ (failing.outcome desk).folder = desk.folder := by
  intro job failing
  obtain ⟨hrun, -, hstores⟩ := outcome_concatenate "both" .little false ["first", "second"] desk
  obtain ⟨-, hfails, -⟩ := outcome_concatenate "both" .little false ["first", "third"] desk
  have hlength : ((usable (catalogsOf drafts)).foldl append empty).imageLength ≤ 2 ^ 32 - 1 := by
    decide +kernel
  have hthird : ∃ input ∈ fetchAll desk ["first", "third"], ¬IsUsable input := by
    refine ⟨("third", .error .notFound), List.mem_cons_of_mem _ (List.mem_cons_self ..), ?_⟩
    rintro ⟨bytes, c, hbytes, -⟩
    cases hbytes
  obtain ⟨image, d, himage, hdecode, hunites, hheader⟩ := hstores _ areImages_desk hlength
  obtain ⟨hstatus, -, -, hstored⟩ := himage.file (by decide) takes_desk.1
  refine ⟨hrun _ rfl, areImages_desk, hlength, takes_desk.1, takes_desk.2, hstatus, ?_, hthird,
    (hfails hthird).1, (hfails hthird).2.2⟩
  exact ⟨image, d, hstored.fetch takes_desk.2, hdecode,
    (hunites.entries _).trans (by decide +kernel), hunites.names.trans (by decide +kernel),
    (hheader _).trans (by decide +kernel)⟩

end Job

end MessageCatalog.CommandLine
