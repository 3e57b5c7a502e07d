import MessageCatalog.Proofs.CommandLine.Outcome

/-!
# Dumping what was concatenated

`msgunfmt` leaves inputs out that are no images: its text is the one for the others, and only
the status tells. It puts the others together much as `mocat` does. So dumping the image that
`mocat` makes of some inputs gives the same entries as dumping the inputs, and headers of the
same names; only which value of a header counts is different, the last one or the first one.

* `fetchAll_filter`: inputs that are left out do not matter to the others, the standard input
  included;
* `Job.outcome_dump`: what `msgunfmt` leaves, for any inputs, and for an image by `mocat`.
-/

namespace MessageCatalog.CommandLine

open Catalog

/-! ### Inputs that are left out -/

/-- The standard input, once it is read, is no image. -/
theorem not_isUsable_nil : ¬IsUsable (standardStream, .ok []) := by
  rintro ⟨bytes, c, hbytes, hdecode⟩
  cases hbytes
  cases hdecode

theorem fetchAll_cons_standardStream (s : Surroundings) (names : List String) :
    fetchAll s (standardStream :: names) =
      (standardStream, .ok s.input) :: fetchAll { s with input := [] } names := by
  rw [fetchAll, fetch, if_pos rfl]

theorem fetchAll_cons_of_ne {name : String} (h : name ≠ standardStream) (s : Surroundings)
    (names : List String) :
    fetchAll s (name :: names) = (name, (fetch s name).1) :: fetchAll s names := by
  have hfetch : (fetch s name).2 = s := by
    rw [fetch, if_neg h]
    split
    · rfl
    · rfl
  show (name, (fetch s name).1) :: fetchAll (fetch s name).2 names = _
  rw [hfetch]

/-- The standard input is empty to those who read it after it was read. -/
theorem eq_nil_of_mem_fetchAll {s : Surroundings} (hs : s.input = []) {names : List String}
    {fetched : Except StoreError Bytes} (h : (standardStream, fetched) ∈ fetchAll s names) :
    fetched = .ok [] := by
  induction names with
  | nil => cases h
  | cons name names ih =>
    by_cases hname : name = standardStream
    · subst hname
      have hself : { s with input := [] } = s := by rw [← hs]
      rw [fetchAll_cons_standardStream, hself, hs] at h
      rcases List.mem_cons.1 h with h | h
      · cases h; rfl
      · exact ih h
    · rw [fetchAll_cons_of_ne hname] at h
      rcases List.mem_cons.1 h with h | h
      · cases h
        exact absurd rfl hname
      · exact ih h

/-- Other names give the same, whatever the standard input is. -/
theorem fetchAll_of_not_mem {names : List String} (h : standardStream ∉ names) (s : Surroundings)
    (input : Bytes) : fetchAll { s with input } names = fetchAll s names := by
  induction names with
  | nil => rfl
  | cons name names ih =>
    rw [List.mem_cons, not_or] at h
    have hfetch : (fetch { s with input } name).1 = (fetch s name).1 := by
      simp only [fetch, if_neg (Ne.symm h.1)]
      split
      · rfl
      · rfl
    rw [fetchAll_cons_of_ne (Ne.symm h.1), fetchAll_cons_of_ne (Ne.symm h.1), ih h.2, hfetch]

/-- Inputs that are left out, among them what is read of the standard input after its end, do
    not matter to the others. -/
theorem fetchAll_filter {keep : String × Except StoreError Bytes → Bool}
    (hkeep : keep (standardStream, .ok []) = false) (s : Surroundings) (names : List String) :
    fetchAll s (((fetchAll s names).filter keep).map (·.1)) = (fetchAll s names).filter keep := by
  induction names generalizing s with
  | nil => rfl
  | cons name names ih =>
    by_cases hname : name = standardStream
    · subst hname
      rw [fetchAll_cons_standardStream, List.filter_cons]
      split
      · rw [List.map_cons, fetchAll_cons_standardStream, ih]
      · -- What is read of it later is left out as well, so no other input is the standard one.
        have hnames : standardStream ∉
            ((fetchAll { s with input := [] } names).filter keep).map (·.1) := by
          intro hmem
          obtain ⟨⟨_, fetched⟩, hfetched, rfl⟩ := List.mem_map.1 hmem
          rw [List.mem_filter] at hfetched
          rw [eq_nil_of_mem_fetchAll rfl hfetched.1, hkeep] at hfetched
          exact Bool.false_ne_true hfetched.2
        rw [← fetchAll_of_not_mem hnames s [], ih]
    · rw [fetchAll_cons_of_ne hname, List.filter_cons]
      split
      · rw [List.map_cons, fetchAll_cons_of_ne hname, ih]
      · exact ih s

/-- The catalogs of inputs are those of the usable ones. -/
theorem usable_filter_isUsable (inputs : Inputs) :
    usable (catalogsOf (inputs.filter (IsUsable ·))) = usable (catalogsOf inputs) := by
  induction inputs with
  | nil => rfl
  | cons input inputs ih =>
    have hcons : ∀ more : Inputs, usable (catalogsOf (input :: more)) =
        usable (catalogsOf [input]) ++ usable (catalogsOf more) := usable_append [input]
    rw [List.filter_cons, hcons, ← ih]
    split
    case isTrue => exact hcons _
    case isFalse husable =>
      have hnone : usable (catalogsOf [input]) = [] := by
        cases himported : (ofFetched input.1 input.2).value with
        | error e => simp [usable, catalogsOf, himported, Except.toOption]
        | ok c => exact absurd (isUsable_iff.2 ⟨c, himported⟩) (by simpa using husable)
      rw [hnone, List.nil_append]

/-! ### Texts -/

/-- The text of the entries of a catalog. -/
def entriesText (c : Catalog) : Bytes :=
  c.entries.values.flatMap PoText.ofEntry

/-- The text of a catalog: its headers, and its entries. -/
theorem ofCatalog_eq (c : Catalog) :
    PoText.ofCatalog c = PoText.ofHeaders c.headers ++ entriesText c :=
  rfl

/-- The text of one catalog that is put together is its own. -/
theorem ofCatalog_empty_override {c : Catalog} (h : Sound c) :
    PoText.ofCatalog (override empty c) = PoText.ofCatalog c := by
  have hheaders : (override empty c).headers = c.headers :=
    (headers_override empty c).trans (Headers.setAll_empty h.names)
  have hentries : (override empty c).entries = c.entries :=
    (entries_override empty c).trans (KeyMap.empty_union _)
  rw [PoText.ofCatalog, hheaders, hentries, ← PoText.ofCatalog]

/-- The texts of what is put together in the two ways are the same, if the catalogs agree. -/
theorem ofCatalog_eq_of_agree {catalogs : List Catalog}
    (hdecoded : ∀ c ∈ catalogs, ∃ bytes, (decode bytes).value = .ok c) (h : Agree catalogs) :
    PoText.ofCatalog (catalogs.foldl override empty) =
      PoText.ofCatalog (catalogs.foldl append empty) := by
  have happend := unites_append hdecoded
  have hoverride := unites_override catalogs
  have hnodup := (foldl_append_decoded hdecoded).1.sound.names
  have hheaders : (catalogs.foldl append empty).headers =
      (catalogs.foldl override empty).headers := by
    refine happend.headers_eq hoverride hnodup fun name => ?_
    rw [header?_append hdecoded, header?_override hdecoded, h.findSome?_reverse]
  rw [ofCatalog_eq, ofCatalog_eq, entriesText, entriesText, hheaders,
    happend.entries_eq hoverride]

namespace Job

/-! ### Dumping -/

theorem product_planDump (output : String) (inputs : Inputs) :
    (planDump output inputs).product =
      some (output, PoText.ofCatalog ((usable (catalogsOf inputs)).foldl override empty)) :=
  rfl

theorem status_planDump (output : String) (inputs : Inputs) :
    (planDump output inputs).status = if ∀ input ∈ inputs, IsUsable input then 0 else 1 := by
  rw [planDump]
  exact if_congr unusable_eq_nil_iff rfl rfl

/-- What dumping leaves: a text is stored, and inputs left out show in the status. -/
theorem stores_dump (output : String) (names : List String) (s : Surroundings) :
    Stores s.folder output
      (PoText.ofCatalog ((usable (catalogsOf (fetchAll s names))).foldl override empty))
      (if ∀ input ∈ fetchAll s names, IsUsable input then 0 else 1)
      ((dump output names).outcome s) := by
  have h := stores_carryOut (product_planDump output (fetchAll s names)) .dump s.folder
  rwa [status_planDump] at h

/-- Inputs that are no images do not matter to the text. -/
theorem stores_dump_filter (output : String) (names : List String) (s : Surroundings) :
    let inputs := fetchAll s names
    Stores s.folder output (PoText.ofCatalog ((usable (catalogsOf inputs)).foldl override empty)) 0
      ((dump output ((inputs.filter (IsUsable ·)).map (·.1))).outcome s) := by
  intro inputs
  have hkeep : decide (IsUsable (standardStream, .ok [])) = false :=
    decide_eq_false not_isUsable_nil
  have h := stores_dump output ((inputs.filter (IsUsable ·)).map (·.1)) s
  rw [fetchAll_filter hkeep, usable_filter_isUsable, if_pos] at h
  · exact h
  · intro input hinput
    exact of_decide_eq_true (List.mem_filter.1 hinput).2

/-- What dumping leaves of inputs that are images. -/
theorem stores_dump_images {names : List String} {s : Surroundings} {catalogs : List Catalog}
    (h : AreImages (fetchAll s names) catalogs) (output : String) :
    Stores s.folder output (PoText.ofCatalog (catalogs.foldl override empty)) 0
      ((dump output names).outcome s) := by
  have hstores := stores_dump output names s
  rwa [if_pos h.isUsable, h.usable_eq] at hstores

/-- What `msgunfmt` leaves. The text is the one for the inputs that are images, and the status
    tells whether there are others. If all are images, and fit into an image by `mocat`,
    dumping this image gives the same text of the entries and the same names of headers in the
    same order, but the first values of headers instead of the last ones. So the texts are the
    same if the inputs agree on the headers they share. -/
theorem outcome_dump (names : List String) (s : Surroundings) :
    let inputs := fetchAll s names
    let images := (inputs.filter (IsUsable ·)).map (·.1)
    (∀ arguments output, Command.dump.read arguments = .ok (dump output names) →
        run .dump arguments s = (dump output names).outcome s) ∧
      (∃ text, ∀ output,
        Stores s.folder output text (if ∀ input ∈ inputs, IsUsable input then 0 else 1)
            ((dump output names).outcome s) ∧
          Stores s.folder output text 0 ((dump output images).outcome s)) ∧
      ∀ catalogs, AreImages inputs catalogs →
        (catalogs.foldl append empty).imageLength ≤ 2 ^ 32 - 1 → ∀ order, ∃ image d d',
          (∀ output verbose,
            Stores s.folder output image 0 ((concatenate output order verbose names).outcome s)) ∧
          (∀ output,
            Stores s.folder output (PoText.ofCatalog d) 0 ((dump output names).outcome s)) ∧
          (∀ (s' : Surroundings) (name : String), (fetch s' name).1 = .ok image → ∀ output,
            Stores s'.folder output (PoText.ofCatalog d') 0 ((dump output [name]).outcome s')) ∧
          Unites catalogs d ∧ Unites catalogs d' ∧
          entriesText d = entriesText d' ∧ d.headers.names = d'.headers.names ∧
          (∀ name, d.header? name = catalogs.reverse.findSome? (·.header? name)) ∧
          (∀ name, d'.header? name = catalogs.findSome? (·.header? name)) ∧
          (Agree catalogs → PoText.ofCatalog d = PoText.ofCatalog d') := by
  intro inputs images
  refine ⟨fun arguments output hread => run_eq_outcome hread s,
    ⟨_, fun output => ⟨stores_dump output names s, stores_dump_filter output names s⟩⟩,
    fun catalogs himages hlength order => ?_⟩
  have hdecoded := himages.decoded
  have happend := unites_append hdecoded
  have hoverride := unites_override catalogs
  refine ⟨(catalogs.foldl append empty).image order, catalogs.foldl override empty,
    catalogs.foldl append empty, fun output => stores_concatenate himages output order,
    stores_dump_images himages, fun s' name hfetch output => ?_, hoverride, happend, ?_,
    hoverride.names.trans happend.names.symm, header?_override hdecoded,
    header?_append hdecoded, ofCatalog_eq_of_agree hdecoded⟩
  · have himage : AreImages (fetchAll s' [name]) [catalogs.foldl append empty] :=
      .cons ⟨_, hfetch, himages.decode_image hlength order⟩ .nil
    have hsound := (foldl_append_decoded hdecoded).1.sound
    have hstores := stores_dump_images himage output
    rwa [List.foldl_cons, List.foldl_nil, ofCatalog_empty_override hsound] at hstores
  · rw [entriesText, hoverride.entries_eq happend, ← entriesText]

/-- The two drafts are dumped, and so is the image that is made of them: from the file in which it
    was stored. -/
theorem outcome_dump_drafts :
    let made := (concatenate "both" .big false ["first", "second"]).outcome desk
    let dumped := (dump "-" ["first", "second"]).outcome desk
    let again := (dump "-" ["both"]).outcome ⟨made.folder, []⟩
    AreImages (fetchAll desk ["first", "second"]) (usable (catalogsOf drafts)) ∧
      ((usable (catalogsOf drafts)).foldl append empty).imageLength ≤ 2 ^ 32 - 1 ∧
      ∃ image d d', (fetch ⟨made.folder, []⟩ "both").1 = .ok image ∧
        made.status = 0 ∧ dumped.status = 0 ∧ again.status = 0 ∧
        dumped.output = PoText.ofCatalog d ∧ again.output = PoText.ofCatalog d' ∧
        entriesText d = entriesText d' ∧
        d.headers.names = ["Language", "Team"] ∧ d'.headers.names = ["Language", "Team"] ∧
        d.header? "Language" = some "mk" ∧ d'.header? "Language" = some "bg" := by
  intro made dumped again
  have hlength : ((usable (catalogsOf drafts)).foldl append empty).imageLength ≤ 2 ^ 32 - 1 := by
    decide +kernel
  obtain ⟨-, -, himages⟩ := outcome_dump ["first", "second"] desk
  obtain ⟨image, d, d', hmade, hdumped, hagain, hd, hd', htext, -, hheader, hheader', -⟩ :=
    himages _ areImages_desk hlength .big
  obtain ⟨hstatus, -, -, hstored⟩ := (hmade "both" false).file (by decide) takes_desk.1
  have hfetch : (fetch ⟨made.folder, []⟩ "both").1 = .ok image := hstored.fetch takes_desk.2
  obtain ⟨hdumped, houtput, -⟩ := (hdumped "-").standard rfl
  obtain ⟨hagain, houtput', -⟩ := (hagain _ _ hfetch "-").standard rfl
  exact ⟨areImages_desk, hlength, image, d, d', hfetch, hstatus, hdumped, hagain, houtput,
    houtput', htext, hd.names.trans (by decide +kernel), hd'.names.trans (by decide +kernel),
    (hheader _).trans (by decide +kernel), (hheader' _).trans (by decide +kernel)⟩

end Job

end MessageCatalog.CommandLine
