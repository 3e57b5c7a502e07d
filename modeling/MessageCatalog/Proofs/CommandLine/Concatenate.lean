import MessageCatalog.CommandLine.Job
import MessageCatalog.Proofs.Catalog.RoundTrip

/-!
# Concatenating in stages

`mocat` appends catalogs to each other, from the empty one on. Of entries the last ones
count and of headers the first ones, but both ways of appending are associative, and an
image loses nothing of a catalog that was put together from images. So some neighbouring
inputs may be concatenated first, in whatever order of bytes, and their image takes their
place.

* `append_eq`: what appending does to entries and headers;
* `append_assoc`, `append_foldl`: appending in another grouping;
* `merged`: what inputs are put together to, and its image (`decode_image_merged`);
* `Job.planConcatenate_assoc`: concatenating some of the inputs first.
-/

namespace MessageCatalog

open Catalog

namespace CommandLine

/-! ### Appending -/

/-- Adds a header that is not there yet. -/
def complete (c : Catalog) (field : String × String) : Catalog :=
  if (c.header? field.1).isSome then c else c.setHeader field.1 field.2

/-- Of headers with different names, those that are not there yet are added. -/
theorem foldl_complete {c : Catalog} (hcompiled : c.compiled = none)
    {fields : List (String × String)} (hnodup : (fields.map (·.1)).Nodup) :
    fields.foldl complete c = ⟨c.entries, c.headers.extended ⟨fields⟩, none⟩ := by
  induction fields generalizing c with
  | nil =>
    rw [Headers.extended, List.filter_nil, List.append_nil, ← hcompiled]
    rfl
  | cons field fields ih =>
    rw [List.map_cons, List.nodup_cons] at hnodup
    rw [List.foldl_cons, complete, header?]
    by_cases hname : field.1 ∈ c.headers.names
    · rw [if_pos, ih hcompiled hnodup.2, Headers.extended_cons_of_mem hname]
      rw [Option.isSome_iff_ne_none, Ne, Headers.get?_eq_none_iff]
      exact not_not_intro hname
    · rw [Headers.get?_eq_none_iff.2 hname, Option.isSome_none, if_neg Bool.false_ne_true,
        ih ?_ hnodup.2, Headers.extended_cons_of_not_mem hname hnodup.1]
      · rfl
      · rw [setHeader, hcompiled]
        exact ite_self none

/-- What appending a catalog does, as long as no rule is compiled. -/
theorem append_eq {c guest : Catalog} (hcompiled : c.compiled = none) (hguest : Sound guest) :
    append c guest =
      ⟨c.entries.union guest.entries, c.headers.extended guest.headers, none⟩ := by
  show (guest.headers.fields.foldl complete c).merge guest = _
  rw [foldl_complete hcompiled hguest.names]
  rfl

theorem append_empty (c : Catalog) : append c empty = c :=
  rfl

theorem empty_append {guest : Catalog} (hguest : Sound guest) (hcompiled : guest.compiled = none) :
    append empty guest = guest := by
  have hunion : empty.entries.union guest.entries = guest.entries := KeyMap.empty_union _
  have hextended : empty.headers.extended guest.headers = guest.headers :=
    Headers.empty_extended _
  rw [append_eq rfl hguest, hunion, hextended, ← hcompiled]

theorem compiled_append {c guest : Catalog} (hcompiled : c.compiled = none)
    (hguest : Sound guest) : (append c guest).compiled = none := by
  rw [append_eq hcompiled hguest]

theorem reachable_append {c guest : Catalog} (hc : Reachable c) (hguest : Reachable guest) :
    Reachable (append c guest) := by
  have hcomplete : Reachable (guest.headers.fields.foldl complete c) := by
    refine List.foldlRecOn _ complete hc fun d hd field _ => ?_
    rw [complete]
    split
    · exact hd
    · exact hd.setHeader ..
  exact hcomplete.merge hguest

theorem append_assoc {c d guest : Catalog} (hc : c.compiled = none) (hd : d.compiled = none)
    (hdr : Reachable d) (hguest : Reachable guest) :
    append (append c d) guest = append c (append d guest) := by
  have hsound := (reachable_append hdr hguest).sound
  rw [append_eq (compiled_append hc hdr.sound) hguest.sound, append_eq hc hsound,
    append_eq hc hdr.sound, append_eq hd hguest.sound]
  simp only [KeyMap.union_assoc, Headers.extended_assoc]

/-- Catalogs may be appended to each other before they are appended to another one. -/
theorem append_foldl {l : List Catalog} (hl : ∀ d ∈ l, Reachable d) {c : Catalog}
    (hc : c.compiled = none) : append c (l.foldl append empty) = l.foldl append c := by
  -- By induction on the catalogs, for whatever was put together of those before them.
  suffices h : ∀ d, Reachable d → d.compiled = none →
      append c (l.foldl append d) = l.foldl append (append c d) from
    (h empty .empty rfl).trans (by rw [append_empty])
  induction l with
  | nil => exact fun d _ _ => rfl
  | cons guest l ih =>
    intro d hd hcompiled
    have hguest : Reachable guest := hl guest List.mem_cons_self
    rw [List.foldl_cons, List.foldl_cons, append_assoc hc hcompiled hd hguest]
    exact ih (fun e he => hl e (List.mem_cons_of_mem _ he)) _ (reachable_append hd hguest)
      (compiled_append hcompiled hguest.sound)

/-! ### Images of what was appended -/

theorem settled_append {c guest : Catalog} (hc : Settled c) (hguest : Settled guest)
    (hsound : Sound guest) : Settled (append c guest) := by
  rw [append_eq hc.compiled hsound]
  refine ⟨fun p hp => ?_, fun field hfield => ?_, rfl⟩
  · exact (KeyMap.mem_union hp).elim (hc.entries p) (hguest.entries p)
  · rcases List.mem_append.1 hfield with hfield | hfield
    · exact hc.headers field hfield
    · exact hguest.headers field (List.mem_filter.1 hfield).1

/-- What was put together from images is reachable, and settled. -/
theorem foldl_append_decoded {l : List Catalog}
    (hl : ∀ c ∈ l, ∃ bytes, (decode bytes).value = .ok c) :
    Reachable (l.foldl append empty) ∧ Settled (l.foldl append empty) := by
  refine List.foldlRecOn (motive := fun c => Reachable c ∧ Settled c) l append
    ⟨.empty, .empty⟩ fun c hc guest hguest => ?_
  obtain ⟨bytes, hdecode⟩ := hl guest hguest
  have hreachable := reachable_of_decode hdecode
  exact ⟨reachable_append hc.1 hreachable,
    settled_append hc.2 (settled_of_decode hdecode) hreachable.sound⟩

/-! ### Inputs -/

/-- An input is an image. -/
def IsUsable (input : String × Except StoreError Bytes) : Prop :=
  ∃ bytes c, input.2 = .ok bytes ∧ (decode bytes).value = .ok c

/-- The catalog that is put together from the usable inputs. -/
def merged (inputs : Inputs) : Catalog :=
  (usable (catalogsOf inputs)).foldl append empty

theorem usable_append (inputs more : Inputs) :
    usable (catalogsOf (inputs ++ more)) =
      usable (catalogsOf inputs) ++ usable (catalogsOf more) := by
  rw [catalogsOf, List.map_append, usable, List.filterMap_append]
  rfl

theorem unusable_append (inputs more : Inputs) :
    unusable (catalogsOf (inputs ++ more)) =
      unusable (catalogsOf inputs) ++ unusable (catalogsOf more) := by
  rw [catalogsOf, List.map_append, unusable, List.filterMap_append]
  rfl

/-- An input is usable iff a catalog comes from it. -/
theorem isUsable_iff {input : String × Except StoreError Bytes} :
    IsUsable input ↔ ∃ c, (ofFetched input.1 input.2).value = .ok c := by
  simp only [IsUsable, value_ofFetched_eq_ok_iff]
  rw [exists_comm]

instance : DecidablePred IsUsable := fun input =>
  decidable_of_iff ((ofFetched input.1 input.2).value.isOk = true) <| by
    rw [isUsable_iff]
    cases (ofFetched input.1 input.2).value with
    | error e => simp [Except.isOk, Except.toBool]
    | ok c => simp [Except.isOk, Except.toBool]

/-- Nothing is wrong with inputs iff all are usable. -/
theorem unusable_eq_nil_iff {inputs : Inputs} :
    unusable (catalogsOf inputs) = [] ↔ ∀ input ∈ inputs, IsUsable input := by
  rw [unusable, catalogsOf, List.filterMap_map, List.filterMap_eq_nil_iff]
  refine forall₂_congr fun ⟨name, fetched⟩ _ => ?_
  rw [isUsable_iff, Function.comp_apply]
  dsimp only
  cases (ofFetched name fetched).value with
  | error e => simp
  | ok c => simp

/-- The catalogs of inputs are decoded. -/
theorem exists_decode_of_mem_usable {inputs : Inputs} {c : Catalog}
    (h : c ∈ usable (catalogsOf inputs)) : ∃ bytes, (decode bytes).value = .ok c := by
  obtain ⟨⟨name, imported⟩, hmem, himported⟩ := List.mem_filterMap.1 h
  obtain ⟨⟨_, fetched⟩, -, heq⟩ := List.mem_map.1 hmem
  cases heq
  cases hfetched : (ofFetched name fetched).value with
  | error e =>
    rw [hfetched] at himported
    cases himported
  | ok d =>
    rw [hfetched] at himported
    cases himported
    obtain ⟨bytes, -, hdecode⟩ := value_ofFetched_eq_ok_iff.1 hfetched
    exact ⟨bytes, hdecode⟩

theorem reachable_merged (inputs : Inputs) : Reachable (merged inputs) :=
  (foldl_append_decoded fun _ => exists_decode_of_mem_usable).1

theorem settled_merged (inputs : Inputs) : Settled (merged inputs) :=
  (foldl_append_decoded fun _ => exists_decode_of_mem_usable).2

/-- What is put together from inputs, and written, is read again. -/
theorem decode_image_merged {inputs : Inputs} (hlength : (merged inputs).imageLength ≤ 2 ^ 32 - 1)
    (order : ByteOrder) : (decode ((merged inputs).image order)).value = .ok (merged inputs) := by
  have hsettled := settled_merged inputs
  have hw : Writable (merged inputs) := by
    refine ⟨fun e he => ?_, hsettled.headers, hlength⟩
    obtain ⟨p, hp, rfl⟩ := List.mem_map.1 he
    exact (hsettled.entries p hp).1
  have h := decode_image_of_sound (reachable_merged inputs).sound hw order
  rwa [hsettled.stored_eq] at h

/-- The image of what is put together from inputs stands for them. -/
theorem merged_image {inputs : Inputs} (hlength : (merged inputs).imageLength ≤ 2 ^ 32 - 1)
    (order : ByteOrder) (name : String) :
    merged [(name, .ok ((merged inputs).image order))] = merged inputs := by
  have himported : (ofFetched name (.ok ((merged inputs).image order))).value =
      .ok (merged inputs) :=
    value_ofFetched_eq_ok_iff.2 ⟨_, rfl, decode_image_merged hlength order⟩
  have husable : usable (catalogsOf [(name, .ok ((merged inputs).image order))]) =
      [merged inputs] := by
    simp only [catalogsOf, List.map_singleton, himported]
    rfl
  rw [merged, husable]
  exact empty_append (reachable_merged inputs).sound (settled_merged inputs).compiled

/-- The catalog of some inputs in the midst of others counts for those inputs. -/
theorem merged_append (before inner after : Inputs) :
    merged (before ++ inner ++ after) =
      (usable (catalogsOf after)).foldl append (append (merged before) (merged inner)) := by
  have hinner : ∀ d ∈ usable (catalogsOf inner), Reachable d := fun d hd =>
    have ⟨_, hdecode⟩ := exists_decode_of_mem_usable hd
    reachable_of_decode hdecode
  have hfold := append_foldl hinner (settled_merged before).compiled
  rw [merged, usable_append, usable_append, List.foldl_append, List.foldl_append, ← merged,
    ← hfold, ← merged]

/-! ### Plans -/

namespace Job

theorem planConcatenate_congr {inputs inputs' : Inputs}
    (hunusable : unusable (catalogsOf inputs) = unusable (catalogsOf inputs'))
    (hmerged : merged inputs = merged inputs') (output : String) (order : ByteOrder)
    (verbose : Bool) :
    planConcatenate output order verbose inputs = planConcatenate output order verbose inputs' := by
  rw [planConcatenate, planConcatenate, ← merged, ← merged, hunusable, hmerged]

theorem product_planConcatenate {inputs : Inputs} (h : ∀ input ∈ inputs, IsUsable input)
    (output : String) (order : ByteOrder) (verbose : Bool) :
    (planConcatenate output order verbose inputs).product =
      some (output, (merged inputs).image order) := by
  simp only [planConcatenate, unusable_eq_nil_iff.2 h]
  rfl

/-- Concatenating may be done in stages. Usable inputs are concatenated, in whatever order of
    bytes, and among any other inputs their image counts for all of them: the plan is the
    same. So concatenating one image, in its order of bytes, gives the same image. -/
theorem planConcatenate_assoc {inner : Inputs} (hinner : ∀ input ∈ inner, IsUsable input)
    (hlength : (merged inner).imageLength ≤ 2 ^ 32 - 1) (output₁ : String) (order₁ : ByteOrder)
    (verbose₁ : Bool) :
    ∃ image, (planConcatenate output₁ order₁ verbose₁ inner).product = some (output₁, image) ∧
      (∀ (before after : Inputs) (name output : String) (order : ByteOrder) (verbose : Bool),
        planConcatenate output order verbose (before ++ (name, .ok image) :: after) =
            planConcatenate output order verbose (before ++ inner ++ after) ∧
          ((∀ input ∈ before ++ after, IsUsable input) →
            (planConcatenate output order verbose (before ++ inner ++ after)).product =
              some (output, (merged (before ++ inner ++ after)).image order))) ∧
      ∀ (name output : String) (verbose : Bool),
        (planConcatenate output order₁ verbose [(name, .ok image)]).product =
          some (output, image) := by
  have himage : ∀ name : String, IsUsable (name, .ok ((merged inner).image order₁)) :=
    fun _ => ⟨_, _, rfl, decode_image_merged hlength order₁⟩
  refine ⟨(merged inner).image order₁, product_planConcatenate hinner .., ?_, ?_⟩
  · intro before after name output order verbose
    refine ⟨?_, fun hothers => product_planConcatenate (fun input hinput => ?_) ..⟩
    · -- In the plan, only the complaints and what is put together show the inputs.
      rw [List.append_cons]
      refine planConcatenate_congr ?_ ?_ output order verbose
      · simp only [unusable_append, unusable_eq_nil_iff.2 hinner,
          unusable_eq_nil_iff.2 (List.forall_mem_singleton.2 (himage name))]
      · rw [merged_append, merged_append, merged_image hlength]
    · simp only [List.mem_append] at hinput hothers
      rcases hinput with (hinput | hinput) | hinput
      · exact hothers input (.inl hinput)
      · exact hinner input hinput
      · exact hothers input (.inr hinput)
  · intro name output verbose
    rw [product_planConcatenate (List.forall_mem_singleton.2 (himage name)), merged_image hlength]

/-- Images of two catalogs with one message, that have other texts for it and other headers. -/
def drafts : Inputs :=
  [("first", .ok (((empty.setHeader "Language" "bg").add ⟨[0x61], none, none, [[0x41]]⟩).image
      .little)),
    ("second", .ok ((((empty.setHeader "Team" "x").setHeader "Language" "mk").add
      ⟨[0x61], none, none, [[0x42]]⟩).image .big))]

theorem isUsable_drafts : ∀ input ∈ drafts, IsUsable input := by
  intro input hinput
  rcases List.mem_pair.1 hinput with rfl | rfl
  · exact ⟨_, _, rfl, rfl⟩
  · exact ⟨_, _, rfl, rfl⟩

theorem planConcatenate_assoc_drafts :
    (∀ input ∈ drafts, IsUsable input) ∧ (merged drafts).imageLength ≤ 2 ^ 32 - 1 ∧
      ∃ image, (planConcatenate "both" .big false drafts).product = some ("both", image) ∧
        planConcatenate "all" .little true (drafts ++ [("both", .ok image)]) =
            planConcatenate "all" .little true (drafts ++ drafts) ∧
        (planConcatenate "all" .little true (drafts ++ drafts)).product =
          some ("all", (merged (drafts ++ drafts)).image .little) ∧
        (planConcatenate "again" .big true [("both", .ok image)]).product =
          some ("again", image) := by
  have hlength : (merged drafts).imageLength ≤ 2 ^ 32 - 1 := by decide +kernel
  obtain ⟨image, himage, hplan, hagain⟩ :=
    planConcatenate_assoc isUsable_drafts hlength "both" .big false
  have hdrafts := hplan drafts [] "both" "all" .little true
  rw [List.append_nil] at hdrafts
  refine ⟨isUsable_drafts, hlength, image, himage, hdrafts.1, hdrafts.2 fun input hinput => ?_,
    hagain "both" "again" true⟩
  rw [List.append_nil] at hinput
  exact isUsable_drafts input hinput

end Job

end CommandLine

end MessageCatalog
