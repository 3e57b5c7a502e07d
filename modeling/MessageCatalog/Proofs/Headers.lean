import Mathlib.Data.List.Induction
import Mathlib.Data.List.Nodup
import MessageCatalog.Headers

/-!
# Headers that a block tells apart

A block has one header per line, and is read with its names and values trimmed.
So a header is read back from its line if nothing in it is taken for the end of
the name or of the line, and nothing is trimmed: such headers are *legible*.

* `parseBlock_block`: the block of legible headers is read as the headers;
* `legible_of_mem_parseBlock`: whatever is read from a block is legible;
* `setAll_empty`: headers of different names, set in order, stand in this order;
* `get?_setAll`, `names_setAll_empty`: of any headers set in order, each name stands where
  it came first, with the value that came last;
* `extended`: headers and, behind them, those of others that have another name;
* `get?_foldl_extended`, `get?_foldl_setAll`: of several headers, completed or set in turn,
  the first ones of a name count, or the last ones; the names are the same.
-/

namespace MessageCatalog

/-- The two characters that are read as a line break. -/
def writtenBreak : List Char := ['\\', 'n']

/-- Without a backslash, nothing is read as a line break. -/
theorem writtenBreak_not_infix {text : List Char} (h : '\\' ∉ text) : ¬writtenBreak <:+: text :=
  fun hpair => h (hpair.subset List.mem_cons_self)

/-- A text that a line can hold: it is its own trim and has no line break. -/
structure IsLineText (text : List Char) : Prop where
  trimmed : trim text = text
  line : '\n' ∉ text
  written : ¬writtenBreak <:+: text

/-- A header whose line tells its name and its value. -/
structure Legible (field : String × String) : Prop where
  named : field.1 ≠ ""
  colon : ':' ∉ field.1.toList
  name : IsLineText field.1.toList
  value : IsLineText field.2.toList

/-! ### Reading what was written -/

theorem parseLine_line {field : String × String} (h : Legible field) :
    parseLine (Headers.line field) = some field := by
  have hcut : cut? ':' (Headers.line field) = some (field.1.toList, ' ' :: field.2.toList) :=
    cut?_eq_some_iff.2 ⟨rfl, h.colon⟩
  have hvalue : trim (' ' :: field.2.toList) = field.2.toList := by
    rw [trim_cons_of_isBlank (by decide), h.value.trimmed]
  have hname : field.1.toList ≠ [] := fun hnil => h.named (String.toList_eq_nil_iff.1 hnil)
  simp only [parseLine, hcut, h.name.trimmed, hvalue, if_neg hname, String.ofList_toList]

theorem newline_not_mem_line {field : String × String} (h : Legible field) :
    '\n' ∉ Headers.line field := by
  simp only [Headers.line, List.mem_append, List.mem_cons, not_or]
  exact ⟨h.name.line, by decide, by decide, h.value.line⟩

theorem writtenBreak_not_infix_line {field : String × String} (h : Legible field) :
    ¬writtenBreak <:+: Headers.line field := by
  intro hpair
  -- The colon and the blank behind it are no part of the pair.
  rcases pair_infix_append_cons (by decide) (by decide) hpair with hname | hvalue
  · exact h.name.written hname
  · have hspace : writtenBreak <:+: [] ++ ' ' :: field.2.toList := hvalue
    rcases pair_infix_append_cons (by decide) (by decide) hspace with hnil | hvalue
    · exact absurd hnil.length_le (by decide)
    · exact h.value.written hvalue

/-- No line of a block runs into the next one: between them stands a line break. -/
theorem writtenBreak_not_infix_joined {lines : List (List Char)}
    (h : ∀ line ∈ lines, ¬writtenBreak <:+: line) : ¬writtenBreak <:+: joined '\n' lines := by
  induction lines with
  | nil => exact fun hpair => absurd hpair.length_le (by decide)
  | cons line lines ih =>
    by_cases hnil : lines = []
    · subst hnil
      exact h line List.mem_cons_self
    · rw [joined_cons hnil]
      intro hpair
      rcases pair_infix_append_cons (by decide) (by decide) hpair with hline | hlines
      · exact h line List.mem_cons_self hline
      · exact ih (fun l hl => h l (List.mem_cons_of_mem _ hl)) hlines

/-- The block of legible headers is read as the headers, in order. -/
theorem parseBlock_block {h : Headers} (hfields : ∀ field ∈ h.fields, Legible field) :
    parseBlock h.block = h.fields := by
  have hlines : ∀ line ∈ h.fields.map Headers.line, '\n' ∉ line ∧ ¬writtenBreak <:+: line := by
    intro line hline
    obtain ⟨field, hfield, rfl⟩ := List.mem_map.1 hline
    exact ⟨newline_not_mem_line (hfields field hfield),
      writtenBreak_not_infix_line (hfields field hfield)⟩
  have hself := writtenBreak_not_infix_joined fun line hline => (hlines line hline).2
  rw [parseBlock, Headers.block, String.toList_ofList, replacePair_eq_self hself]
  by_cases hnil : h.fields = []
  · rw [hnil]
    rfl
  · rw [pieces_joined (by simpa using hnil) fun line hline => (hlines line hline).1,
      List.filterMap_map]
    exact (List.filterMap_congr fun field hfield => parseLine_line (hfields field hfield)).trans
      List.filterMap_some

/-! ### What is read -/

/-- What a line contains without a gap has its characters and no break either. -/
theorem IsLineText.of_isInfix {text line : List Char} (h : text <:+: line) (hline : '\n' ∉ line)
    (hpair : ¬writtenBreak <:+: line) : IsLineText (trim text) where
  trimmed := trim_trim text
  line hmem := hline (h.subset ((trim_isInfix text).subset hmem))
  written hin := hpair ((hin.trans (trim_isInfix text)).trans h)

theorem legible_of_parseLine {line : List Char} {field : String × String} (hline : '\n' ∉ line)
    (hpair : ¬writtenBreak <:+: line) (h : parseLine line = some field) : Legible field := by
  rw [parseLine] at h
  split at h
  case h_1 => cases h
  case h_2 name value hcut =>
    obtain ⟨rfl, hcolon⟩ := cut?_eq_some_iff.1 hcut
    split at h
    · cases h
    case isFalse hname =>
      cases h
      have hn : name <:+: name ++ ':' :: value := (List.prefix_append ..).isInfix
      have hv : value <:+: name ++ ':' :: value := ⟨name ++ [':'], [], by simp⟩
      exact {
        named := fun hnil => hname (by simpa using congrArg String.toList hnil)
        colon := by
          rw [String.toList_ofList]
          exact fun hmem => hcolon ((trim_isInfix name).subset hmem)
        name := by
          rw [String.toList_ofList]
          exact .of_isInfix hn hline hpair
        value := by
          rw [String.toList_ofList]
          exact .of_isInfix hv hline hpair }

/-- Whatever is read from a block is legible. -/
theorem legible_of_mem_parseBlock {block : String} {field : String × String}
    (h : field ∈ parseBlock block) : Legible field := by
  obtain ⟨line, hline, hfield⟩ := List.mem_filterMap.1 h
  have hwritten : ¬writtenBreak <:+: replacePair '\\' 'n' '\n' block.toList :=
    not_infix_replacePair (by decide) (by decide) _
  exact legible_of_parseLine (not_mem_of_mem_pieces hline)
    (fun hpair => hwritten (hpair.trans (infix_of_mem_pieces hline))) hfield

/-! ### Setting headers -/

namespace Headers

/-- The names of headers, in order. -/
def names (h : Headers) : List String :=
  h.fields.map (·.1)

theorem any_fields_iff {h : Headers} {name : String} :
    h.fields.any (·.1 == name) = true ↔ name ∈ h.names := by
  simp [names]

/-- A new name is written behind the others. -/
theorem set_of_not_mem {h : Headers} {name : String} (hname : name ∉ h.names) (value : String) :
    h.set name value = ⟨h.fields ++ [(name, value)]⟩ := by
  rw [set, if_neg (fun hany => hname (any_fields_iff.1 hany))]

/-- Writing a header keeps the names and their order, and adds its own. -/
theorem names_set (h : Headers) (name value : String) :
    (h.set name value).names = if name ∈ h.names then h.names else h.names ++ [name] := by
  split
  case isTrue hname =>
    rw [set, if_pos (any_fields_iff.2 hname), names, List.map_map]
    refine List.map_congr_left fun field _ => ?_
    by_cases hf : field.1 = name
    · simp [hf]
    · simp [hf]
  case isFalse hname =>
    rw [set_of_not_mem hname]
    simp [names]

theorem nodup_names_set {h : Headers} (hnodup : h.names.Nodup) (name value : String) :
    (h.set name value).names.Nodup := by
  rw [names_set]
  split
  · exact hnodup
  case isFalse hname =>
    refine List.nodup_append.2 ⟨hnodup, List.nodup_singleton _, fun a ha b hb hab => ?_⟩
    rw [List.mem_singleton] at hb
    exact hname (hb ▸ hab ▸ ha)

theorem mem_set {h : Headers} {name value : String} {field : String × String}
    (hf : field ∈ (h.set name value).fields) : field = (name, value) ∨ field ∈ h.fields := by
  rw [set] at hf
  split at hf
  · obtain ⟨field', hfield', rfl⟩ := List.mem_map.1 hf
    split
    · exact .inl rfl
    · exact .inr hfield'
  · rcases List.mem_append.1 hf with hf | hf
    · exact .inr hf
    · exact .inl (List.mem_singleton.1 hf)

/-- Legible headers stay so when legible ones are set. -/
theorem legible_setAll {h : Headers} {fields : List (String × String)}
    (hh : ∀ field ∈ h.fields, Legible field) (hfields : ∀ field ∈ fields, Legible field) :
    ∀ field ∈ (h.setAll fields).fields, Legible field := by
  induction fields generalizing h with
  | nil => exact hh
  | cons field fields ih =>
    refine ih (fun f hf => ?_) fun f hf => hfields f (List.mem_cons_of_mem _ hf)
    rcases mem_set hf with rfl | hf
    · exact hfields _ List.mem_cons_self
    · exact hh f hf

/-- Headers set in order stand behind the earlier ones, if all names differ. -/
theorem setAll_append {h : Headers} {fields : List (String × String)}
    (hnodup : (h.names ++ fields.map (·.1)).Nodup) : h.setAll fields = ⟨h.fields ++ fields⟩ := by
  induction fields generalizing h with
  | nil => simp [setAll]
  | cons field fields ih =>
    have hname : field.1 ∉ h.names := fun hmem =>
      (List.nodup_append.1 hnodup).2.2 field.1 hmem field.1 List.mem_cons_self rfl
    have hset := set_of_not_mem hname field.2
    have hnames : (h.set field.1 field.2).names = h.names ++ [field.1] := by
      rw [names_set, if_neg hname]
    have hrest : ((h.set field.1 field.2).names ++ fields.map (·.1)).Nodup := by
      rw [hnames, List.append_assoc]
      exact hnodup
    have := ih hrest
    rw [setAll, List.foldl_cons, ← setAll, this, hset]
    simp

/-- Headers of different names, set in order, stand in this order. -/
theorem setAll_empty {h : Headers} (hnodup : h.names.Nodup) : empty.setAll h.fields = h :=
  setAll_append (h := empty) hnodup

/-- Writing a header leaves the values of the others alone. -/
theorem get?_set_of_ne {name other : String} (hne : other ≠ name) (h : Headers)
    (value : String) : (h.set name value).get? other = h.get? other := by
  have hother : (other == name) = false := beq_eq_false_iff_ne.2 hne
  rw [set]
  split
  · rw [get?, get?]
    generalize h.fields = fields
    induction fields with
    | nil => rfl
    | cons field fields ih =>
      rw [List.map_cons, List.lookup_cons, List.lookup_cons, ih]
      by_cases hf : field.1 = name
      · rw [if_pos hf, hf, hother]
      · rw [if_neg hf]
  · rw [get?, List.lookup_append, List.lookup_singleton, hother]
    exact Option.or_none

theorem get?_setAll_of_not_mem {name : String} {fields : List (String × String)}
    (hname : name ∉ fields.map (·.1)) (h : Headers) :
    (h.setAll fields).get? name = h.get? name := by
  induction fields generalizing h with
  | nil => rfl
  | cons field fields ih =>
    rw [List.map_cons, List.mem_cons, not_or] at hname
    exact (ih hname.2 _).trans (get?_set_of_ne hname.1 h field.2)

/-! ### What was set -/

theorem get?_eq_none_iff {h : Headers} {name : String} : h.get? name = none ↔ name ∉ h.names := by
  rw [get?, List.lookup_eq_none_iff, names, List.mem_map]
  constructor
  · rintro hne ⟨field, hfield, rfl⟩
    simpa using hne field hfield
  · intro hmem field hfield
    simpa using fun hname => hmem ⟨field, hfield, hname.symm⟩

theorem get?_set_self (h : Headers) (name value : String) :
    (h.set name value).get? name = some value := by
  by_cases hname : name ∈ h.names
  · rw [set, if_pos (any_fields_iff.2 hname), get?]
    rw [names] at hname
    generalize h.fields = fields at hname
    induction fields with
    | nil => cases hname
    | cons field fields ih =>
      rw [List.map_cons, List.lookup_cons]
      by_cases hf : field.1 = name
      · rw [if_pos hf, beq_self_eq_true]
      · rw [if_neg hf, beq_eq_false_iff_ne.2 (Ne.symm hf)]
        exact ih ((List.mem_cons.1 hname).resolve_left (Ne.symm hf))
  · rw [set_of_not_mem hname, get?, List.lookup_append, List.lookup_singleton, beq_self_eq_true]
    rw [← get?, get?_eq_none_iff.2 hname]
    rfl

theorem setAll_cons (h : Headers) (field : String × String) (fields : List (String × String)) :
    h.setAll (field :: fields) = (h.set field.1 field.2).setAll fields :=
  rfl

theorem setAll_setAll (h : Headers) (first second : List (String × String)) :
    (h.setAll first).setAll second = h.setAll (first ++ second) :=
  List.foldl_append.symm

theorem nodup_names_setAll {h : Headers} (hnodup : h.names.Nodup)
    (fields : List (String × String)) : (h.setAll fields).names.Nodup := by
  induction fields generalizing h with
  | nil => exact hnodup
  | cons field fields ih => exact ih (nodup_names_set hnodup field.1 field.2)

/-- Of the values set under a name the last one counts. -/
theorem get?_setAll (h : Headers) (fields : List (String × String)) (name : String) :
    (h.setAll fields).get? name = (fields.reverse.lookup name).or (h.get? name) := by
  induction fields generalizing h with
  | nil => rfl
  | cons field fields ih =>
    rw [setAll_cons, ih, List.reverse_cons, List.lookup_append,
      Option.or_assoc, List.lookup_singleton]
    by_cases hname : name = field.1
    · rw [hname, get?_set_self, beq_self_eq_true]
      rfl
    · rw [get?_set_of_ne hname, beq_eq_false_iff_ne.2 hname]
      rfl

/-- Names stand in the order in which they were set first. -/
theorem names_setAll_empty (fields : List (String × String)) :
    (empty.setAll fields).names = (fields.map (·.1)).eraseDups := by
  induction fields using List.reverseRecOn with
  | nil => rfl
  | append_singleton fields field ih =>
    rw [← setAll_setAll, setAll_cons, setAll, List.foldl_nil, names_set, ih, List.map_append,
      List.eraseDups_append, List.map_singleton, List.cons_removeAll]
    by_cases hname : field.1 ∈ fields.map (·.1)
    · rw [if_pos (List.mem_eraseDups.2 hname), if_neg (by simpa using hname)]
      exact (List.append_nil _).symm
    · rw [if_neg (mt List.mem_eraseDups.1 hname), if_pos (by simpa using hname)]
      rfl

/-- Headers of different names are told by their names, in order, and the values under
    them. -/
theorem fields_eq {h : Headers} (hnodup : h.names.Nodup) :
    h.fields = h.names.filterMap fun name => (h.get? name).map fun value => (name, value) := by
  obtain ⟨fields⟩ := h
  show fields = (fields.map (·.1)).filterMap fun name =>
    (fields.lookup name).map fun value => (name, value)
  replace hnodup : (fields.map (·.1)).Nodup := hnodup
  induction fields with
  | nil => rfl
  | cons field fields ih =>
    rw [List.map_cons, List.nodup_cons] at hnodup
    have hrest : ∀ name ∈ fields.map (·.1),
        (((field :: fields).lookup name).map fun value => (name, value)) =
          (fields.lookup name).map fun value => (name, value) := by
      intro name hname
      have hne : name ≠ field.1 := fun heq => hnodup.1 (heq ▸ hname)
      rw [List.lookup_cons, beq_eq_false_iff_ne.2 hne]
    rw [List.map_cons, List.filterMap_cons, List.filterMap_congr hrest, ← ih hnodup.2,
      List.lookup_cons, beq_self_eq_true]
    rfl

/-- Headers are the same if their names are, in order, and the values under them. -/
theorem ext_get? {h h' : Headers} (hnodup : h.names.Nodup) (hnames : h.names = h'.names)
    (hget : ∀ name, h.get? name = h'.get? name) : h = h' := by
  refine congrArg mk (?_ : h.fields = h'.fields)
  rw [fields_eq hnodup, fields_eq (hnames ▸ hnodup), hnames]
  simp only [hget]

/-! ### Headers that are completed -/

/-- Headers, and behind them those of others that have another name. -/
def extended (h guest : Headers) : Headers :=
  ⟨h.fields ++ guest.fields.filter fun field => field.1 ∉ h.names⟩

theorem empty_extended (h : Headers) : empty.extended h = h := by
  obtain ⟨fields⟩ := h
  exact congrArg Headers.mk (List.filter_eq_self.2 fun field _ => decide_eq_true List.not_mem_nil)

theorem names_extended (h guest : Headers) :
    (h.extended guest).names = h.names ++ guest.names.removeAll h.names := by
  have hfilter : (guest.fields.filter fun field => field.1 ∉ h.names).map (·.1) =
      guest.names.removeAll h.names := by
    show _ = (guest.fields.map (·.1)).filter _
    rw [List.filter_map]
    refine congrArg _ (List.filter_congr fun field _ => ?_)
    simp
  rw [names, extended, List.map_append, hfilter, ← names]

theorem mem_names_extended {h guest : Headers} {name : String} :
    name ∈ (h.extended guest).names ↔ name ∈ h.names ∨ name ∈ guest.names := by
  rw [names_extended, List.mem_append]
  exact or_congr_right' fun hname => by simp [List.removeAll, hname]

theorem extended_assoc (h₁ h₂ h₃ : Headers) :
    (h₁.extended h₂).extended h₃ = h₁.extended (h₂.extended h₃) := by
  have hfilter : (h₃.fields.filter fun field => field.1 ∉ (h₁.extended h₂).names) =
      (h₃.fields.filter fun field => field.1 ∉ h₂.names).filter
        fun field => field.1 ∉ h₁.names := by
    rw [List.filter_filter]
    refine List.filter_congr fun field _ => ?_
    simp only [mem_names_extended, not_or, Bool.decide_and]
  rw [extended, hfilter, extended, extended, extended, List.filter_append, List.append_assoc]

theorem extended_cons_of_mem {h : Headers} {field : String × String}
    (hname : field.1 ∈ h.names) (fields : List (String × String)) :
    h.extended ⟨field :: fields⟩ = h.extended ⟨fields⟩ := by
  rw [extended, extended, List.filter_cons_of_neg (by simpa using hname)]

/-- A new header stands behind the others, if none of those that follow has its name. -/
theorem extended_cons_of_not_mem {h : Headers} {field : String × String}
    {fields : List (String × String)} (hname : field.1 ∉ h.names)
    (hfields : field.1 ∉ fields.map (·.1)) :
    h.extended ⟨field :: fields⟩ = (h.set field.1 field.2).extended ⟨fields⟩ := by
  have hfilter : ∀ other ∈ fields,
      decide (other.1 ∉ h.names) = decide (other.1 ∉ (h.set field.1 field.2).names) := by
    intro other hother
    have hne : other.1 ≠ field.1 := fun heq => hfields (heq ▸ List.mem_map_of_mem hother)
    rw [names_set, if_neg hname]
    simp [hne]
  rw [extended, List.filter_cons_of_pos (by simpa using hname), List.filter_congr hfilter,
    extended, set_of_not_mem hname, List.append_assoc]
  rfl

/-! ### Headers put together in turn -/

theorem eraseDups_of_nodup {names : List String} (h : names.Nodup) : names.eraseDups = names := by
  induction names with
  | nil => rfl
  | cons name names ih =>
    rw [List.nodup_cons] at h
    have hfilter : names.filter (fun other => !other == name) = names :=
      List.filter_eq_self.2 fun other hother => by
        simpa using fun heq : other = name => h.1 (heq ▸ hother)
    rw [List.eraseDups_cons, hfilter, ih h.2]

/-- Leaving out headers leaves the values of the others alone. -/
theorem lookup_filter_of_not_mem {names : List String} {name : String} (hname : name ∉ names)
    (fields : List (String × String)) :
    (fields.filter fun field => field.1 ∉ names).lookup name = fields.lookup name := by
  induction fields with
  | nil => rfl
  | cons field fields ih =>
    rw [List.filter_cons, List.lookup_cons]
    by_cases hf : name = field.1
    · rw [if_pos (by simpa using hf ▸ hname), List.lookup_cons, hf, beq_self_eq_true]
    · have hne : (name == field.1) = false := beq_eq_false_iff_ne.2 hf
      rw [hne]
      split
      · rw [List.lookup_cons, hne]
        exact ih
      · exact ih

theorem get?_extended (h guest : Headers) (name : String) :
    (h.extended guest).get? name = (h.get? name).or (guest.get? name) := by
  rw [get?, extended, List.lookup_append, ← get?]
  cases hname : h.get? name with
  | some value => rfl
  | none => rw [lookup_filter_of_not_mem (get?_eq_none_iff.1 hname), ← get?]

/-- Of headers that complete each other, the first one of a name counts. -/
theorem get?_foldl_extended (guests : List Headers) (h : Headers) (name : String) :
    (guests.foldl extended h).get? name = (h.get? name).or (guests.findSome? (·.get? name)) := by
  induction guests generalizing h with
  | nil => exact Option.or_none.symm
  | cons guest guests ih =>
    rw [List.foldl_cons, ih, get?_extended, Option.or_assoc, List.findSome?_cons]
    cases guest.get? name <;> rfl

/-- Headers that complete each other have the names of all, in the order in which they come
    first. -/
theorem names_foldl_extended {guests : List Headers}
    (hnodup : ∀ guest ∈ guests, guest.names.Nodup) :
    (guests.foldl extended empty).names = (guests.flatMap names).eraseDups := by
  induction guests using List.reverseRecOn with
  | nil => rfl
  | append_singleton guests guest ih =>
    have hnodup' : (guest.names.removeAll (guests.flatMap names)).Nodup :=
      (hnodup guest (by simp)).filter _
    have hremove : guest.names.removeAll (guests.flatMap names).eraseDups =
        guest.names.removeAll (guests.flatMap names) :=
      List.filter_congr fun name _ => by simp
    rw [List.foldl_append, List.foldl_cons, List.foldl_nil, names_extended,
      ih fun g hg => hnodup g (List.mem_append_left _ hg), List.flatMap_append,
      List.eraseDups_append, List.flatMap_singleton, eraseDups_of_nodup hnodup', hremove]

/-- Headers that are set in turn, one list after the other. -/
theorem foldl_setAll (guests : List Headers) (h : Headers) :
    guests.foldl (fun h guest => h.setAll guest.fields) h =
      h.setAll (guests.flatMap (·.fields)) := by
  induction guests generalizing h with
  | nil => rfl
  | cons guest guests ih => rw [List.foldl_cons, ih, setAll_setAll, List.flatMap_cons]

theorem lookup_reverse_fields {h : Headers} (hnodup : h.names.Nodup) (name : String) :
    h.fields.reverse.lookup name = h.get? name := by
  have hset := get?_setAll empty h.fields name
  rw [setAll_empty hnodup] at hset
  exact (hset.trans Option.or_none).symm

/-- Of headers that are set in turn, the last one of a name counts. -/
theorem get?_foldl_setAll {guests : List Headers} (hnodup : ∀ guest ∈ guests, guest.names.Nodup)
    (h : Headers) (name : String) :
    (guests.foldl (fun h guest => h.setAll guest.fields) h).get? name =
      (guests.reverse.findSome? (·.get? name)).or (h.get? name) := by
  induction guests generalizing h with
  | nil => rfl
  | cons guest guests ih =>
    rw [List.foldl_cons, ih fun g hg => hnodup g (List.mem_cons_of_mem _ hg), get?_setAll,
      lookup_reverse_fields (hnodup guest List.mem_cons_self), List.reverse_cons,
      List.findSome?_append, List.findSome?_singleton, Option.or_assoc]

theorem names_foldl_setAll (guests : List Headers) :
    (guests.foldl (fun h guest => h.setAll guest.fields) empty).names =
      (guests.flatMap names).eraseDups := by
  rw [foldl_setAll, names_setAll_empty, List.map_flatMap]
  rfl

end Headers

end MessageCatalog
