import MessageCatalog.Proofs.Catalog.Rule
import MessageCatalog.Workspace

/-!
# Plural rules in workspaces

What steps do to the compiled rule of a catalog depends on little: whether the rule
is looked up, whether the header that states it is written, and whether the catalog
is another one afterwards (`Step.ruleEffect`). Whatever a step does besides, it keeps
every compiled rule current.

What is reported of a faulty header depends on what was done before with the catalog,
and with those that it is a copy of: that is its history (`historyFrom`). The rule of
a catalog is compiled iff, after the last time the header was written, it was looked
up (`RuleUsed`).

* `step_gives`: what a step leaves in its slot;
* `forall_recorded`: what is known of all slots, after a step;
* `Settled.perform`, `Settled.after`: the invariant, kept up by a step and by a run;
* `rule_never_stale`: the rule in every state of every run.
-/

namespace MessageCatalog

/-- What a step means for the rule of the catalog in its slot. -/
inductive RuleEffect where
  /-- Nothing. -/
  | kept
  /-- The rule is looked up. -/
  | used
  /-- The header that states the rule is written. -/
  | written
  /-- Another catalog begins. -/
  | begun
  /-- The catalog becomes a copy of the one in another slot. -/
  | copied (source : String)
  deriving DecidableEq

/-- What a step means for the rule of the catalog in its slot, unless it fails. -/
def Step.ruleEffect : Step → RuleEffect
  | .create | .decode _ | .importFrom _ | .importFromFile _ => .begun
  | .copy source => .copied source
  | .setHeaders fields => if pluralFormsHeader ∈ fields.map (·.1) then .written else .kept
  | .formCount | .rule => .used
  | .select counts | .translatePlural _ _ _ counts => if counts = [] then .kept else .used
  | .add _ | .remove .. | .find .. | .get _ | .contains _ | .header _ | .headerBlock
  | .translate .. | .merge _ | .encode _ | .text | .state | .exportTo _ | .exported _
  | .put .. | .fetch _ | .storeFile .. | .fetchFile _ | .exportToFile _ => .kept

namespace Workspace

variable {w w' : Workspace} {slot : String}

/-- The catalog `c'` is in a slot after a step of the effect on it. -/
def Gives (w : Workspace) (slot : String) : RuleEffect → Catalog → Prop
  | .kept, c' => c'.compiled = (w.catalog slot).compiled ∧
      c'.header? pluralFormsHeader = (w.catalog slot).header? pluralFormsHeader
  | .used, c' => c' = (w.catalog slot).rule.value.2
  | .written, c' | .begun, c' => c'.compiled = none
  | .copied source, c' => c' = w.catalog source

/-! ### Slots -/

theorem catalog_setCatalog_self (c : Catalog) : (w.setCatalog slot c).catalog slot = c := by
  rw [catalog, setCatalog, List.lookup_cons_self, Option.getD_some]

theorem catalog_setCatalog_of_ne {other : String} (hne : other ≠ slot) (c : Catalog) :
    (w.setCatalog slot c).catalog other = w.catalog other := by
  have hlookup : ((slot, c) :: w.slots.filter (·.1 != slot)).lookup other =
      w.slots.lookup other := by
    rw [List.lookup_cons, beq_eq_false_iff_ne.2 hne]
    show (w.slots.filter (·.1 != slot)).lookup other = w.slots.lookup other
    induction w.slots with
    | nil => rfl
    | cons p slots ih =>
      rw [List.filter_cons, List.lookup_cons]
      by_cases hp : p.1 = slot
      · rw [if_neg (by simpa using hp), beq_eq_false_iff_ne.2 (hp ▸ hne)]
        exact ih
      · rw [if_pos (by simpa using hp), List.lookup_cons, ih]
  rw [catalog, catalog, setCatalog, hlookup]

/-- If the step succeeds, the catalog in its slot is one for which `P` holds, and those in
    other slots are the same. -/
def Leads (w : Workspace) (slot : String) (P : Catalog → Prop) (result : Result) : Prop :=
  ∀ a w', result.value = .ok (a, w') →
    P (w'.catalog slot) ∧ ∀ other, other ≠ slot → w'.catalog other = w.catalog other

section Leads

variable {P : Catalog → Prop}

theorem leads_keep {c : Catalog} (h : P c) (answer : Catalog → Answer) :
    Leads w slot P (w.keep slot c answer) := by
  rintro a w' ⟨⟩
  exact ⟨(catalog_setCatalog_self c).symm ▸ h, fun _ hne => catalog_setCatalog_of_ne hne c⟩

theorem leads_bind {α : Type} {x : Logged α} {f : α → Result} (h : Leads w slot P (f x.value)) :
    Leads w slot P (x >>= f) :=
  h

theorem leads_error (e : Failure) : Leads w slot P (pure (.error e)) := by
  rintro a w' ⟨⟩

/-- A step that changes no slot. -/
theorem leads_stores (h : P (w.catalog slot)) (a : Answer) {w' : Workspace}
    (hslots : w'.slots = w.slots) : Leads w slot P (pure (.ok (a, w'))) := by
  rintro a w' ⟨⟩
  have hcatalog : w'.catalog = w.catalog := by
    funext other
    rw [catalog, hslots, ← catalog]
  rw [hcatalog]
  exact ⟨h, fun _ _ => rfl⟩

theorem leads_answer (h : P (w.catalog slot)) (a : Answer) : Leads w slot P (w.answer a) :=
  leads_stores h a rfl

theorem leads_takeFetched {name : String} {fetched : Except StoreError Bytes}
    (h : ∀ c, (Catalog.ofFetched name fetched).value = .ok c → P c) :
    Leads w slot P (w.takeFetched slot name fetched) := by
  intro a w' hresult
  rw [takeFetched, Logged.value_bind] at hresult
  cases hfetched : (Catalog.ofFetched name fetched).value with
  | error e =>
    rw [hfetched] at hresult
    cases hresult
  | ok c =>
    rw [hfetched] at hresult
    exact leads_keep (h c hfetched) sizeAnswer a w' hresult

end Leads

/-! ### Steps -/

/-- Counts that need the rule one after the other compile it once. -/
theorem forCounts_eq {α : Type} {f : Catalog → Int64 → Logged (α × Catalog)}
    (hlog : ∀ c n, (f c n).log = c.rule.log) (hvalue : ∀ c n, (f c n).value.2 = c.rule.value.2)
    (c : Catalog) (counts : List Int64) :
    (forCounts f c counts).value.2 = (if counts = [] then c else c.rule.value.2) ∧
      (forCounts f c counts).log = if counts = [] then [] else c.rule.log := by
  induction counts generalizing c with
  | nil => exact ⟨rfl, rfl⟩
  | cons n counts ih =>
    obtain ⟨ihvalue, ihlog⟩ := ih (f c n).value.2
    -- The others find the rule compiled.
    rw [hvalue, Catalog.rule_rule, ite_self] at ihvalue ihlog
    rw [forCounts, if_neg (List.cons_ne_nil n counts), if_neg (List.cons_ne_nil n counts),
      Logged.value_bind, Logged.log_bind, hlog]
    refine ⟨?_, ?_⟩
    · rw [Logged.value_bind, hvalue]
      exact ihvalue
    · rw [Logged.log_bind, hvalue, ihlog]
      exact List.append_nil _

theorem gives_forCounts {c : Catalog} {counts : List Int64}
    (h : c = if counts = [] then w.catalog slot else (w.catalog slot).rule.value.2) :
    w.Gives slot (if counts = [] then .kept else .used) c := by
  subst h
  split
  · exact ⟨rfl, rfl⟩
  · rfl

/-- A step that succeeds leaves what its effect says, and changes no other slot. -/
theorem step_gives (w : Workspace) (slot : String) (s : Step) :
    Leads w slot (w.Gives slot s.ruleEffect) (w.step slot s) := by
  cases s with
  | create =>
    refine leads_keep ?_ _
    rfl
  | copy source =>
    refine leads_keep ?_ _
    rfl
  | decode bytes =>
    refine leads_bind ?_
    cases hdecode : (Catalog.decode bytes).value with
    | error fault => exact leads_error _
    | ok c => exact leads_keep (Catalog.compiled_of_decode hdecode) _
  | add entry =>
    exact leads_keep ⟨Catalog.compiled_add .., by rw [Catalog.header?, Catalog.headers_add]; rfl⟩ _
  | remove singular context => exact leads_keep ⟨rfl, rfl⟩ _
  | setHeaders fields =>
    refine leads_keep ?_ _
    rw [Step.ruleEffect]
    split
    case isTrue hname =>
      exact (Catalog.compiled_setHeaders ..).trans (if_pos hname)
    case isFalse hname =>
      refine ⟨(Catalog.compiled_setHeaders ..).trans (if_neg hname), ?_⟩
      rw [Catalog.header?, Catalog.headers_setHeaders]
      exact Headers.get?_setAll_of_not_mem hname _
  | formCount =>
    refine leads_bind (leads_keep ?_ _)
    rfl
  | rule =>
    refine leads_bind (leads_keep ?_ _)
    rfl
  | select counts =>
    refine leads_bind (leads_keep ?_ _)
    exact gives_forCounts (forCounts_eq Catalog.log_select (fun _ _ => rfl) _ counts).1
  | translatePlural singular plural context counts =>
    refine leads_bind (leads_keep ?_ _)
    exact gives_forCounts (forCounts_eq
      (fun c n => c.log_translatePlural singular plural n context) (fun _ _ => rfl) _ counts).1
  | merge guest => exact leads_keep ⟨rfl, rfl⟩ _
  | importFrom name => exact leads_takeFetched fun _ => Catalog.compiled_of_ofFetched
  | importFromFile name => exact leads_takeFetched fun _ => Catalog.compiled_of_ofFetched
  | find | get | contains | header | headerBlock | translate | text | state | exported =>
    exact leads_answer ⟨rfl, rfl⟩ _
  | encode order => exact leads_bind (leads_answer ⟨rfl, rfl⟩ _)
  | put name content => exact leads_stores ⟨rfl, rfl⟩ _ rfl
  | exportTo name => exact leads_bind (leads_stores ⟨rfl, rfl⟩ _ rfl)
  | fetch name =>
    rw [step]
    cases w.resources.fetch name with
    | error e => exact leads_error _
    | ok bytes => exact leads_answer ⟨rfl, rfl⟩ _
  | fetchFile name =>
    rw [step]
    cases w.folder.fetch name with
    | error e => exact leads_error _
    | ok bytes => exact leads_answer ⟨rfl, rfl⟩ _
  | storeFile name content =>
    rw [step]
    cases w.folder.store name content with
    | error e => exact leads_error _
    | ok folder => exact leads_stores ⟨rfl, rfl⟩ _ rfl
  | exportToFile name =>
    refine leads_bind ?_
    cases w.folder.store name ((w.catalog slot).encode .little).value with
    | error e => exact leads_error _
    | ok folder => exact leads_stores ⟨rfl, rfl⟩ _ rfl

theorem warnings_bind_of_log_eq_nil {α β : Type} {x : Logged α} {f : α → Logged β}
    (h : (f x.value).log = []) : Catalog.warnings (x >>= f).log = Catalog.warnings x.log := by
  rw [Logged.log_bind, h, List.append_nil]

theorem warnings_forCounts {counts : List Int64} {log : List Event} :
    Catalog.warnings (if counts = [] then [] else log) =
      if (if counts = [] then RuleEffect.kept else .used) = .used then Catalog.warnings log
        else [] := by
  split <;> rfl

/-- Only looking up the rule gives a warning. -/
theorem warnings_step (w : Workspace) (slot : String) (s : Step) :
    Catalog.warnings (w.step slot s).log =
      if s.ruleEffect = .used then Catalog.warnings (w.catalog slot).rule.log else [] := by
  cases s with
  | decode bytes =>
    refine (warnings_bind_of_log_eq_nil ?_).trans (Catalog.warnings_decode bytes)
    cases (Catalog.decode bytes).value <;> rfl
  | importFrom name =>
    refine (warnings_bind_of_log_eq_nil ?_).trans (Catalog.warnings_ofFetched ..)
    cases (Catalog.ofFetched ..).value <;> rfl
  | importFromFile name =>
    refine (warnings_bind_of_log_eq_nil ?_).trans (Catalog.warnings_ofFetched ..)
    cases (Catalog.ofFetched ..).value <;> rfl
  | formCount =>
    refine (warnings_bind_of_log_eq_nil rfl).trans ?_
    exact congrArg Catalog.warnings (List.append_nil _)
  | rule => exact warnings_bind_of_log_eq_nil rfl
  | select counts =>
    refine (warnings_bind_of_log_eq_nil rfl).trans ?_
    rw [(forCounts_eq Catalog.log_select (fun _ _ => rfl) _ counts).2]
    exact warnings_forCounts
  | translatePlural singular plural context counts =>
    refine (warnings_bind_of_log_eq_nil rfl).trans ?_
    rw [(forCounts_eq (fun c n => c.log_translatePlural singular plural n context)
      (fun _ _ => rfl) _ counts).2]
    exact warnings_forCounts
  | fetch name =>
    rw [step]
    cases w.resources.fetch name <;> rfl
  | fetchFile name =>
    rw [step]
    cases w.folder.fetch name <;> rfl
  | storeFile name content =>
    rw [step]
    cases w.folder.store name content <;> rfl
  | setHeaders fields =>
    rw [Step.ruleEffect]
    split <;> rfl
  | encode => exact (warnings_bind_of_log_eq_nil rfl).trans (Catalog.warnings_encode ..)
  | exportTo => exact (warnings_bind_of_log_eq_nil rfl).trans (Catalog.warnings_encode ..)
  | exportToFile name =>
    refine (warnings_bind_of_log_eq_nil ?_).trans (Catalog.warnings_encode ..)
    cases w.folder.store name ((w.catalog slot).encode .little).value <;> rfl
  | _ => rfl

/-- A step leaves the catalogs in other slots alone. -/
theorem catalog_perform_of_ne (w : Workspace) {slot other : String} (hne : other ≠ slot)
    (s : Step) : (w.perform slot s).value.2.catalog other = w.catalog other := by
  have hgives := step_gives w slot s
  rw [perform, Logged.value_bind]
  cases hstep : (w.step slot s).value with
  | error e => rfl
  | ok result => exact (hgives result.1 result.2 hstep).2 other hne

/-- What a step leaves in its slot: if it fails, what was there, and otherwise what it leads
    to. -/
theorem perform_of_leads {P : Catalog → Prop} {s : Step} (h : Leads w slot P (w.step slot s)) :
    (∃ e, (w.perform slot s).value.1 = .error e) ∧
        (w.perform slot s).value.2.catalog slot = w.catalog slot ∨
      (∃ a, (w.perform slot s).value.1 = .ok a) ∧
        P ((w.perform slot s).value.2.catalog slot) := by
  rw [perform, Logged.value_bind]
  cases hstep : (w.step slot s).value with
  | error e => exact .inl ⟨⟨e, rfl⟩, rfl⟩
  | ok result => exact .inr ⟨⟨result.1, rfl⟩, (h result.1 result.2 hstep).1⟩

/-- For each slot, what is known of it after a step: of the slot of the step what comes next,
    unless the step fails, and otherwise what was known before. -/
def recorded {α : Type} (known : String → α) (w : Workspace) (slot : String) (s : Step)
    (next : α) : String → α :=
  fun other =>
    if other ≠ slot then known other
    else match (w.perform slot s).value.1 with
      | .error _ => known slot
      | .ok _ => next

/-- What is known of every catalog stays true after a step, if what comes next is true of all
    that the step may lead to. -/
theorem forall_recorded {α : Type} {known : String → α} {R : α → Catalog → Prop}
    {P : Catalog → Prop} {s : Step} (h : ∀ other, R (known other) (w.catalog other))
    (hstep : Leads w slot P (w.step slot s)) (next : α) (hnext : ∀ c, P c → R next c)
    (other : String) :
    R (recorded known w slot s next other) ((w.perform slot s).value.2.catalog other) := by
  by_cases hne : other = slot
  · subst hne
    rw [recorded, if_neg (not_not_intro rfl)]
    rcases perform_of_leads hstep with ⟨⟨e, he⟩, hsame⟩ | ⟨⟨a, ha⟩, hleads⟩
    · rw [he, hsame]
      exact h other
    · rw [ha]
      exact hnext _ hleads
  · -- The step touches no slot but its own.
    rw [recorded, if_pos hne, catalog_perform_of_ne w hne]
    exact h other

theorem warnings_perform (w : Workspace) (slot : String) (s : Step) :
    Catalog.warnings (w.perform slot s).log =
      if s.ruleEffect = .used then Catalog.warnings (w.catalog slot).rule.log else [] := by
  refine (warnings_bind_of_log_eq_nil ?_).trans (warnings_step w slot s)
  cases (w.step slot s).value <;> rfl

/-! ### Histories -/

/-- For each slot, what was done with its catalog since it began, copies included. -/
abbrev History := String → List Step

/-- The history of the catalog in a slot after a step that succeeds. A copy takes over the
    history of its original. -/
def History.extended (history : History) (slot : String) (s : Step) : List Step :=
  match s.ruleEffect with
  | .begun => []
  | .copied source => history source
  | .kept | .used | .written => history slot ++ [s]

/-- The histories after one more step. -/
def History.record (history : History) (w : Workspace) (slot : String) (s : Step) : History :=
  recorded history w slot s (history.extended slot s)

/-- The histories after steps in turn. -/
def historyFrom (history : History) (w : Workspace) : List (String × Step) → History
  | [] => history
  | (slot, s) :: steps => historyFrom (history.record w slot s) (w.perform slot s).value.2 steps

/-- The rule was looked up after the last time the header that states it was written. -/
def RuleUsed (steps : List Step) : Prop :=
  ∃ before s after, steps = before ++ s :: after ∧ s.ruleEffect = .used ∧
    ∀ s' ∈ after, s'.ruleEffect ≠ .written

theorem not_ruleUsed_nil : ¬RuleUsed [] := by
  rintro ⟨before, s, after, h, _⟩
  cases before <;> cases h

theorem ruleUsed_append_iff {steps : List Step} {s : Step} : RuleUsed (steps ++ [s]) ↔
    s.ruleEffect = .used ∨ RuleUsed steps ∧ s.ruleEffect ≠ .written := by
  constructor
  · rintro ⟨before, use, after, h, huse, hafter⟩
    rcases List.eq_nil_or_concat after with rfl | ⟨more, last, rfl⟩
    · obtain ⟨rfl, hlast⟩ := List.append_inj' h rfl
      cases hlast
      exact .inl huse
    · rw [List.concat_eq_append, ← List.cons_append, ← List.append_assoc] at h
      obtain ⟨rfl, hlast⟩ := List.append_inj' h rfl
      cases hlast
      exact .inr ⟨⟨before, use, more, rfl, huse, fun s' hs' => hafter s' (by simp [hs'])⟩,
        hafter s (by simp)⟩
  · rintro (huse | ⟨⟨before, use, after, rfl, huse, hafter⟩, hs⟩)
    · exact ⟨steps, s, [], rfl, huse, nofun⟩
    · refine ⟨before, use, after ++ [s], by simp, huse, fun s' hs' => ?_⟩
      rcases List.mem_append.1 hs' with hs' | hs'
      · exact hafter s' hs'
      · rwa [List.mem_singleton.1 hs']

/-! ### Runs -/

/-- Every compiled rule is current, and the rules that are compiled are those that were
    looked up since their header was written. -/
structure Settled (w : Workspace) (history : History) : Prop where
  current : ∀ slot, (w.catalog slot).Current
  compiled_iff : ∀ slot, (w.catalog slot).compiled.isSome ↔ RuleUsed (history slot)

theorem settled_empty : Settled empty fun _ => [] where
  current _ := .of_compiled_eq_none rfl
  compiled_iff _ := ⟨nofun, fun h => absurd h not_ruleUsed_nil⟩

section Steps

variable {history : History} {s : Step} {c' : Catalog}

/-- What a step leaves that succeeds has no compiled rule but the current one. -/
theorem Settled.current_of_gives (h : Settled w history) {effect : RuleEffect}
    (hgives : w.Gives slot effect c') : c'.Current := by
  cases effect with
  | kept => exact (h.current slot).congr hgives.1 hgives.2
  | used => exact (show c' = _ from hgives) ▸ (h.current slot).rule
  | written => exact .of_compiled_eq_none hgives
  | begun => exact .of_compiled_eq_none hgives
  | copied source => exact (show c' = _ from hgives) ▸ h.current source

/-- A step that succeeds leaves a compiled rule iff the history of its slot has one used. -/
theorem Settled.compiled_of_gives (h : Settled w history)
    (hgives : w.Gives slot s.ruleEffect c') :
    c'.compiled.isSome ↔ RuleUsed (history.extended slot s) := by
  rw [History.extended]
  cases heffect : s.ruleEffect with
  | kept =>
    rw [heffect] at hgives
    rw [hgives.1, h.compiled_iff slot, ruleUsed_append_iff, heffect]
    simp
  | used =>
    rw [heffect] at hgives
    cases hgives
    rw [Catalog.compiled_rule, ruleUsed_append_iff]
    exact ⟨fun _ => .inl heffect, fun _ => rfl⟩
  | written =>
    rw [heffect] at hgives
    rw [show c'.compiled = none from hgives, ruleUsed_append_iff, heffect]
    simp
  | begun =>
    rw [heffect] at hgives
    rw [show c'.compiled = none from hgives]
    exact ⟨nofun, fun hused => absurd hused not_ruleUsed_nil⟩
  | copied source =>
    rw [heffect] at hgives
    cases hgives
    exact h.compiled_iff source

end Steps

/-- A step keeps the invariant. -/
theorem Settled.perform {history : History} (h : Settled w history) (slot : String) (s : Step) :
    Settled (w.perform slot s).value.2 (history.record w slot s) := by
  have hrecorded := forall_recorded
    (R := fun steps c => c.Current ∧ (c.compiled.isSome ↔ RuleUsed steps))
    (fun other => ⟨h.current other, h.compiled_iff other⟩) (step_gives w slot s)
    (history.extended slot s)
    fun c hgives => ⟨h.current_of_gives hgives, h.compiled_of_gives hgives⟩
  exact ⟨fun other => (hrecorded other).1, fun other => (hrecorded other).2⟩

/-- A run keeps the invariant. -/
theorem Settled.after {history : History} (h : Settled w history)
    (steps : List (String × Step)) : Settled (w.after steps) (historyFrom history w steps) := by
  induction steps generalizing w history with
  | nil => exact h
  | cons s steps ih => exact ih (h.perform s.1 s.2)

open Classical in
/-- In every state that steps lead to, the lookups in a slot are those of the rule that its
    headers state, compiled afresh. The next step warns of a header that states none iff it
    looks up the rule, for the first time since the header was written. -/
theorem rule_never_stale (steps : List (String × Step)) (slot : String) :
    let w := empty.after steps
    let c := w.catalog slot
    c.rule.value.1 = c.freshRule ∧
      1 ≤ c.formCount.value.1 ∧
      (∀ n, (c.select n).value.1 < c.formCount.value.1) ∧
      (∀ singular plural n context,
        (c.translatePlural singular plural n context).value.1 =
          c.freshText singular plural n context) ∧
      ∀ s : Step, Catalog.warnings (w.perform slot s).log =
        if s.ruleEffect = .used ∧ ¬RuleUsed (historyFrom (fun _ => []) empty steps slot)
        then c.ruleWarnings else [] := by
  intro w c
  have hsettled : Settled w (historyFrom (fun _ => []) empty steps) := settled_empty.after steps
  have hcurrent : c.Current := hsettled.current slot
  have hcompiled : c.compiled.isSome ↔ RuleUsed (historyFrom (fun _ => []) empty steps slot) :=
    hsettled.compiled_iff slot
  refine ⟨hcurrent.value_rule, ?_, fun n => ?_, hcurrent.value_translatePlural, fun s => ?_⟩
  · rw [hcurrent.value_formCount]
    exact c.freshRule.positive
  · rw [hcurrent.value_select, hcurrent.value_formCount]
    exact c.freshRule.select_lt n
  · rw [warnings_perform, Catalog.log_rule]
    by_cases huse : s.ruleEffect = .used
    · -- The rule is compiled already iff it was used.
      by_cases hused : RuleUsed (historyFrom (fun _ => []) empty steps slot)
      · rw [if_pos huse, if_pos (hcompiled.2 hused), if_neg fun h => h.2 hused]
        rfl
      · rw [if_pos huse, if_neg (mt hcompiled.1 hused), if_pos ⟨huse, hused⟩]
        exact c.warnings_ruleWarnings
    · rw [if_neg huse, if_neg fun h => huse h.1]

end Workspace

end MessageCatalog
