import MessageCatalog.Proofs.Catalog.Reachable
import MessageCatalog.Store

/-!
# The compiled rule of a catalog

A catalog keeps the rule that it has compiled. As long as that rule is the one its
headers state (`Current`), no lookup tells whether it was compiled before or just
now: the lookups agree with their counterparts that compile the rule each time
(`freshRule`, `freshText`). Only the report of a fault tells: it comes when the
rule is compiled (`log_rule`), and not again from the catalog that keeps it
(`rule_rule`).

* `Current.value_rule`, `Current.value_translatePlural`: lookups are those of the
  fresh rule.
-/

namespace MessageCatalog.Catalog

open Plural (Rule)

/-- The rule that the headers of a catalog state now. -/
def freshRule (c : Catalog) : Rule :=
  (Rule.ofHeader (c.header? pluralFormsHeader)).value

/-- The text for a message with a plural, for a count, by the rule that the headers state
    now. -/
def freshText (c : Catalog) (singular plural : Bytes) (n : Int64) (context : Option Bytes) :
    Bytes :=
  let index := c.freshRule.select n
  ((c.entries.find? (entryKey singular context)).bind (·.form? index)).getD
    (if index ≠ 0 then plural else singular)

/-- The report of a header that states no rule. -/
def ruleWarnings (c : Catalog) : List Event :=
  match c.header? pluralFormsHeader with
  | none => []
  | some header =>
    match Rule.parse header with
    | .ok _ => []
    | .error fault => [.ruleIgnored header fault]

/-- The compiled rule, if there is one, is the one that the headers state now. -/
def Current (c : Catalog) : Prop :=
  ∀ rule ∈ c.compiled, rule = c.freshRule

/-! ### Compiling -/

section Compiling

variable (c : Catalog)

theorem log_ofHeader : (Rule.ofHeader (c.header? pluralFormsHeader)).log = c.ruleWarnings := by
  rw [ruleWarnings]
  cases c.header? pluralFormsHeader with
  | none => rfl
  | some header =>
    rw [Rule.ofHeader]
    split <;> rename_i h <;> simp [h, Logged.report]

/-- The catalog keeps the rule that it gives. -/
theorem compiled_rule : c.rule.value.2.compiled = some c.rule.value.1 := by
  rw [rule]
  split
  case h_1 rule h => exact h
  case h_2 => rfl

/-- A fault is reported when the rule is compiled. -/
theorem log_rule : c.rule.log = if c.compiled.isSome then [] else c.ruleWarnings := by
  rw [rule]
  split
  case h_1 rule h => rw [h]; rfl
  case h_2 h =>
    rw [h, Logged.log_bind, log_ofHeader]
    exact List.append_nil _

/-- A rule that is compiled is given again as it is. -/
theorem rule_rule : c.rule.value.2.rule = ⟨c.rule.value, []⟩ := by
  rw [rule, compiled_rule]
  rfl

theorem log_select (n : Int64) : (c.select n).log = c.rule.log :=
  List.append_nil _

theorem log_translatePlural (singular plural : Bytes) (n : Int64) (context : Option Bytes) :
    (c.translatePlural singular plural n context).log = c.rule.log :=
  (List.append_nil _).trans (c.log_select n)

end Compiling

/-! ### Looking up -/

namespace Current

variable {c c' : Catalog}

theorem of_compiled_eq_none (h : c.compiled = none) : Current c := by
  intro rule hrule
  rw [h] at hrule
  cases hrule

/-- A catalog with the same compiled rule stays current if its header stays the same. -/
theorem congr (h : Current c) (hcompiled : c'.compiled = c.compiled)
    (hheader : c'.header? pluralFormsHeader = c.header? pluralFormsHeader) : Current c' := by
  intro rule hrule
  rw [freshRule, hheader]
  exact h rule (hcompiled ▸ hrule)

theorem value_rule (h : Current c) : c.rule.value.1 = c.freshRule := by
  rw [rule]
  split
  case h_1 rule hrule => exact h rule hrule
  case h_2 => rfl

theorem rule (h : Current c) : Current c.rule.value.2 := by
  intro rule hrule
  rw [compiled_rule, Option.mem_some_iff] at hrule
  rw [← hrule, h.value_rule, freshRule, freshRule, header?, header?, headers_rule]

theorem value_formCount (h : Current c) : c.formCount.value.1 = c.freshRule.formCount :=
  congrArg Rule.formCount h.value_rule

theorem value_select (h : Current c) (n : Int64) :
    (c.select n).value.1 = c.freshRule.select n :=
  congrArg (Rule.select · n) h.value_rule

theorem value_translatePlural (h : Current c) (singular plural : Bytes) (n : Int64)
    (context : Option Bytes) :
    (c.translatePlural singular plural n context).value.1 =
      c.freshText singular plural n context := by
  show c.rule.value.2.textAt singular plural (c.select n).value.1 context = _
  rw [h.value_select, textAt, find?, entries_rule, freshText]
  cases (c.entries.find? (entryKey singular context)).bind (·.form? (c.freshRule.select n)) with
  | some form => rfl
  | none => simp only [Option.getD_none, ite_not]

end Current

/-! ### Reading -/

theorem compiled_absorb {c : Catalog} (h : c.compiled = none) (record : Record) :
    (c.absorb record).compiled = none := by
  cases record with
  | headers fields => exact (compiled_setHeaders c fields).trans (by rw [h, ite_self])
  | entry e => exact (compiled_add c e).trans h
  | empty => exact h
  | untranslated e => exact h

/-- A catalog that was just read has not compiled its rule. -/
theorem compiled_ofRecords (records : List Record) : (ofRecords records).compiled = none := by
  suffices h : ∀ c : Catalog, c.compiled = none → (records.foldl absorb c).compiled = none from
    h empty rfl
  induction records with
  | nil => exact fun _ hc => hc
  | cons record records ih => exact fun c hc => ih _ (compiled_absorb hc record)

theorem compiled_of_decode {bytes : Bytes} {c : Catalog} (h : (decode bytes).value = .ok c) :
    c.compiled = none := by
  obtain ⟨image, -, -, rfl⟩ := decode_eq_ok_iff.1 h
  exact compiled_ofRecords _

theorem compiled_of_ofFetched {name : String} {fetched : Except StoreError Bytes} {c : Catalog}
    (h : (ofFetched name fetched).value = .ok c) : c.compiled = none := by
  obtain ⟨content, -, hdecode⟩ := value_ofFetched_eq_ok_iff.1 h
  exact compiled_of_decode hdecode

/-! ### Warnings -/

/-- The events that are warnings. -/
def warnings (log : List Event) : List Event :=
  log.filter (·.level = "WARN")

theorem warnings_append (log log' : List Event) :
    warnings (log ++ log') = warnings log ++ warnings log' :=
  List.filter_append ..

theorem warnings_ruleWarnings (c : Catalog) : warnings c.ruleWarnings = c.ruleWarnings := by
  refine List.filter_eq_self.2 fun event hevent => ?_
  rw [ruleWarnings] at hevent
  split at hevent
  · cases hevent
  · split at hevent
    · cases hevent
    · cases List.mem_singleton.1 hevent
      rfl

theorem warnings_skipped (records : List Record) : warnings (skipped records) = [] := by
  refine List.filter_eq_nil_iff.2 fun event hevent => ?_
  obtain ⟨⟨record, index⟩, -, hrecord⟩ := List.mem_filterMap.1 hevent
  cases record with
  | headers => cases hrecord
  | entry => cases hrecord
  | empty => cases hrecord; simp [Event.level]
  | untranslated => cases hrecord; simp [Event.level]

/-- Reading gives no warning. -/
theorem warnings_decode (bytes : Bytes) : warnings (decode bytes).log = [] := by
  rw [decode]
  split
  · rfl
  case h_2 image _ =>
    simp only [ofImage]
    split
    · exact warnings_skipped _
    · rw [warnings_append, warnings_skipped]
      rfl

theorem warnings_ofFetched (name : String) (fetched : Except StoreError Bytes) :
    warnings (ofFetched name fetched).log = [] := by
  cases fetched with
  | error reason => rfl
  | ok content =>
    show warnings ((decode content).log ++ []) = []
    rw [List.append_nil, warnings_decode]

/-- Writing gives no warning. -/
theorem warnings_encode (c : Catalog) (order : ByteOrder) :
    warnings (c.encode order).log = [] := by
  refine List.filter_eq_nil_iff.2 fun event hevent => ?_
  cases List.mem_singleton.1 hevent
  simp [Event.level]

end MessageCatalog.Catalog
