import MessageCatalog.Bytes.Order
import MessageCatalog.Plural.Error
import MessageCatalog.Text.Utf8

/-!
# Events

What the library reports about its work, apart from results: a header that it
ignores, records that it skips, files that it has read or written. `Logged` is a
result together with the events that led to it, in order; its monad puts the
events of consecutive steps one after the other (`Logged.log_bind`).
-/

namespace MessageCatalog

/-- Something worth a line in a log. -/
inductive Event where
  /-- A `Plural-Forms` header is ignored for its fault. -/
  | ruleIgnored (header : String) (fault : Plural.HeaderError)
  /-- The record at this index has a message that is empty. -/
  | emptySkipped (index : Nat)
  /-- The record at this index does not translate its message. -/
  | untranslatedSkipped (index : Nat) (message : Bytes)
  /-- A file was read. -/
  | decoded (order : ByteOrder) (revision strings : UInt32) (entries : Nat)
  /-- A file was written. -/
  | encoded (order : ByteOrder) (strings bytes : Nat)
  deriving DecidableEq, Repr

/-- How much an event matters. -/
def Event.level : Event → String
  | ruleIgnored .. => "WARN"
  | emptySkipped .. | untranslatedSkipped .. => "TRACE"
  | decoded .. | encoded .. => "DEBUG"

/-- The wording of an event. -/
def Event.message : Event → String
  | ruleIgnored header fault => s!"ignoring Plural-Forms \"{header}\": {fault.message}"
  | emptySkipped index => s!"skipping record {index} with empty msgid"
  | untranslatedSkipped index message =>
    s!"skipping untranslated record {index}: {String.ofList (Utf8.decodeLossy message)}"
  | decoded order revision strings entries =>
    s!"decoded {order.name} .mo revision {revision.toNat}: {strings.toNat} strings, {entries} entries"
  | encoded order strings bytes =>
    s!"encoded {order.name} .mo: {strings} strings, {bytes} bytes"

/-- A result, with the events that led to it. -/
structure Logged (α : Type) where
  /-- The result. -/
  value : α
  /-- The events, in order. -/
  log : List Event

namespace Logged

variable {α β : Type}

instance : Monad Logged where
  pure a := ⟨a, []⟩
  bind x f := let y := f x.value; ⟨y.value, x.log ++ y.log⟩

/-- Reports an event. -/
def report (event : Event) : Logged Unit :=
  ⟨(), [event]⟩

@[simp]
theorem value_pure (a : α) : (pure a : Logged α).value = a :=
  rfl

@[simp]
theorem log_pure (a : α) : (pure a : Logged α).log = [] :=
  rfl

@[simp]
theorem value_bind (x : Logged α) (f : α → Logged β) : (x >>= f).value = (f x.value).value :=
  rfl

@[simp]
theorem log_bind (x : Logged α) (f : α → Logged β) :
    (x >>= f).log = x.log ++ (f x.value).log :=
  rfl

end Logged

end MessageCatalog
