import MessageCatalog.CommandLine.Usage
import MessageCatalog.PoText
import MessageCatalog.Store

/-!
# Jobs

What the three commands do. Each reads the files it names, and then has a plan:
complaints, one thing to store, and remarks once that is done (`Plan`). A plan
is computed from what the files gave and touches nothing.

* `msgunfmt` writes the text of several catalogs. An unusable one is complained
  of and left out. Of headers and entries the last ones count.
* `mocat` writes the image of several catalogs, or nothing at all if one of them
  is unusable. Of headers the first ones count, of entries the last ones.
* `mongettext` writes the text for a message and a count. An unusable catalog is
  as good as an empty one.

The name `-` stands for the standard input or output.
-/

namespace MessageCatalog.CommandLine

/-- The name of the standard input and of the standard output. -/
def standardStream : String := "-"

/-- The commands. -/
inductive Command where
  /-- `msgunfmt`: the text of catalogs. -/
  | dump
  /-- `mocat`: the image of catalogs. -/
  | concatenate
  /-- `mongettext`: the text for a message. -/
  | lookup
  deriving DecidableEq, Repr

/-- A call of a command that can be carried out. -/
inductive Job where
  /-- Writes the text of the input catalogs. -/
  | dump (output : String) (inputs : List String)
  /-- Writes the image of the input catalogs, and reports it if `verbose`. -/
  | concatenate (output : String) (order : ByteOrder) (verbose : Bool) (inputs : List String)
  /-- Writes the text for a message in the input catalog, if one is named. -/
  | lookup (input context : Option String) (singular plural count : String)
  deriving DecidableEq, Repr

/-- What a job comes to. -/
structure Plan where
  /-- Lines to begin with, for the error stream. -/
  complaints : List String
  /-- What to store, and under which name. -/
  product : Option (String × Bytes)
  /-- Lines for the error stream once the product is stored. -/
  remarks : List String
  /-- The exit status if the product is stored. -/
  status : Nat
  deriving DecidableEq, Repr

/-- Inputs by name, with what fetching them gave. -/
abbrev Inputs := List (String × Except StoreError Bytes)

namespace Command

/-- The name of a command. -/
def name : Command → String
  | dump => "msgunfmt"
  | concatenate => "mocat"
  | lookup => "mongettext"

/-- The command of a name. -/
def ofName? (text : String) : Option Command :=
  [dump, concatenate, lookup].find? (·.name == text)

/-- The switches that every command has, to ask about it. -/
def inquiries : List Switch :=
  [⟨'h', "help", .inquiry⟩, ⟨'V', "version", .inquiry⟩]

/-- How a command may be called. -/
def usage : Command → Usage
  | dump => {
      switches := ⟨'o', "output-file", .name⟩ :: inquiries
      required := [], least := 1, most := none, loose := none }
  | concatenate => {
      switches := ⟨'o', "output-file", .name⟩ :: ⟨'B', "big-endian", .flag⟩ ::
        ⟨'v', "verbose", .flag⟩ :: inquiries
      required := ["output-file"], least := 1, most := none, loose := none }
  | lookup => {
      switches := ⟨'c', "catalog", .value⟩ :: ⟨'x', "context", .value⟩ :: inquiries
      required := [], least := 3, most := some 3, loose := some 2 }

/-- The job that a call of a command asks for. -/
def job? (command : Command) (call : Call) : Option Job :=
  let output := (call.value? "output-file").getD standardStream
  match command, call.operands with
  | dump, inputs => some (.dump output inputs)
  | concatenate, inputs =>
    let order := if call.has "big-endian" then .big else .little
    some (.concatenate output order (call.has "verbose") inputs)
  | lookup, [singular, plural, count] =>
    some (.lookup (call.value? "catalog") (call.value? "context") singular plural count)
  | lookup, _ => none

/-- The job that the arguments of a command ask for. -/
def read (command : Command) (arguments : List String) : Except Refusal Job := do
  let call ← command.usage.read arguments
  match command.job? call with
  | some job => return job
  | none => throw .misuse

end Command

/-- What a failed import makes a command say. -/
def complaint (command : Command) (name reason : String) : String :=
  s!"{command.name}: {name}: {reason}"

/-- The catalogs in inputs, by name, with what is wrong with unusable ones. -/
def catalogsOf (inputs : Inputs) : List (String × Except ImportError Catalog) :=
  inputs.map fun (name, fetched) => (name, (Catalog.ofFetched name fetched).value)

/-- Adds headers and entries of a catalog, in place of earlier ones. -/
def override (c guest : Catalog) : Catalog :=
  (c.setHeaders guest.headers.fields).merge guest

/-- Adds headers of a catalog that are not there yet, and its entries, in place
    of earlier ones. -/
def append (c guest : Catalog) : Catalog :=
  let complete (c : Catalog) (field : String × String) : Catalog :=
    if (c.header? field.1).isSome then c else c.setHeader field.1 field.2
  (guest.headers.fields.foldl complete c).merge guest

/-- The usable catalogs. -/
def usable (catalogs : List (String × Except ImportError Catalog)) : List Catalog :=
  catalogs.filterMap fun (_, imported) => imported.toOption

/-- The names of unusable catalogs, with what is wrong with them. -/
def unusable (catalogs : List (String × Except ImportError Catalog)) :
    List (String × ImportError) :=
  catalogs.filterMap fun (name, imported) =>
    match imported with
    | .ok _ => none
    | .error e => some (name, e)

namespace Job

/-- The command of a job. -/
def command : Job → Command
  | dump .. => .dump
  | concatenate .. => .concatenate
  | lookup .. => .lookup

/-- The names of the inputs of a job. -/
def inputNames : Job → List String
  | dump _ inputs | concatenate _ _ _ inputs => inputs
  | lookup input .. => input.toList

/-- The plan for the text of catalogs. -/
def planDump (output : String) (inputs : Inputs) : Plan :=
  let catalogs := catalogsOf inputs
  let bad := unusable catalogs
  { complaints := bad.map fun (name, e) => complaint .dump name e.message
    product := some (output, PoText.ofCatalog ((usable catalogs).foldl override Catalog.empty))
    remarks := []
    status := if bad = [] then 0 else 1 }

/-- The plan for the image of catalogs. -/
def planConcatenate (output : String) (order : ByteOrder) (verbose : Bool) (inputs : Inputs) :
    Plan :=
  let catalogs := catalogsOf inputs
  match unusable catalogs with
  | (name, e) :: _ =>
    { complaints := [complaint .concatenate name e.message]
      product := none, remarks := [], status := 1 }
  | [] =>
    let merged := (usable catalogs).foldl append Catalog.empty
    let count := merged.translated.length
    let remark := s!"{Command.concatenate.name}: {count} messages written to {output}"
    { complaints := []
      product := some (output, merged.image order)
      remarks := if verbose then [remark] else []
      status := 0 }

/-- The plan for the text for a message. -/
def planLookup (context : Option String) (singular plural count : String) (inputs : Inputs) :
    Plan :=
  match Numeral.signed? count.toList with
  | none =>
    { complaints := [s!"{Command.lookup.name}: invalid count: {count}"]
      product := none, remarks := [], status := 1 }
  | some n =>
    let c := (usable (catalogsOf inputs)).headD Catalog.empty
    let bytes (text : String) := Utf8.encode text.toList
    let text := (c.translatePlural (bytes singular) (bytes plural) n (context.map bytes)).value.1
    { complaints := []
      product := some (standardStream, text ++ [PoText.ascii '\n'])
      remarks := []
      status := 0 }

/-- The plan of a job, from what its inputs gave. -/
def plan (job : Job) (inputs : Inputs) : Plan :=
  match job with
  | dump output _ => planDump output inputs
  | concatenate output order verbose _ => planConcatenate output order verbose inputs
  | lookup _ context singular plural count => planLookup context singular plural count inputs

end Job

end MessageCatalog.CommandLine
