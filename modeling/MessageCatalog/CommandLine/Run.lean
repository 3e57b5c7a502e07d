import MessageCatalog.CommandLine.Job
import MessageCatalog.Store.Folder

/-!
# Running commands

A command runs in surroundings: a folder, and a standard input, which is used up
when it is read. It leaves an exit status, an output, lines on the error stream,
and the folder.

* `run`: the outcome of a command with its arguments. If they are no call, it does
  nothing; its status is 2, or 0 if they ask about the command.
-/

namespace MessageCatalog.CommandLine

/-- What a command runs in. -/
structure Surroundings where
  /-- The current folder. -/
  folder : Folder
  /-- What the standard input still holds. -/
  input : Bytes
  deriving DecidableEq, Repr

/-- What a command leaves. -/
structure Outcome where
  /-- The exit status. -/
  status : Nat
  /-- The standard output. -/
  output : Bytes
  /-- The lines on the error stream. -/
  errors : List String
  /-- The current folder. -/
  folder : Folder
  deriving DecidableEq, Repr

/-- The exit status of a command whose arguments are no call. -/
def Refusal.status : Refusal → Nat
  | misuse => 2
  | inquiry => 0

/-- The content under a name, and the surroundings afterwards. -/
def fetch (s : Surroundings) (name : String) : Except StoreError Bytes × Surroundings :=
  if name = standardStream then (.ok s.input, { s with input := [] })
  else if name = "" then (.error .notFound, s)
  else (s.folder.fetch name, s)

/-- The contents under names, fetched in order. -/
def fetchAll (s : Surroundings) : List String → Inputs
  | [] => []
  | name :: names =>
    let (fetched, s) := fetch s name
    (name, fetched) :: fetchAll s names

/-- The outcome of a plan of a command. -/
def carryOut (command : Command) (folder : Folder) (plan : Plan) : Outcome :=
  match plan.product with
  | none => ⟨plan.status, [], plan.complaints, folder⟩
  | some (name, content) =>
    if name = standardStream then
      ⟨plan.status, content, plan.complaints ++ plan.remarks, folder⟩
    else match folder.store name content with
      | .ok folder => ⟨plan.status, [], plan.complaints ++ plan.remarks, folder⟩
      | .error e => ⟨1, [], plan.complaints ++ [complaint command name e.message], folder⟩

/-- The outcome of a command with its arguments. -/
def run (command : Command) (arguments : List String) (s : Surroundings) : Outcome :=
  match command.read arguments with
  | .error refusal => ⟨refusal.status, [], [], s.folder⟩
  | .ok job => carryOut command s.folder (job.plan (fetchAll s job.inputNames))

end MessageCatalog.CommandLine
