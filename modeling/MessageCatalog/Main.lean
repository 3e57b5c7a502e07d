import MessageCatalog.CommandLine.Run

/-!
# The command line

Runs a command on real files. The first argument is the name of the command,
`msgunfmt`, `mocat` or `mongettext`; the others are its own. What is to be done
is decided by the job and its plan, which see only what was fetched.
-/

namespace MessageCatalog.CommandLine

/-- The number of the system's error for a folder in place of a file. -/
def isAFolderCode : UInt32 := 21

/-- The failure that an error of the system is. -/
def storeErrorOf : IO.Error → StoreError
  | .noFileOrDirectory .. => .notFound
  | .inappropriateType _ code _ => if code = isAFolderCode then .isAFolder else .notAFolder
  | error => .system (toString error)

/-- The content under a name. -/
def fetchNow (name : String) : IO (Except StoreError Bytes) := do
  try
    let content ←
      if name = standardStream then (← IO.getStdin).readBinToEnd
      else IO.FS.readBinFile name
    return .ok content.toList
  catch error => return .error (storeErrorOf error)

/-- Stores a content under a name. -/
def storeNow (name : String) (content : Bytes) : IO (Except StoreError Unit) := do
  let bytes := ByteArray.mk content.toArray
  try
    if name = standardStream then
      let stdout ← IO.getStdout
      stdout.write bytes
      stdout.flush
    else IO.FS.writeBinFile name bytes
    return .ok ()
  catch error => return .error (storeErrorOf error)

/-- Carries out a job and gives its exit status. -/
def carryOutNow (job : Job) : IO Nat := do
  let mut inputs : Inputs := []
  for name in job.inputNames do
    inputs := inputs ++ [(name, ← fetchNow name)]
  let plan := job.plan inputs
  plan.complaints.forM IO.eprintln
  match plan.product with
  | none => return plan.status
  | some (name, content) =>
    match ← storeNow name content with
    | .ok () =>
      plan.remarks.forM IO.eprintln
      return plan.status
    | .error e =>
      IO.eprintln (complaint job.command name e.message)
      return 1

/-- How the commands are called. -/
def usageLines : List String := [
  "usage: msgunfmt [-o FILE] FILE...",
  "       mocat -o FILE [-B] [-v] FILE...",
  "       mongettext [-c FILE] [-x CONTEXT] MSGID1 MSGID2 COUNT"]

/-- Tells how the commands are called and gives the exit status. -/
def refuseNow (refusal : Refusal) : IO Nat := do
  match refusal with
  | .misuse => usageLines.forM IO.eprintln
  | .inquiry => usageLines.forM IO.println
  return refusal.status

end MessageCatalog.CommandLine

open MessageCatalog.CommandLine

/-- Runs the command that the first argument names. -/
def main (arguments : List String) : IO UInt32 := do
  let read : Except Refusal Job :=
    match arguments.head?.bind Command.ofName? with
    | some command => command.read arguments.tail
    | none => .error .misuse
  let status ← match read with
    | .ok job => carryOutNow job
    | .error refusal => refuseNow refusal
  return status.toUInt32
