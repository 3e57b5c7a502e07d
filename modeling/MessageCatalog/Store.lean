import MessageCatalog.Catalog.Reading
import MessageCatalog.Catalog.Writing

/-!
# Stores

Catalogs are kept in stores, which hold byte strings under names: in memory
(`Memory`) or in a folder (`MessageCatalog.Store.Folder`). A store may fail to
give or to take a resource (`StoreError`).

* `Memory.fetch`: the content under a name;
* `Catalog.ofFetched`: the catalog in what was fetched.
-/

namespace MessageCatalog

/-- Why a store does not give or take a resource. -/
inductive StoreError where
  /-- Nothing in memory has this name. -/
  | noSuchResource (name : String)
  /-- The name leads to no file. -/
  | notFound
  /-- The name goes on after a file. -/
  | notAFolder
  /-- The name is that of a folder. -/
  | isAFolder
  /-- The name, or a part of it, is too long. -/
  | nameTooLong
  /-- The name has a zero character. -/
  | zeroInName
  /-- Another reason, as the system words it. -/
  | system (reason : String)
  deriving DecidableEq, Repr

/-- The wording of a failure of the file system, with its number. -/
def systemFailure (reason : String) (number : Nat) : String :=
  s!"{reason} (os error {number})"

/-- The wording of a failure. -/
def StoreError.message : StoreError → String
  | noSuchResource name => s!"{name}: no such resource"
  | notFound => systemFailure "No such file or directory" 2
  | notAFolder => systemFailure "Not a directory" 20
  | isAFolder => systemFailure "Is a directory" 21
  | nameTooLong => systemFailure "File name too long" 36
  | zeroInName => "file name contained an unexpected NUL byte"
  | system reason => reason

/-- Resources in memory, under their names. -/
structure Memory where
  /-- Names and contents; each name once. -/
  resources : List (String × Bytes)
  deriving DecidableEq, Repr

namespace Memory

/-- No resources. -/
def empty : Memory :=
  ⟨[]⟩

/-- The content under a name. -/
def get? (m : Memory) (name : String) : Option Bytes :=
  m.resources.lookup name

/-- Stores a resource, in place of one of the same name. -/
def put (m : Memory) (name : String) (content : Bytes) : Memory :=
  ⟨(name, content) :: m.resources.filter (·.1 != name)⟩

/-- The resources of both, those of the second in preference. -/
def overlay (m cover : Memory) : Memory :=
  ⟨cover.resources ++ m.resources.filter fun r => (cover.get? r.1).isNone⟩

/-- The content under a name, or the failure to find it. -/
def fetch (m : Memory) (name : String) : Except StoreError Bytes :=
  match m.get? name with
  | some content => .ok content
  | none => .error (.noSuchResource name)

end Memory

/-- Why no catalog comes from a store. -/
inductive ImportError where
  /-- The resource of this name cannot be read. -/
  | unavailable (name : String) (reason : StoreError)
  /-- The content is no image. -/
  | fault (fault : Image.Fault)
  deriving DecidableEq, Repr

/-- The wording of a failed import. -/
def ImportError.message : ImportError → String
  | unavailable name reason => s!"cannot read {name}: {reason.message}"
  | fault f => f.message

/-- The catalog in what was fetched under a name. -/
def Catalog.ofFetched (name : String) (fetched : Except StoreError Bytes) :
    Logged (Except ImportError Catalog) :=
  match fetched with
  | .error reason => pure (.error (.unavailable name reason))
  | .ok content => do
    let decoded ← Catalog.decode content
    return decoded.mapError .fault

end MessageCatalog
