import MessageCatalog.Store

/-!
# Folders

A folder of files as a store. The name of a resource is a path: parts between
slashes, each the name of a file or folder in the folder before it, or one of
`.` and `..`, the folder itself and the one around it. Following a path, every
part but the last has to be a folder. A path begins at the folder, or at the
root if it begins with a slash. Folders exist as far as files lie in them;
storing makes no folder.

A path may leave the folder. Of what lies outside, the root is known, the
folders around the folder, the null device, and what was stored there.

* `Folder.walk`: where the parts of a path lead;
* `Folder.fetch`, `Folder.store`: reading and writing a file.
-/

namespace MessageCatalog

/-- Where the parts of a place begin. -/
inductive Origin where
  /-- The folder, or the one so many levels around it. -/
  | around (levels : Nat)
  /-- The root. -/
  | root
  deriving DecidableEq, Repr

/-- What a path can lead to. -/
structure Place where
  /-- The folder where the parts begin. -/
  origin : Origin
  /-- The names on the way from there. -/
  parts : List String
  deriving DecidableEq, Repr

/-- A folder of files. -/
structure Folder where
  /-- The files, by their places, with their contents. -/
  files : List (Place × Bytes)
  deriving DecidableEq, Repr

/-- What can be at a place. -/
inductive Node where
  /-- A file with its content. -/
  | file (content : Bytes)
  /-- A folder. -/
  | folder
  deriving DecidableEq, Repr

namespace Place

/-- The place in the folder with the given parts. -/
def inside (parts : List String) : Place :=
  ⟨.around 0, parts⟩

/-- The null device, a file that stays empty. -/
def nullDevice : Place :=
  ⟨.root, ["dev", "null"]⟩

/-- Whether a place is on the way to another. -/
def isOnWayTo (p q : Place) : Bool :=
  p.origin = q.origin ∧ p.parts.isPrefixOf q.parts

/-- The folder around a place. There is none around the root but itself. -/
def parent (p : Place) : Place :=
  match p.origin, p.parts with
  | .around levels, [] => ⟨.around (levels + 1), []⟩
  | origin, parts => ⟨origin, parts.dropLast⟩

/-- The place of a name in a folder. -/
def child (p : Place) (name : String) : Place :=
  ⟨p.origin, p.parts ++ [name]⟩

end Place

namespace Folder

/-- The greatest length of a part of a path, in bytes. -/
def maxPartLength : Nat := 255

/-- The length from which on a path is too long, in bytes. -/
def pathLengthLimit : Nat := 4096

/-- The parts of a path. -/
def partsOf (path : String) : List String :=
  ((pieces '/' path.toList).filter (· ≠ [])).map String.ofList

/-- The folder with files at the given paths. -/
def ofFiles (files : List (String × Bytes)) : Folder :=
  ⟨(Place.nullDevice, []) :: files.map fun file => (.inside (partsOf file.1), file.2)⟩

/-- The folder without files. -/
def empty : Folder :=
  ofFiles []

/-- What is at a place. -/
def node? (f : Folder) (place : Place) : Option Node :=
  match f.files.lookup place with
  | some content => some (.file content)
  | none =>
    if place.parts = [] ∨ f.files.any (place.isOnWayTo ·.1) then some .folder else none

/-- The place that a part leads to from a place. -/
def step (f : Folder) (place : Place) (part : String) : Except StoreError Place :=
  match f.node? place with
  | none => .error .notFound
  | some (.file _) => .error .notAFolder
  | some .folder =>
    if part = "." then .ok place
    else if part = ".." then .ok place.parent
    else if maxPartLength < part.utf8ByteSize then .error .nameTooLong
    else .ok (place.child part)

/-- Where the parts of a path lead from a place. -/
def walk (f : Folder) (place : Place) (parts : List String) : Except StoreError Place :=
  parts.foldlM f.step place

/-- Where a path begins. -/
def originOf (path : String) : Origin :=
  if path.toList.head? = some '/' then .root else .around 0

/-- Whether a path ends with a slash, which only a folder may precede. -/
def endsWithSlash (path : String) : Bool :=
  path.toList.getLast? == some '/'

/-- The failure of a path that cannot be followed at all. -/
def checkPath (path : String) : Except StoreError Unit :=
  if path.toList.contains '\x00' then .error .zeroInName
  else if pathLengthLimit ≤ path.utf8ByteSize then .error .nameTooLong
  else .ok ()

/-- The content of the file at a path. -/
def fetch (f : Folder) (path : String) : Except StoreError Bytes := do
  checkPath path
  match f.node? (← f.walk ⟨originOf path, []⟩ (partsOf path)) with
  | none => throw .notFound
  | some .folder => throw .isAFolder
  | some (.file content) => if endsWithSlash path then throw .notAFolder else return content

/-- The folder with a content in the file at a place. -/
def write (f : Folder) (place : Place) (content : Bytes) : Folder :=
  if place = .nullDevice then f
  else ⟨(place, content) :: f.files.filter (·.1 != place)⟩

/-- The parts of a path that are followed in order to write. The last one does
    not matter before a slash, where it can only be a folder. -/
def partsToWrite (path : String) : List String :=
  if endsWithSlash path then (partsOf path).dropLast ++ ["."] else partsOf path

/-- Stores a content in the file at a path, which need not exist. -/
def store (f : Folder) (path : String) (content : Bytes) : Except StoreError Folder := do
  checkPath path
  let place ← f.walk ⟨originOf path, []⟩ (partsToWrite path)
  if f.node? place = some .folder then throw .isAFolder
  else return f.write place content

/-- The files in the folder that another does not have with the same content, by
    path. -/
def changesFrom (f before : Folder) : List (String × Bytes) :=
  (f.files.filter fun file =>
    file.1.origin = .around 0 ∧ before.files.lookup file.1 ≠ some file.2).map fun file =>
    ("/".intercalate file.1.parts, file.2)

end Folder

end MessageCatalog
