import ScriptSemantics.Command.Files

/-!
# A directory in memory

A directory holds files and folders at places. Paths are followed part by part from the directory,
or from the top of the file system if they begin with a slash. Of the folders above the directory
nothing is known but that they are there.
-/
namespace ScriptSemantics

/-- What stands at a place. -/
inductive FileEntry where
  | file (bytes : ByteArray)
  | folder

/-- A folder from which names lead down. -/
inductive Anchor where
  /-- The folder so many steps above the directory, which is the directory itself at none. -/
  | above (steps : Nat)
  /-- The folder that is its own parent. -/
  | top
  deriving DecidableEq, Repr

/-- Where a path leads: some names down from a folder. -/
structure Place where
  anchor : Anchor
  names : List String
  deriving DecidableEq, Repr

namespace Place

def here : Place := ⟨.above 0, []⟩

def top : Place := ⟨.top, []⟩

def child (place : Place) (name : String) : Place := { place with names := place.names ++ [name] }

def parent (place : Place) : Place :=
  match place.anchor, place.names with
  | .above steps, [] => ⟨.above (steps + 1), []⟩
  | .top, [] => top
  | anchor, names => ⟨anchor, names.dropLast⟩

/-- Leaving a folder leads back to where it was entered. -/
@[simp] theorem parent_child (place : Place) (name : String) :
    (place.child name).parent = place := by
  rcases place with ⟨_ | _, _ | _⟩ <;>
    simp [child, parent, List.dropLast_cons_of_ne_nil]

end Place

/-- The most bytes that a name may have. -/
def nameLimit : Nat := 255

/-- The most bytes that a path may have. -/
def pathLimit : Nat := 4095

/-- Entries by their places. The folders from which names lead down are not listed. -/
structure Directory where
  entries : List (Place × FileEntry)

namespace Directory

def empty : Directory := ⟨[]⟩

def entry? (d : Directory) (place : Place) : Option FileEntry :=
  if place.names.isEmpty then some .folder else d.entries.lookup place

/-- The directory with an entry at a place, instead of what stood there. -/
def put (d : Directory) (place : Place) (entry : FileEntry) : Directory :=
  ⟨(place, entry) :: d.entries.filter fun e => e.1 != place⟩

/-- Where one part leads from a place, which must be a folder. -/
def step (d : Directory) (place : Place) (part : String) : Except FileError Place :=
  match d.entry? place with
  | none => .error .notFound
  | some (.file _) => .error .notDirectory
  | some .folder =>
    if staysInPlace part then .ok place
    else if part = ".." then .ok place.parent
    else if nameLimit < part.utf8ByteSize then .error .nameTooLong
    else .ok (place.child part)

/-- Where a path leads. Only its last part may lead to nothing. -/
def locate (d : Directory) (path : String) : Except FileError Place :=
  if path.isEmpty then .error .notFound
  else if pathLimit < path.utf8ByteSize then .error .nameTooLong
  else
    let start := if path.toList.head? == some '/' then Place.top else Place.here
    (pathParts path).foldlM d.step start

def read (d : Directory) (path : String) : Except FileError String := do
  match d.entry? (← d.locate path) with
  | none => .error .notFound
  | some .folder => .error .isDirectory
  | some (.file bytes) =>
    match String.fromUTF8? bytes with
    | some text => .ok text
    | none => .error .notText

def present (d : Directory) (path : String) : Bool :=
  match d.locate path with
  | .ok place => (d.entry? place).isSome
  | .error _ => false

def write (d : Directory) (path text : String) : Except FileError Directory := do
  let place ← d.locate path
  match d.entry? place with
  | some .folder => .error .isDirectory
  | _ => .ok (d.put place (.file text.toUTF8))

/-- The directory with the folder at a place, unless something stands there. -/
def ensureFolder (d : Directory) (place : Place) : Directory :=
  if (d.entry? place).isSome then d else d.put place .folder

/-- The directory with an entry at a path, and with the folders on the way to it. -/
def install (d : Directory) (path : String) (entry : FileEntry) : Except FileError Directory := do
  let onTheWay := (pathParts path).dropLast
  let (d, _) ← onTheWay.foldlM (fun (d, place) part => do
    let next ← d.step place part
    pure (d.ensureFolder next, next)) (d, Place.here)
  match entry with
  | .folder => pure (d.ensureFolder (← d.locate path))
  | .file _ => pure (d.put (← d.locate path) entry)

/-- The directory as a file system. -/
def files : Files (StateM Directory) where
  read path := do pure ((← get).read path)
  present path := do pure ((← get).present path)
  write path text := do
    match (← get).write path text with
    | .ok d => set d; pure (.ok ())
    | .error e => pure (.error e)

end Directory

end ScriptSemantics
