/-!
# Files

Commands read and write files by path. What they need of a file system is a record of three
operations.
-/
namespace ScriptSemantics

/-- Why a file could not be read or written. -/
inductive FileError where
  /-- The system refused, with its text and number. -/
  | system (text : String) (code : Nat)
  /-- The file is not text in UTF-8. -/
  | notText
  deriving DecidableEq, Repr

namespace FileError

/-- Nothing has that path. -/
def notFound : FileError := .system "No such file or directory" 2

/-- Something on the way is a file. -/
def notDirectory : FileError := .system "Not a directory" 20

def isDirectory : FileError := .system "Is a directory" 21

/-- The path, or a name in it, has too many bytes. -/
def nameTooLong : FileError := .system "File name too long" 36

def message : FileError → String
  | .system text code => text ++ " (os error " ++ toString code ++ ")"
  | .notText => "stream did not contain valid UTF-8"

end FileError

/-- What commands need of a file system. -/
structure Files (m : Type → Type) where
  /-- The text of a file. -/
  read : String → m (Except FileError String)
  /-- Whether anything has that path. -/
  present : String → m Bool
  /-- Makes a file of that text, or replaces one. -/
  write : String → String → m (Except FileError Unit)

def joinPath (directory name : String) : String :=
  if directory.isEmpty || directory.toList.getLast? == some '/' then directory ++ name
  else directory ++ "/" ++ name

def pathParts (path : String) : List String :=
  (path.toList.splitOn '/').map String.ofList

/-- Whether a part of a path leads to where it stands. -/
def staysInPlace (part : String) : Bool := part.isEmpty || part == "."

/-- The path without its last part, and without the parts before it that lead nowhere. The first
part that is left stays as it is: it tells where the path begins. -/
def parentPath (path : String) : String :=
  match (pathParts path).dropLast with
  | [] => ""
  | first :: between =>
    let kept := (between.reverse.dropWhile staysInPlace).reverse
    if first.isEmpty && kept.isEmpty then "/" else "/".intercalate (first :: kept)

end ScriptSemantics
