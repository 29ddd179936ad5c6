import ScriptSemantics.Command.Run

/-!
# The program

The commands, run on the files of the system.
-/
namespace ScriptSemantics

/-- The text of a system error that commands commonly meet, or the text at hand. -/
def systemText (code : Nat) (text : String) : String :=
  match code with
  | 2 => "No such file or directory"
  | 13 => "Permission denied"
  | 20 => "Not a directory"
  | 21 => "Is a directory"
  | 28 => "No space left on device"
  | 30 => "Read-only file system"
  | 36 => "File name too long"
  | _ => text

/-- A system error by its number, which may come with its sign turned. -/
def FileError.ofCode (code : UInt32) (text : String) : FileError :=
  let size := if code < 0x80000000 then code.toNat else (0 - code).toNat
  .system (systemText size text) size

/-- The reason for which the system refused. -/
def FileError.ofSystem : IO.Error → FileError
  | .noFileOrDirectory _ code text => .ofCode code text
  | .inappropriateType _ code text => .ofCode code text
  | .permissionDenied _ code text => .ofCode code text
  | .resourceExhausted _ code text => .ofCode code text
  | .invalidArgument _ code text => .ofCode code text
  | .otherError code text => .ofCode code text
  | error => .system error.toString 5

def systemFiles : Files IO where
  read path := do
    try
      match String.fromUTF8? (← IO.FS.readBinFile path) with
      | some text => pure (.ok text)
      | none => pure (.error .notText)
    catch error => pure (.error (.ofSystem error))
  present path := do
    try
      let _ ← IO.FS.realPath path
      pure true
    catch _ => pure false
  write path text := do
    try
      IO.FS.writeFile path text
      pure (.ok ())
    catch error => pure (.error (.ofSystem error))

end ScriptSemantics

def main (arguments : List String) : IO UInt32 := do
  let outcome ← ScriptSemantics.runCommand ScriptSemantics.systemFiles arguments
  IO.print outcome.output
  match outcome.failure with
  | some line => IO.eprintln line
  | none => pure ()
  pure outcome.status.toUInt32
