import HeapScript.CommandLine.Command

/-!
# The program

The commands on the files of the computer. Everything they decide is decided elsewhere; here
files are read and written, and a watched file is looked at twice a second.
-/

namespace HeapScript.Computer

/-- A text as the name of a file or folder. -/
def named (path : String) := (IO.FS.DirEntry.mk path "").root

def accessError (action path : String) (e : IO.Error) : String :=
  let why := match e with
    | .noFileOrDirectory .. => "no such file or directory"
    | .permissionDenied .. => "permission denied"
    | .inappropriateType .. => "not a directory"
    | e => toString e
  action ++ " " ++ path ++ ": " ++ why

/-- An access to a path with the message of a failure. -/
def attempt {α : Type} (action path : String) (x : IO α) : IO (Except String α) := do
  try return .ok (← x) catch e => return .error (accessError action path e)

def read (path : String) : IO (Except String Bytes) := do
  if ← (named path).isDir then return .error ("read " ++ path ++ ": is a directory")
  attempt "open" path do return (← IO.FS.readBinFile path).toList

def write (path : String) (bs : Bytes) : IO (Except String Unit) := do
  if ← (named path).isDir then return .error ("open " ++ path ++ ": is a directory")
  attempt "open" path (IO.FS.writeBinFile path bs.toByteArray)

/-- The paths of all files below a folder, or the path of a file itself. -/
def filesBelow (path : String) : IO (Except String (List String)) :=
  attempt "lstat" path do
    if (← (named path).metadata).type == .dir then
      let found ← (named path).walkDir
      let files ← found.toList.filterM fun p => return !(← p.isDir)
      return files.map fun p => Path.clean p.toString
    else return [path]

/-- Looks at a file again and again, and does something at every change. -/
partial def follow (path : String) (act : Nat → IO Unit) (n : Nat) (seen : Option Bytes) : IO Unit := do
  IO.sleep 500
  let now := (← read path).toOption
  if now == seen then follow path act n seen
  else
    act n
    follow path act (n + 1) now

/-- Access to the files of the computer. -/
def shell : Shell IO where
  read := read
  write := write
  filesBelow := filesBelow
  present path := (named path).pathExists
  out bs := do
    let stream ← IO.getStdout
    stream.write bs.toByteArray
    stream.flush
  err bs := do
    let stream ← IO.getStderr
    stream.write bs.toByteArray
    stream.flush
  follow path act := do follow path act 1 (← read path).toOption

def environment : IO Environment :=
  ["PHPGC_UNROLL", "PHPGC_NOOPT", "PHPGC_VERBOSE", "PHPGC_MAX_STEPS", "NO_COLOR", "TERM"].filterMapM
    fun name => return (← IO.getEnv name).map fun v => (name, v)

end HeapScript.Computer

def main (args : List String) : IO UInt32 := do
  let terminal ← (← IO.getStderr).isTty
  HeapScript.commandLine HeapScript.Computer.shell (← HeapScript.Computer.environment) terminal args
