import EnumCodegen.CommandLine.Execution

/-! The program on a real machine: its files, its random letters and its terminal. -/

namespace EnumCodegen

/-- A run on this machine that shows the events which a filter lets through. -/
abbrev Machine := ReaderT LogFilter IO

def pathString (p : Path) : String := String.ofList p.display

/-- An error number, which some operations report as its negative. -/
def errorNumber (code : UInt32) : UInt32 := min code (0 - code)

def fileError : IO.Error → FileError
  | .noFileOrDirectory .. => .notFound
  | .alreadyExists .. => .alreadyExists
  | .inappropriateType _ code _ => if errorNumber code = 20 then .notDirectory else .isDirectory
  | e@(.invalidArgument _ code _) =>
    if errorNumber code = 36 then .nameTooLong else .other (toString e).toList
  | e => .other (toString e).toList

/-- An operation whose failure is an answer. -/
def attempt {α : Type} (action : IO α) : ExceptT FileError Machine α :=
  ExceptT.mk do
    try return .ok (← action)
    catch e => return .error (fileError e)

def attemptAt {α : Type} (path : Path) (action : String → IO α) : ExceptT FileError Machine α :=
  if 0 ∈ path.bytes then throw .nulInPath else attempt (action (pathString path))

/-- Makes a temporary file with a content. It is removed if it cannot be filled. -/
def makeTemporary (content : Bytes) : IO (Temporary content) := do
  let (handle, name) ← IO.FS.createTempFile
  try
    handle.write ⟨content.toArray⟩
    handle.flush
  catch e =>
    IO.FS.removeFile name
    throw e
  return ⟨name.toString.toList⟩

def printError (text : Text) : IO Unit := IO.eprint (String.ofList text)

instance : Host Machine where
  readFile path := attemptAt path fun name => return (← IO.FS.readBinFile name).toList
  writeFile path content := attemptAt path fun name => IO.FS.writeBinFile name ⟨content.toArray⟩
  makeDirectories path := attemptAt path fun name => IO.FS.createDirAll name
  stage content := attempt (makeTemporary content)
  readStaged file := attempt do return (← IO.FS.readBinFile (String.ofList file.name)).toList
  discard file := do
    try IO.FS.removeFile (String.ofList file.name)
    catch _ => pure ()
  letters n := do
    let mut letters := #[]
    for _ in [0:n] do
      letters := letters.push (Char.ofNat (97 + (← IO.rand 0 25)))
    return letters.toList
  record r := do
    let filter ← read
    printError (filter.lines [r])

def runProgram (words : List String) : IO UInt32 := do
  let words := words.map fun word => Utf8.encode word.toList
  let setting? := (← IO.getEnv "RUST_LOG").map String.toList
  let filter :=
    match Arguments.parse words with
    | .ok a => a.logFilter setting?
    | .error _ => .upTo .off
  let exit ← (runWords (m := Machine) words).run filter
  IO.print (String.ofList exit.stdout)
  printError exit.stderr
  return UInt32.ofNat exit.code.toNat

end EnumCodegen

def main (words : List String) : IO UInt32 := EnumCodegen.runProgram words
