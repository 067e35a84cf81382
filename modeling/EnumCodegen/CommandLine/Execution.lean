import EnumCodegen.CommandLine.Arguments
import EnumCodegen.Run.Generate

/-! Running a command line: what it prints, what it generates and how it exits. -/

namespace EnumCodegen

def versionText : Text := "0.9.1"

structure Failure where
  message : Text
  exitCode : Int := 1
  deriving DecidableEq, Repr

def GenerateError.failure (input : Path) : GenerateError → Failure
  | .model e => { message := input.display ++ ": error: " ++ e.message }
  | .file e => { message := "error: " ++ e.message }

/-- The command that the banner of a generated file shows for an input. -/
def bannerCommand (input : Path) : Text :=
  toolName ++ " " ++ ((input.fileName?.map Utf8.decodeLossy).getD input.display)

def Report.events (r : Report) : List Event :=
  [.guardToken r.guard] ++
  (if r.warnings > 0 then [.malformedCount r.warnings] else []) ++
  (if r.filesWritten = 0 then [.upToDate] else [])

variable {m : Type → Type} [Monad m] [Host m]

/-- Generates the files of one input, with a banner that names it. -/
def generateFile (c : Config) (input : Path) : ExceptT Failure m Report :=
  (generate { c with command? := some (bannerCommand input) } input).adapt
    (GenerateError.failure input)

/-- Generates the files of all inputs in order, up to the first that fails. -/
def generateFiles (c : Config) : List Path → ExceptT Failure m Unit
  | [] => return ()
  | input :: rest => do
    note [] (.input input)
    let report ← generateFile c input
    noteAll [] report.events
    generateFiles c rest

def helpLines : List Text :=
  [UsageError.summary, [],
   "Usage: enumg [OPTIONS] [FILE]...", [],
   "Arguments:",
   "  [FILE]...  Description files to process, in order", [],
   "Options:",
   "  -v, --version  Print version information",
   "  -V, --verbose  Verbose output (echo every description entry)",
   "  -d <DIR>       Working directory for outputs (`-d dir` or `-d:dir`)",
   "  -h, --help     Print help"]

def helpText : Text := helpLines.flatMap (· ++ ['\n'])

structure Exit where
  code : Int := 0
  stdout : Text := []
  stderr : Text := []
  deriving DecidableEq, Repr

def UsageError.exit : UsageError → Exit
  | .help => { stdout := helpText }
  | e => { code := e.exitCode, stderr := e.printed ++ "\n" }

/-- Does what arguments ask for. Without inputs that is to print the help. -/
def Arguments.execute (a : Arguments) : m Exit := do
  if a.version then return { stdout := versionText ++ "\n" }
  if a.inputs = [] then return { stdout := helpText ++ "\n" }
  match ← (generateFiles (m := m) a.config a.inputs).run with
  | .ok () => return {}
  | .error e => return { code := e.exitCode, stderr := e.message ++ "\n" }

/-- The filter of a run: what the environment asks for if that can be understood, or
else what the arguments do. -/
def Arguments.logFilter (a : Arguments) (setting? : Option Text) : LogFilter :=
  (setting?.bind LogFilter.ofText? <|> LogFilter.ofText? a.config.filterWord).getD (.upTo .off)

def runWords (words : List Bytes) : m Exit :=
  match Arguments.parse words with
  | .error e => pure e.exit
  | .ok a => a.execute

end EnumCodegen
