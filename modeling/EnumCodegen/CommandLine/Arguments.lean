import EnumCodegen.Run.Config
import EnumCodegen.Text.Terminal

/-! The arguments of the command line.
Words are read in order. File names and the value of an option are checked when the
next option is reached or the words end, so an unknown option is reported first. -/

namespace EnumCodegen

structure Arguments where
  inputs : List Path := []
  version : Bool := false
  verbose : Bool := false
  workDir? : Option Path := none
  deriving DecidableEq, Repr

namespace Arguments

def config (a : Arguments) : Config :=
  { workDir := a.workDir?.getD ⟨Path.dot⟩, verbose := a.verbose }

end Arguments

inductive UsageError where
  | help
  | unknownArgument (shown : Text)
  | repeated (argument : Text)
  | unexpectedValue (value argument : Text)
  | missingValue (argument : Text)
  | emptyWorkDir (value : Text)
  | notUtf8
  deriving DecidableEq, Repr

namespace UsageError

def summary : Text := "Generate C/C++ enums with string conversion helpers from INI descriptions"

/-- The wording of an error, which quotes arguments without what a terminal acts on. -/
def wording (quoted : Text → Text) : UsageError → Text
  | .help => summary
  | .unknownArgument shown => "error: unexpected argument '" ++ quoted shown ++ "' found"
  | .repeated argument => "error: the argument '" ++ argument ++ "' cannot be used multiple times"
  | .unexpectedValue value argument =>
    "error: unexpected value '" ++ quoted value ++ "' for '" ++ argument ++
      "' found; no more were expected"
  | .missingValue argument =>
    "error: a value is required for '" ++ argument ++ "' but none was supplied"
  | .emptyWorkDir value =>
    "error: invalid value '" ++ value ++
      "' for '-d <DIR>': working directory must not be empty"
  | .notUtf8 => "error: invalid UTF-8 was detected in one or more arguments"

/-- The message of an error as a value, in which layout controls end a sequence. -/
def message : UsageError → Text := wording Text.withoutControls

/-- The message of an error as it is printed, in which layout controls suspend a sequence. -/
def printed : UsageError → Text := wording Text.withoutSuspendedControls

def exitCode : UsageError → Nat
  | .help => 0
  | _ => 2

end UsageError

inductive Flag where
  | version
  | verbose
  | help
  deriving DecidableEq, Repr

namespace Flag

def all : List Flag := [.version, .verbose, .help]

def longName : Flag → Text
  | .version => "version"
  | .verbose => "verbose"
  | .help => "help"

def letter : Flag → Char
  | .version => 'v'
  | .verbose => 'V'
  | .help => 'h'

def shown (f : Flag) : Text := "--" ++ f.longName

end Flag

/-- How messages show the option for the working directory. -/
def workDirShown : Text := "-d <DIR>"

def workDirLetter : Char := 'd'

def inputsShown : Text := "[FILE]..."

@[match_pattern] def dash : UInt8 := 45

def equalsSign : UInt8 := '='.toUInt8

namespace Arguments

/-- Words that are read but not checked yet. -/
inductive Pending where
  | nothing
  | files (names : List Path)
  | workDir (value? : Option Bytes)
  deriving DecidableEq, Repr

/-- The state between two words. After `--` every word is a file name. -/
structure Parsing where
  done : Arguments := {}
  pending : Pending := .nothing
  ended : Bool := false
  deriving DecidableEq, Repr

/-- Sets the working directory. One leading colon is not a part of it. -/
def setWorkDir (a : Arguments) (value : Bytes) : Except UsageError Arguments :=
  if a.workDir?.isSome then .error (.repeated workDirShown)
  else
    match Utf8.decode? value with
    | none => .error .notUtf8
    | some text =>
      let dir := if text.head? = some ':' then text.tail else text
      if dir = [] then .error (.emptyWorkDir text)
      else .ok { a with workDir? := some (.ofText dir) }

/-- Adds file names, none of which may be empty. -/
def addInputs (a : Arguments) (names : List Path) : Except UsageError Arguments :=
  if names.any (·.bytes = []) then .error (.missingValue inputsShown)
  else .ok { a with inputs := a.inputs ++ names }

def setFlag (a : Arguments) : Flag → Except UsageError Arguments
  | .help => .error .help
  | .version =>
    if a.version then .error (.repeated (Flag.shown .version)) else .ok { a with version := true }
  | .verbose =>
    if a.verbose then .error (.repeated (Flag.shown .verbose)) else .ok { a with verbose := true }

namespace Parsing

def flush (p : Parsing) : Except UsageError Parsing := do
  let done ← match p.pending with
    | .nothing => .ok p.done
    | .files names => p.done.addInputs names
    | .workDir none => .error (.missingValue workDirShown)
    | .workDir (some value) => p.done.setWorkDir value
  return { p with done, pending := .nothing }

def flag (p : Parsing) (f : Flag) : Except UsageError Parsing := do
  let p ← p.flush
  return { p with done := ← p.done.setFlag f }

/-- A word that starts with two dashes. What follows a `=` is a value. -/
def long (p : Parsing) (body : Bytes) : Except UsageError Parsing :=
  let name := body.takeWhile (· ≠ equalsSign)
  match Flag.all.find? fun f => Utf8.encode f.longName = name with
  | none => .error (.unknownArgument ("--" ++ Utf8.decodeLossy name))
  | some f =>
    match body.dropWhile (· ≠ equalsSign) with
    | [] => p.flag f
    | _ :: value => .error (.unexpectedValue (Utf8.decodeLossy value) f.shown)

/-- What is shown of a group of option letters that starts with an unknown one. -/
def unknownLetter (group : Bytes) : Text :=
  match Utf8.decodeParts group with
  | some c :: _ => ['-', c]
  | _ => '-' :: Utf8.decodeLossy group

/-- The option for the working directory with what follows it in its word, of which
one leading `=` is dropped. With nothing there its value is the next word. -/
def workDirOption (p : Parsing) (attached : Bytes) : Except UsageError Parsing := do
  let p ← p.flush
  match attached with
  | [] => return { p with pending := .workDir none }
  | b :: rest =>
    return { p with done := ← p.done.setWorkDir (if b = equalsSign then rest else b :: rest) }

def short (p : Parsing) : Bytes → Except UsageError Parsing
  | [] => .ok p
  | b :: rest =>
    if b = workDirLetter.toUInt8 then p.workDirOption rest
    else
      match Flag.all.find? fun f => f.letter.toUInt8 = b with
      | none => .error (.unknownArgument (unknownLetter (b :: rest)))
      | some f => do (← p.flag f).short rest

/-- A word that is no option: the value of an option that still lacks it, or a file
name. -/
def value (p : Parsing) (word : Bytes) : Except UsageError Parsing :=
  match p.pending with
  | .workDir none =>
    if p.ended then .error (.missingValue workDirShown)
    else .ok { p with pending := .workDir (some word) }
  | .files names => .ok { p with pending := .files (names ++ [⟨word⟩]) }
  | _ => do return { ← p.flush with pending := .files [⟨word⟩] }

/-- Reads one word. A single dash is no option. -/
def word (p : Parsing) (w : Bytes) : Except UsageError Parsing :=
  if p.ended then p.value w
  else
    match w with
    | [dash, dash] => .ok { p with ended := true }
    | dash :: dash :: body => p.long body
    | dash :: b :: rest => p.short (b :: rest)
    | w => p.value w

end Parsing

def parse (words : List Bytes) : Except UsageError Arguments := do
  let p ← words.foldlM Parsing.word {}
  return (← p.flush).done

end Arguments

end EnumCodegen
