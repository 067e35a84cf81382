import EnumCodegen.Storage.Path

/-! Settings of a run that do not come from a description. -/

namespace EnumCodegen

inductive Indent where
  | tab
  | spaces (width : Nat)
  deriving DecidableEq, Repr

def Indent.unit : Indent → Text
  | .tab => ['\t']
  | .spaces width => List.replicate width ' '

structure Config where
  workDir : Path := ⟨Path.dot⟩
  indent : Indent := .tab
  command? : Option Text := none
  verbose : Bool := false
  deriving DecidableEq, Repr

namespace Config

/-- The directory of output files, below the working directory unless it is absolute. -/
def outputDir (c : Config) (dir? : Option Text) : Path :=
  match dir? with
  | none => c.workDir
  | some dir => c.workDir.join (.ofText dir)

/-- The word for the log filter that a run has by default. -/
def filterWord (c : Config) : Text := if c.verbose then "debug" else "warn"

end Config

end EnumCodegen
