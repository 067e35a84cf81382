import EnumCodegen.Run.Host

/-! Finding the guard token of a run. -/

namespace EnumCodegen.Guard

variable {m : Type → Type} [Monad m] [Host m]

def readMarker (declaration : Path) : ExceptT FileError m (Option Text) :=
  return (← readIfPresent declaration).bind recovered?

/-- The token of a declaration file: the one set, or the one it keeps, or a new one.
Only a new one draws letters. -/
def resolve (spans : List Span) (explicit? : Option Text) (input declaration : Path) :
    ExceptT FileError m GuardToken := do
  match explicit?.filter (· ≠ []) with
  | some token => return ⟨token, .explicit⟩
  | none =>
    match ← readMarker declaration with
    | some token =>
      note spans (.tokenRecovered token declaration)
      return ⟨token, .recovered⟩
    | none =>
      let token := generated (title input) (← (Host.letters suffixLength : m Text))
      note spans (.tokenGenerated token)
      return ⟨token, .generated⟩

end EnumCodegen.Guard
