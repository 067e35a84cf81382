import EnumCodegen.Text.Basic

/-! String literals of generated source text.
A backslash stands before every quote and backslash, so a literal ends at its first
quote that no backslash escapes. -/

namespace EnumCodegen.StringLiteral

def escape (c : Char) : Text := if c = '"' ∨ c = '\\' then ['\\', c] else [c]

def encode (text : Text) : Text := '"' :: text.flatMap escape ++ ['"']

/-- The text before the first quote that is not escaped, with escapes resolved, and
what follows that quote. -/
def scan : Text → Option (Text × Text)
  | [] => none
  | '"' :: rest => some ([], rest)
  | '\\' :: c :: rest =>
    if c = '"' ∨ c = '\\' then (scan rest).map fun (text, after) => (c :: text, after) else none
  | c :: rest => (scan rest).map fun (text, after) => (c :: text, after)

/-- The text that a literal spells, if the whole input is one literal. -/
def decode? : Text → Option Text
  | '"' :: rest =>
    match scan rest with
    | some (text, []) => some text
    | _ => none
  | _ => none

theorem scan_encode (text rest : Text) :
    scan (text.flatMap escape ++ '"' :: rest) = some (text, rest) := by
  induction text with
  | nil => simp [scan]
  | cons c text ih =>
    by_cases hq : c = '"'
    · simp [escape, hq, scan, ih]
    by_cases hb : c = '\\'
    · simp [escape, hb, scan, ih]
    · simp [escape, hq, hb, scan, ih]

theorem decode?_encode (text : Text) : decode? (encode text) = some text := by
  simp [encode, decode?, scan_encode]

end EnumCodegen.StringLiteral
