import EnumCodegen.Text.Blank

/-! Reading a description line by line.
Every line is silent, opens a section, sets a key or is reported as malformed;
what it is depends on that line alone. -/

namespace EnumCodegen

/-- One key set to a value, with the section and the line it was read in. The
section is empty before the first header. -/
structure Triple where
  sectionName : Text
  key : Text
  value : Text
  line : Nat
  deriving DecidableEq, Repr

/-- A malformed line, by its number. -/
inductive Diagnostic where
  | unclosedHeader (line : Nat)
  | missingSeparator (line : Nat)
  deriving DecidableEq, Repr

namespace Diagnostic

def line : Diagnostic → Nat
  | .unclosedHeader n | .missingSeparator n => n

def message : Diagnostic → Text
  | .unclosedHeader n => "line " ++ .ofNat n ++ ": section header is missing its closing `]`"
  | .missingSeparator n => "line " ++ .ofNat n ++ ": expected `key=value` or `key: value`"

def code : Diagnostic → Text
  | .unclosedHeader _ => "enumg::syntax::unclosed_section"
  | .missingSeparator _ => "enumg::syntax::missing_separator"

def help? : Diagnostic → Option Text
  | .unclosedHeader _ => some "write section headers as `[Name]`"
  | .missingSeparator _ => none

end Diagnostic

inductive LineForm where
  | silent
  | header (name : Text)
  | unclosedHeader
  | assignment (key value : Text)
  | missingSeparator
  deriving DecidableEq, Repr

/-- The text before a comment: a `;` that directly follows a blank starts one.
`afterBlank` tells whether the character before the text is a blank. -/
def uncommented (afterBlank : Bool) : Text → Text
  | [] => []
  | c :: rest =>
    if c = ';' ∧ afterBlank then [] else c :: uncommented (isBlank c) rest

def isSeparator (c : Char) : Bool := c = '=' ∨ c = ':'

namespace LineForm

/-- The form of a line that has no blanks at its ends. -/
def ofTrimmed : Text → LineForm
  | [] => .silent
  | c :: rest =>
    if c = ';' ∨ c = '#' then .silent
    else if c = '[' then
      match Text.cut? (· = ']') rest with
      | none => .unclosedHeader
      | some (name, _) => .header name.trim
    else
      match Text.cut? isSeparator (c :: rest) with
      | none => .missingSeparator
      | some (key, value) => .assignment key.trim (uncommented false value.trimStart).trimEnd

def ofLine (line : Text) : LineForm := ofTrimmed line.trim

end LineForm

/-- What reading a description yields: its settings and its malformed lines, each
in line order. -/
structure Reading where
  triples : List Triple
  diagnostics : List Diagnostic
  deriving DecidableEq, Repr

namespace Reading

/-- Reads lines from number `n` on, in the given section. -/
def ofLines (sectionName : Text) (n : Nat) : List Text → Reading
  | [] => ⟨[], []⟩
  | line :: rest =>
    match LineForm.ofLine line with
    | .silent => ofLines sectionName (n + 1) rest
    | .header name => ofLines name (n + 1) rest
    | .unclosedHeader =>
      let r := ofLines sectionName (n + 1) rest
      ⟨r.triples, .unclosedHeader n :: r.diagnostics⟩
    | .missingSeparator =>
      let r := ofLines sectionName (n + 1) rest
      ⟨r.triples, .missingSeparator n :: r.diagnostics⟩
    | .assignment key value =>
      let r := ofLines sectionName (n + 1) rest
      ⟨⟨sectionName, key, value, n⟩ :: r.triples, r.diagnostics⟩

def withoutMark : Text → Text
  | '\uFEFF' :: rest => rest
  | text => text

/-- Reads a description. A carriage return before a line feed is a blank at the end
of its line, so both line ends read alike. -/
def ofText (text : Text) : Reading := ofLines [] 1 (pieces '\n' (withoutMark text))

end Reading

end EnumCodegen
