import EnumCodegen.Code.Basic

/-! Writing source text step by step into a buffer.
A writer that runs a tree appends exactly the text that the tree is laid out to. -/

namespace EnumCodegen

structure Writer where
  buffer : Text := []
  level : Nat := 0
  unit : Text
  deriving DecidableEq, Repr

namespace Writer

def verbatim (w : Writer) (text : Text) : Writer :=
  { w with buffer := w.buffer ++ text ++ ['\n'] }

def line (w : Writer) (text : Text) : Writer :=
  w.verbatim ((List.replicate w.level w.unit).flatten ++ text)

def indent (w : Writer) : Writer := { w with level := w.level + 1 }

def dedent (w : Writer) : Writer := { w with level := w.level - 1 }

def run : Writer → Code → Writer
  | w, .empty => w
  | w, .line text => w.line text
  | w, .verbatim text => w.verbatim text
  | w, .indent => w.indent
  | w, .dedent => w.dedent
  | w, .block header close body =>
    ((((w.line header).line "\x7b").indent.run body).dedent).line close
  | w, .conditional condition? body =>
    match Code.tested? condition? with
    | none => w.run body
    | some c => ((w.verbatim (Code.ifLine c)).run body).verbatim (Code.endLine c)
  | w, .seq first second => (w.run first).run second

theorem run_eq (w : Writer) (code : Code) :
    w.run code =
      { w with
        buffer := w.buffer ++ (code.layOut w.level).1.flatMap (Line.render w.unit)
        level := (code.layOut w.level).2 } := by
  induction code generalizing w with
  | empty => simp [run, Code.layOut]
  | line text => simp [run, Code.layOut, line, verbatim, Line.render]
  | verbatim text => simp [run, Code.layOut, verbatim, Line.render]
  | indent => simp [run, Code.layOut, indent]
  | dedent => simp [run, Code.layOut, dedent]
  | block header close body ih =>
    simp [run, Code.layOut, ih, line, verbatim, indent, dedent, Line.render]
  | conditional condition? body ih =>
    simp only [run, Code.layOut]
    cases Code.tested? condition? <;> simp [ih, verbatim, Line.render]
  | seq first second ih₁ ih₂ => simp [run, Code.layOut, ih₁, ih₂]

/-- Runs trees in order and gives the text that each of them appends. It does not depend
on what was written before, so every tree starts with an empty buffer. -/
def appended (w : Writer) : List Code → List Text
  | [] => []
  | code :: rest =>
    let after := { w with buffer := [] }.run code
    after.buffer :: after.appended rest

end Writer

theorem Code.render_eq_buffer (unit : Text) (code : Code) :
    code.render unit = (Writer.run { unit := unit } code).buffer := by
  simp [Writer.run_eq, Code.render, Code.lines]

end EnumCodegen
