import EnumCodegen.Proofs.Code.Lines
import Mathlib.Data.List.Forall2

/-! # Indentation

The unit stands before the lines of a tree and nowhere else, so the texts of one tree for
two units are the same but for the spaces and tabs at the start of their lines. A text that
goes over the end of a line is indented where it starts, and only there. -/

namespace EnumCodegen

/-! ## The start of a line -/

def isIndent (c : Char) : Bool := c = ' ' || c = '\t'

namespace Text

def unindented (text : Text) : Text := text.dropWhile isIndent

def firstLine (text : Text) : Text := text.takeWhile (· ≠ '\n')

/-- A text that starts with the sign of directives, spaces and tabs left aside. -/
def IsDirective (text : Text) : Prop := text.unindented.head? = some '#'

instance (text : Text) : Decidable text.IsDirective :=
  inferInstanceAs (Decidable (_ = some '#'))

theorem unindented_append_left {front : Text} (h : ∀ c ∈ front, isIndent c = true)
    (back : Text) : (front ++ back).unindented = back.unindented :=
  List.dropWhile_append_of_pos h

theorem unindented_append_of_ne_nil {front : Text} (h : front.unindented ≠ []) (back : Text) :
    (front ++ back).unindented = front.unindented ++ back := by
  unfold unindented at h ⊢
  rw [List.dropWhile_append, if_neg (by simpa using h)]

theorem unindented_append_of_eq_nil {front : Text} (h : front.unindented = []) (back : Text) :
    (front ++ back).unindented = back.unindented := by
  unfold unindented at h ⊢
  rw [List.dropWhile_append, h, List.isEmpty_nil, if_pos rfl]

theorem isDirective_append_of_ne_nil {front : Text} (h : front.unindented ≠ []) (back : Text) :
    (front ++ back).IsDirective ↔ front.IsDirective := by
  unfold IsDirective
  rw [unindented_append_of_ne_nil h, List.head?_append_of_ne_nil _ h]

theorem isDirective_append_of_eq_nil {front : Text} (h : front.unindented = []) (back : Text) :
    (front ++ back).IsDirective ↔ back.IsDirective := by
  unfold IsDirective
  rw [unindented_append_of_eq_nil h]

theorem unindented_firstLine (text : Text) :
    text.firstLine.unindented = text.unindented.firstLine := by
  induction text with
  | nil => rfl
  | cons c text ih =>
      unfold unindented firstLine at ih ⊢
      by_cases hc : isIndent c = true
      · have hline : c ≠ '\n' := by
          rintro rfl
          exact absurd hc (by decide)
        rw [List.takeWhile_cons_of_pos (by simpa using hline), List.dropWhile_cons_of_pos hc,
          List.dropWhile_cons_of_pos hc, ih]
      · rw [List.dropWhile_cons_of_neg hc]
        by_cases hline : c = '\n'
        · simp [hline]
        · rw [List.takeWhile_cons_of_pos (by simpa using hline), List.dropWhile_cons_of_neg hc]

theorem isDirective_firstLine_iff (text : Text) :
    text.firstLine.IsDirective ↔ text.IsDirective := by
  unfold IsDirective
  rw [unindented_firstLine, firstLine]
  cases text.unindented with
  | nil => rfl
  | cons c rest =>
      by_cases hc : c = '\n'
      · simp [hc]
      · simp [hc]

theorem firstLine_append_prefix (front back : Text) :
    front.firstLine <+: (front ++ back).firstLine := by
  unfold firstLine
  rw [List.takeWhile_append]
  split
  · exact (List.takeWhile_prefix _).trans (List.prefix_append _ _)
  · exact List.prefix_rfl

end Text

/-- The indentation of a line goes with the spaces and tabs that its text starts with. -/
theorem Line.unindented_indented {unit : Text} (hu : ∀ c ∈ unit, c = ' ' ∨ c = '\t') (l : Line) :
    Text.unindented (l.indented unit) = l.text.unindented := by
  apply Text.unindented_append_left
  intro c hc
  obtain ⟨_, hs, hc⟩ := List.mem_flatten.mp hc
  rw [List.eq_of_mem_replicate hs] at hc
  rcases hu c hc with rfl | rfl <;> rfl

/-! ## Lines cut at their line feeds -/

/-- The lines that a text goes over: the first is made in one way and the others in another. -/
def cutAs {α : Type} (first other : Text → α) (text : Text) : List α :=
  first text.firstLine :: (pieces '\n' text).tail.map other

theorem pieces_eq_firstLine_cons (text : Text) :
    pieces '\n' text = text.firstLine :: (pieces '\n' text).tail :=
  (List.cons_head?_tail (head?_pieces text)).symm

/-- The lines of a text that is laid out at a depth. What goes over the end of a line is not
indented. -/
def Line.cut (l : Line) : List Line := cutAs (⟨l.depth, ·⟩) (⟨0, ·⟩) l.text

theorem Line.pieces_indented {unit : Text} (hu : '\n' ∉ unit) (l : Line) :
    pieces '\n' (l.indented unit) = l.cut.map (Line.indented unit) := by
  have hfront : '\n' ∉ (List.replicate l.depth unit).flatten := by simp [hu]
  obtain ⟨first, rest, hpieces, hindented⟩ := pieces_append_left hfront l.text
  rw [pieces_eq_firstLine_cons] at hpieces
  obtain ⟨rfl, rfl⟩ := List.cons_eq_cons.mp hpieces
  rw [Line.indented, hindented, Line.cut, cutAs, List.map_cons, List.map_map]
  simp [Line.indented, Function.comp_def]

theorem pieces_flatMap_render_cut {unit : Text} (hu : '\n' ∉ unit) (lines : List Line) :
    pieces '\n' (lines.flatMap (Line.render unit)) =
      (lines.flatMap Line.cut).map (Line.indented unit) ++ [[]] := by
  have hrender : lines.flatMap (Line.render unit) =
      (lines.map (Line.indented unit)).flatMap (· ++ ['\n']) := by
    rw [List.flatMap_map]
    rfl
  rw [hrender, pieces_flatMap_append_separator, List.flatMap_map, List.map_flatMap]
  simp only [Line.pieces_indented hu]

/-! ## What is written without indentation -/

/-- A text as it is written, and whether it is written as it is, without indentation. -/
structure Written where
  verbatim : Bool
  text : Text
  deriving DecidableEq, Repr

/-- The lines of a text that is written. What goes over the end of a line stands as it is. -/
def Written.cut (w : Written) : List Written := cutAs (⟨w.verbatim, ·⟩) (⟨true, ·⟩) w.text

/-- A line has the text that is written, at no depth if it is written as it is. -/
def Written.On (l : Line) (w : Written) : Prop :=
  l.text = w.text ∧ (w.verbatim = true → l.depth = 0)

theorem Written.On.cut {l : Line} {w : Written} (h : On l w) : List.Forall₂ On l.cut w.cut := by
  obtain ⟨htext, hdepth⟩ := h
  unfold Line.cut Written.cut cutAs
  rw [htext]
  refine .cons ⟨rfl, hdepth⟩ ?_
  rw [List.forall₂_map_left_iff, List.forall₂_map_right_iff]
  exact List.forall₂_same.mpr fun text _ => ⟨rfl, fun _ => rfl⟩

namespace Code

/-- The texts of a tree with the way they are written. The directives of a condition are
written like verbatim texts. -/
def written : Code → List Written
  | .empty | .indent | .dedent => []
  | .line text => [⟨false, text⟩]
  | .verbatim text => [⟨true, text⟩]
  | .block header close body =>
    ⟨false, header⟩ :: ⟨false, "\x7b"⟩ :: (body.written ++ [⟨false, close⟩])
  | .conditional condition? body => wrapped (⟨true, ·⟩) condition? body.written
  | .seq first second => first.written ++ second.written

def writtenLines (code : Code) : List Written := code.written.flatMap Written.cut

theorem writtenLines_append (first second : Code) :
    (first ++ second).writtenLines = first.writtenLines ++ second.writtenLines :=
  List.flatMap_append

theorem written_on_layOut (code : Code) (n : Nat) :
    List.Forall₂ Written.On (code.layOut n).1 code.written := by
  induction code generalizing n with
  | empty | indent | dedent => exact .nil
  | line text => exact .cons ⟨rfl, nofun⟩ .nil
  | verbatim text => exact .cons ⟨rfl, fun _ => rfl⟩ .nil
  | block header close body ih =>
      refine .cons ⟨rfl, nofun⟩ (.cons ⟨rfl, nofun⟩ ?_)
      exact List.rel_append (ih (n + 1)) (.cons ⟨rfl, nofun⟩ .nil)
  | conditional condition? body ih =>
      simp only [layOut, written, wrapped]
      cases tested? condition? with
      | none => exact ih n
      | some c =>
          refine .cons ⟨rfl, fun _ => rfl⟩ ?_
          exact List.rel_append (ih n) (.cons ⟨rfl, fun _ => rfl⟩ .nil)
  | seq first second ih₁ ih₂ => exact List.rel_append (ih₁ n) (ih₂ _)

theorem exists_written_of_mem {code : Code} {n : Nat} {l : Line} (h : l ∈ code.linesAt n) :
    ∃ w ∈ code.written, Written.On l w := by
  have hon := written_on_layOut code n
  obtain ⟨i, hi, rfl⟩ := List.mem_iff_getElem.mp h
  have hi' := hon.length_eq ▸ hi
  exact ⟨_, List.getElem_mem hi', hon.get hi hi'⟩

/-- The lines of a tree are laid out as they are written. -/
theorem writtenLines_on_linesAt (code : Code) (n : Nat) :
    List.Forall₂ Written.On ((code.linesAt n).flatMap Line.cut) code.writtenLines :=
  List.rel_flatMap (written_on_layOut code n) fun _ _ h => h.cut

/-- A property of all texts of a tree that are written with indentation. -/
def EachRow (P : Text → Prop) (code : Code) : Prop :=
  ∀ w ∈ code.written, w.verbatim = false → P w.text

section EachRow

variable {P : Text → Prop} {first second body : Code}

@[simp] theorem eachRow_empty : EachRow P .empty := nofun

@[simp] theorem eachRow_indent : EachRow P .indent := nofun

@[simp] theorem eachRow_dedent : EachRow P .dedent := nofun

@[simp] theorem eachRow_line_iff (text : Text) : EachRow P (.line text) ↔ P text := by
  simp [EachRow, written]

@[simp] theorem eachRow_verbatim (text : Text) : EachRow P (.verbatim text) := by
  simp [EachRow, written]

@[simp] theorem eachRow_blank : EachRow P blank := eachRow_verbatim _

@[simp] theorem eachRow_block_iff (header close : Text) :
    EachRow P (.block header close body) ↔ P header ∧ P "\x7b" ∧ body.EachRow P ∧ P close := by
  simp [EachRow, written, or_imp, forall_and]

@[simp] theorem eachRow_braces_iff (header : Text) :
    (braces header body).EachRow P ↔ P header ∧ P "\x7b" ∧ body.EachRow P ∧ P "\x7d" :=
  eachRow_block_iff header _

@[simp] theorem eachRow_conditional_iff (condition? : Option Text) :
    EachRow P (.conditional condition? body) ↔ body.EachRow P := by
  simp only [EachRow, written, wrapped]
  cases tested? condition? with
  | none => rfl
  | some c => simp [or_imp, forall_and]

@[simp] theorem eachRow_append_iff :
    (first ++ second).EachRow P ↔ first.EachRow P ∧ second.EachRow P := by
  change (∀ w ∈ first.written ++ second.written, w.verbatim = false → P w.text) ↔ _
  simp only [List.mem_append, or_imp, forall_and]
  rfl

@[simp] theorem eachRow_all_iff {parts : List Code} :
    (all parts).EachRow P ↔ ∀ code ∈ parts, code.EachRow P := by
  induction parts with
  | nil => simp [all]
  | cons code parts ih =>
      rw [List.forall_mem_cons, ← ih]
      exact eachRow_append_iff

theorem EachRow.of_mem_writtenLines {code : Code} (h : code.EachRow P) {w : Written}
    (hw : w ∈ code.writtenLines) (hrow : w.verbatim = false) :
    ∃ row, P row ∧ w.text = row.firstLine := by
  obtain ⟨source, hsource, hcut⟩ := List.mem_flatMap.mp hw
  rcases List.mem_cons.mp hcut with rfl | hother
  · exact ⟨source.text, h source hsource hrow, rfl⟩
  · obtain ⟨_, _, rfl⟩ := List.mem_map.mp hother
    cases hrow

end EachRow

end Code

/-! ## Two units -/

/-- Two texts that have the same lines but for the spaces and tabs at the start of some. The
lines written as they are stand in both, and so does every directive, save one that may be
indented where it stands. -/
structure SameButIndentation (written : List Written) (indented : Nat → Text → Prop)
    (text text' : Text) : Prop where
  /-- Nothing follows the last line feed. -/
  ended : pieces '\n' text = Text.lines text ++ [[]] ∧ pieces '\n' text' = Text.lines text' ++ [[]]
  length_eq : (Text.lines text).length = written.length ∧
    (Text.lines text').length = written.length
  unindented_eq : (Text.lines text).map Text.unindented = (Text.lines text').map Text.unindented
  verbatim_eq : ∀ (i : Nat) (w : Written), written[i]? = some w → w.verbatim = true →
    (Text.lines text)[i]? = some w.text ∧ (Text.lines text')[i]? = some w.text
  directive_eq : ∀ (i : Nat) (line : Text), (Text.lines text)[i]? = some line → line.IsDirective →
    (Text.lines text')[i]? = some line ∨ indented i line.unindented

theorem newline_not_mem_unit {unit : Text} (hu : ∀ c ∈ unit, c = ' ' ∨ c = '\t') : '\n' ∉ unit :=
  fun h => absurd (hu _ h) (by decide)

theorem Written.On.indented_eq {unit : Text} {l : Line} {w : Written} (h : On l w)
    (hverbatim : w.verbatim = true) : l.indented unit = w.text := by
  simp [Line.indented, h.2 hverbatim, h.1]

namespace Code

section Units

variable {code : Code} {unit unit' : Text}

/-- A tree is read back line by line, whatever goes over the end of a line. -/
theorem pieces_render (hu : '\n' ∉ unit) :
    pieces '\n' (code.render unit) =
      ((code.linesAt 0).flatMap Line.cut).map (Line.indented unit) ++ [[]] := by
  rw [render_eq, pieces_flatMap_render_cut hu]

theorem lines_render_cut (hu : '\n' ∉ unit) :
    Text.lines (code.render unit) =
      ((code.linesAt 0).flatMap Line.cut).map (Line.indented unit) := by
  rw [Text.lines, pieces_render hu, List.dropLast_concat]

theorem length_lines_render (hu : '\n' ∉ unit) :
    (Text.lines (code.render unit)).length = code.writtenLines.length := by
  rw [lines_render_cut hu, List.length_map]
  exact (writtenLines_on_linesAt code 0).length_eq

theorem map_unindented_lines_render (hu : ∀ c ∈ unit, c = ' ' ∨ c = '\t') :
    (Text.lines (code.render unit)).map Text.unindented =
      code.writtenLines.map (·.text.unindented) := by
  rw [lines_render_cut (newline_not_mem_unit hu), List.map_map, ← List.forall₂_eq_eq_eq,
    List.forall₂_map_left_iff, List.forall₂_map_right_iff]
  refine (writtenLines_on_linesAt code 0).imp fun l w h => ?_
  rw [Function.comp_apply, l.unindented_indented hu, h.1]

theorem getElem?_lines_of_verbatim (hu : '\n' ∉ unit) {i : Nat} {w : Written}
    (hw : code.writtenLines[i]? = some w) (hverbatim : w.verbatim = true) :
    (Text.lines (code.render unit))[i]? = some w.text := by
  obtain ⟨hi, rfl⟩ := List.getElem?_eq_some_iff.mp hw
  have hon := writtenLines_on_linesAt code 0
  have hline := hon.get (hon.length_eq ▸ hi) hi
  rw [lines_render_cut hu, List.getElem?_map, List.getElem?_eq_getElem (hon.length_eq ▸ hi),
    Option.map_some]
  exact congrArg some (hline.indented_eq hverbatim)

/-- The texts of a tree for two units differ in indentation alone. -/
theorem sameButIndentation {indented : Nat → Text → Prop}
    (hu : ∀ c ∈ unit, c = ' ' ∨ c = '\t') (hu' : ∀ c ∈ unit', c = ' ' ∨ c = '\t')
    (hrows : ∀ i w, code.writtenLines[i]? = some w → w.verbatim = false → w.text.IsDirective →
      indented i w.text.unindented) :
    SameButIndentation code.writtenLines indented (code.render unit) (code.render unit') := by
  have hn := newline_not_mem_unit hu
  have hn' := newline_not_mem_unit hu'
  have hunindented : (Text.lines (code.render unit)).map Text.unindented = _ :=
    map_unindented_lines_render hu
  refine ⟨?_, ⟨length_lines_render hn, length_lines_render hn'⟩, ?_, ?_, ?_⟩
  · rw [pieces_render hn, pieces_render hn', lines_render_cut hn, lines_render_cut hn']
    exact ⟨rfl, rfl⟩
  · exact hunindented.trans (map_unindented_lines_render hu').symm
  · exact fun i w hw hverbatim =>
      ⟨getElem?_lines_of_verbatim hn hw hverbatim, getElem?_lines_of_verbatim hn' hw hverbatim⟩
  · intro i line hline hdirective
    have hi := congrArg (·[i]?) hunindented
    simp only [List.getElem?_map, hline, Option.map_some] at hi
    obtain ⟨w, hw, hstart⟩ := Option.map_eq_some_iff.mp hi.symm
    cases hverbatim : w.verbatim with
    | true =>
        refine .inl ?_
        rw [← hline, getElem?_lines_of_verbatim hn hw hverbatim,
          getElem?_lines_of_verbatim hn' hw hverbatim]
    | false =>
        refine .inr ?_
        rw [← hstart]
        apply hrows i w hw hverbatim
        rwa [Text.IsDirective, hstart]

end Units

end Code

end EnumCodegen
