import EnumCodegen.Proofs.Code.Layout
import EnumCodegen.Proofs.Text.LineFeed
import Mathlib.Data.List.Basic

/-! # Source text line by line

A tree whose texts have no line feed is read back as its lines, whatever the indentation
unit. -/

namespace EnumCodegen

/-- The lines of a text whose last line has its line feed. -/
def Text.lines (text : Text) : List Text := (pieces '\n' text).dropLast

def Line.indented (unit : Text) (l : Line) : Text := (List.replicate l.depth unit).flatten ++ l.text

@[simp] theorem Line.indented_zero (unit text : Text) : Line.indented unit ⟨0, text⟩ = text := rfl

@[simp] theorem Line.indented_one (unit text : Text) :
    Line.indented unit ⟨1, text⟩ = unit ++ text := by
  simp [Line.indented]

theorem Line.newline_not_mem_indented {unit : Text} {l : Line} (hu : '\n' ∉ unit)
    (hl : '\n' ∉ l.text) : '\n' ∉ l.indented unit := by
  simp [Line.indented, hu, hl]

theorem pieces_flatMap_render {unit : Text} {lines : List Line}
    (h : ∀ l ∈ lines, '\n' ∉ l.indented unit) :
    pieces '\n' (lines.flatMap (Line.render unit)) = lines.map (Line.indented unit) ++ [[]] := by
  rw [← pieces_flatMap_ended (List.forall_mem_map.mpr h), List.flatMap_map]
  rfl

namespace Code

/-! ## The texts of a tree -/

/-- The texts of the lines of a tree. They are the same at every depth. -/
def texts : Code → List Text
  | .empty | .indent | .dedent => []
  | .line text | .verbatim text => [text]
  | .block header close body => header :: "\x7b" :: (body.texts ++ [close])
  | .conditional condition? body => wrapped id condition? body.texts
  | .seq first second => first.texts ++ second.texts

theorem map_text_layOut (code : Code) (n : Nat) :
    (code.layOut n).1.map Line.text = code.texts := by
  induction code generalizing n with
  | empty | line | verbatim | indent | dedent => rfl
  | block header close body ih => simp [layOut, texts, ih]
  | conditional condition? body ih =>
      simp only [layOut, texts, wrapped]
      cases tested? condition? <;> simp [ih]
  | seq first second ih₁ ih₂ => simp [layOut, texts, ih₁, ih₂]

def Each (P : Text → Prop) (code : Code) : Prop := ∀ text ∈ code.texts, P text

section Each

variable {P : Text → Prop} {first second body : Code}

@[simp] theorem each_empty : Each P .empty := List.forall_mem_nil _

@[simp] theorem each_indent : Each P .indent := List.forall_mem_nil _

@[simp] theorem each_dedent : Each P .dedent := List.forall_mem_nil _

@[simp] theorem each_line_iff (text : Text) : Each P (.line text) ↔ P text :=
  List.forall_mem_singleton

@[simp] theorem each_verbatim_iff (text : Text) : Each P (.verbatim text) ↔ P text :=
  List.forall_mem_singleton

@[simp] theorem each_blank_iff : Each P blank ↔ P [] := List.forall_mem_singleton

@[simp] theorem each_block_iff (header close : Text) :
    Each P (.block header close body) ↔ P header ∧ P "\x7b" ∧ body.Each P ∧ P close := by
  simp [Each, texts, or_imp, forall_and]

@[simp] theorem each_braces_iff (header : Text) :
    (braces header body).Each P ↔ P header ∧ P "\x7b" ∧ body.Each P ∧ P "\x7d" :=
  each_block_iff header _

@[simp] theorem each_append_iff : (first ++ second).Each P ↔ first.Each P ∧ second.Each P := by
  change (∀ text ∈ first.texts ++ second.texts, P text) ↔ _
  simp only [List.mem_append, or_imp, forall_and]
  rfl

@[simp] theorem each_conditional_iff (condition? : Option Text) :
    Each P (.conditional condition? body) ↔
      (∀ c ∈ tested? condition?, P (ifLine c) ∧ P (endLine c)) ∧ body.Each P := by
  unfold Each
  rw [texts, wrapped]
  cases tested? condition? with
  | none => simp
  | some c => simp [or_imp, forall_and]; tauto

@[simp] theorem each_all_iff {parts : List Code} :
    (all parts).Each P ↔ ∀ code ∈ parts, code.Each P := by
  induction parts with
  | nil => simp [all]
  | cons code parts ih =>
      rw [List.forall_mem_cons, ← ih]
      exact each_append_iff

end Each

/-! ## Reading the lines back -/

def indentedAt (unit : Text) (n : Nat) (code : Code) : List Text :=
  (code.linesAt n).map (Line.indented unit)

section Indented

variable (unit : Text) (n : Nat) {first second body : Code}

theorem Balanced.indentedAt_append (h : first.Balanced) :
    (first ++ second).indentedAt unit n = first.indentedAt unit n ++ second.indentedAt unit n := by
  simp [indentedAt, linesAt_append h]

theorem Steady.indentedAt_append (h : first.Steady) :
    (first ++ second).indentedAt unit n = first.indentedAt unit n ++ second.indentedAt unit n :=
  h.balanced.indentedAt_append unit n

theorem Steady.indentedAt_block (h : body.Steady) (header close : Text) :
    indentedAt unit n (.block header close body) =
      Line.indented unit ⟨n, header⟩ :: Line.indented unit ⟨n, "\x7b"⟩ ::
        (body.indentedAt unit (n + 1) ++ [Line.indented unit ⟨n, close⟩]) := by
  simp [indentedAt, h]

@[simp] theorem indentedAt_line (text : Text) :
    indentedAt unit n (.line text) = [Line.indented unit ⟨n, text⟩] := rfl

@[simp] theorem indentedAt_verbatim (text : Text) :
    indentedAt unit n (.verbatim text) = [text] := rfl

@[simp] theorem indentedAt_blank : indentedAt unit n blank = [[]] := rfl

@[simp] theorem indentedAt_all_map_line {α : Type} (items : List α) (text : α → Text) :
    indentedAt unit n (all (items.map fun item => .line (text item))) =
      items.map fun item => Line.indented unit ⟨n, text item⟩ := by
  simp [indentedAt, Function.comp_def]

theorem indentedAt_all_map {α : Type} {piece : α → Code} (h : ∀ item, (piece item).Steady)
    (items : List α) :
    indentedAt unit n (all (items.map piece)) =
      items.flatMap fun item => (piece item).indentedAt unit n := by
  rw [indentedAt, linesAt_all_map h, List.map_flatMap]
  rfl

@[simp] theorem indentedAt_all_verbatim (lines : List Text) :
    indentedAt unit n (all (lines.map .verbatim)) = lines := by
  rw [indentedAt_all_map unit n steady_verbatim]
  exact List.flatMap_singleton' lines

theorem indentedAt_conditional (condition? : Option Text) :
    indentedAt unit n (.conditional condition? body) =
      wrapped id condition? (body.indentedAt unit n) := by
  rw [indentedAt, linesAt_conditional, map_wrapped]
  rfl

end Indented

theorem exists_of_mem_indentedAt {unit line : Text} {n : Nat} {code : Code}
    (h : line ∈ code.indentedAt unit n) :
    ∃ depth, ∃ text ∈ code.texts, line = Line.indented unit ⟨depth, text⟩ := by
  obtain ⟨l, hl, rfl⟩ := List.mem_map.mp h
  rw [← map_text_layOut code n]
  exact ⟨l.depth, l.text, List.mem_map_of_mem hl, rfl⟩

theorem mem_wrapped {line : Text} {condition? : Option Text} {lines : List Text}
    (h : line ∈ wrapped id condition? lines) :
    line ∈ lines ∨ ∃ c, line = ifLine c ∨ line = endLine c := by
  unfold wrapped at h
  split at h
  · exact .inl h
  · rename_i c _
    simp only [id_eq, List.mem_cons, List.mem_append, List.not_mem_nil, or_false] at h
    rcases h with h | h | h
    · exact .inr ⟨c, .inl h⟩
    · exact .inl h
    · exact .inr ⟨c, .inr h⟩

/-- The text of a tree without line feeds in it is read back line by line. -/
theorem lines_render {unit : Text} {code : Code} (hu : '\n' ∉ unit)
    (h : code.Each ('\n' ∉ ·)) : Text.lines (code.render unit) = code.indentedAt unit 0 := by
  have hlines : ∀ l ∈ code.linesAt 0, '\n' ∉ l.indented unit := by
    intro l hl
    obtain ⟨_, text, ht, he⟩ := exists_of_mem_indentedAt (List.mem_map_of_mem hl)
    rw [he]
    exact Line.newline_not_mem_indented hu (h text ht)
  rw [Text.lines, render_eq, pieces_flatMap_render hlines, List.dropLast_concat]
  rfl

end Code

end EnumCodegen
