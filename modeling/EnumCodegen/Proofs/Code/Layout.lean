import EnumCodegen.Code.Basic

/-! # Trees that end at the depth they start at

Such a tree leaves no trace in what follows it, so a sequence of them is laid out piece
by piece, and each piece has its own part of the text. -/

namespace EnumCodegen.Code

theorem layOut_seq (first second : Code) (n : Nat) :
    (first ++ second).layOut n =
      ((first.layOut n).1 ++ (second.layOut (first.layOut n).2).1,
        (second.layOut (first.layOut n).2).2) := rfl

/-! ## Depth -/

/-- A tree that ends at the depth it starts at. -/
def Balanced (code : Code) : Prop := ∀ n, (code.layOut n).2 = n

/-- A tree whose depth is changed by its blocks alone. -/
def Steady : Code → Prop
  | .empty | .line _ | .verbatim _ => True
  | .indent | .dedent => False
  | .block _ _ body | .conditional _ body => body.Steady
  | .seq first second => first.Steady ∧ second.Steady

section Steady

variable {first second : Code}

@[simp] theorem steady_empty : Steady .empty := trivial

@[simp] theorem steady_line (text : Text) : Steady (.line text) := trivial

@[simp] theorem steady_verbatim (text : Text) : Steady (.verbatim text) := trivial

@[simp] theorem steady_blank : Steady blank := trivial

@[simp] theorem steady_block_iff (header close : Text) (body : Code) :
    Steady (.block header close body) ↔ body.Steady := .rfl

@[simp] theorem steady_braces_iff (header : Text) (body : Code) :
    (braces header body).Steady ↔ body.Steady := .rfl

@[simp] theorem steady_conditional_iff (condition? : Option Text) (body : Code) :
    Steady (.conditional condition? body) ↔ body.Steady := .rfl

@[simp] theorem steady_append_iff : (first ++ second).Steady ↔ first.Steady ∧ second.Steady := .rfl

@[simp] theorem steady_all_iff {parts : List Code} :
    (all parts).Steady ↔ ∀ code ∈ parts, code.Steady := by
  induction parts with
  | nil => simp [all]
  | cons code parts ih =>
      rw [List.forall_mem_cons, ← ih]
      rfl

theorem Steady.balanced {code : Code} (h : code.Steady) : code.Balanced := by
  intro n
  induction code generalizing n with
  | empty | line | verbatim => rfl
  | indent | dedent => exact h.elim
  | block header close body ih => simp [layOut, ih h]
  | conditional condition? body ih =>
      simp only [layOut]
      cases tested? condition? with
      | none => exact ih h n
      | some c => exact ih h n
  | seq first second ih₁ ih₂ => simp [layOut, ih₁ h.1, ih₂ h.2]

end Steady

theorem Balanced.append {first second : Code} (h : first.Balanced) (h' : second.Balanced) :
    (first ++ second).Balanced := by
  intro n
  rw [layOut_seq]
  exact (h' _).trans (h n)

theorem Balanced.conditional {body : Code} (h : body.Balanced) (condition? : Option Text) :
    Balanced (.conditional condition? body) := by
  intro n
  simp only [layOut]
  cases tested? condition? with
  | none => exact h n
  | some c => exact h n

/-! ## Lines -/

def linesAt (n : Nat) (code : Code) : List Line := (code.layOut n).1

/-- Lines between the directives of a condition, if it tests a macro. -/
def wrapped {α : Type} (directive : Text → α) (condition? : Option Text) (lines : List α) :
    List α :=
  match tested? condition? with
  | none => lines
  | some c => directive (ifLine c) :: (lines ++ [directive (endLine c)])

theorem map_wrapped {α β : Type} (f : α → β) (directive : Text → α) (condition? : Option Text)
    (lines : List α) :
    (wrapped directive condition? lines).map f =
      wrapped (fun text => f (directive text)) condition? (lines.map f) := by
  unfold wrapped
  split <;> simp

section Lines

variable {first second body : Code} {n : Nat}

@[simp] theorem linesAt_empty : linesAt n .empty = [] := rfl

@[simp] theorem linesAt_line (text : Text) : linesAt n (.line text) = [⟨n, text⟩] := rfl

@[simp] theorem linesAt_verbatim (text : Text) : linesAt n (.verbatim text) = [⟨0, text⟩] := rfl

@[simp] theorem linesAt_blank : linesAt n blank = [⟨0, []⟩] := rfl

theorem linesAt_append (h : first.Balanced) :
    linesAt n (first ++ second) = linesAt n first ++ linesAt n second := by
  rw [linesAt, layOut_seq, h n]
  rfl

@[simp] theorem Steady.linesAt_append (h : first.Steady) :
    linesAt n (first ++ second) = linesAt n first ++ linesAt n second :=
  Code.linesAt_append h.balanced

@[simp] theorem linesAt_block (header close : Text) (h : body.Steady) :
    linesAt n (.block header close body) =
      ⟨n, header⟩ :: ⟨n, "\x7b"⟩ :: (linesAt (n + 1) body ++ [⟨n, close⟩]) := by
  simp [linesAt, layOut, h.balanced (n + 1)]

@[simp] theorem linesAt_braces (header : Text) (h : body.Steady) :
    linesAt n (braces header body) =
      ⟨n, header⟩ :: ⟨n, "\x7b"⟩ :: (linesAt (n + 1) body ++ [⟨n, "\x7d"⟩]) :=
  linesAt_block header _ h

@[simp] theorem linesAt_conditional (condition? : Option Text) :
    linesAt n (.conditional condition? body) =
      wrapped (⟨0, ·⟩) condition? (linesAt n body) := by
  simp only [linesAt, layOut, wrapped]
  cases tested? condition? with
  | none => rfl
  | some c => rfl

theorem linesAt_all_map {α : Type} {piece : α → Code} (h : ∀ item, (piece item).Steady)
    (items : List α) :
    linesAt n (all (items.map piece)) = items.flatMap fun item => linesAt n (piece item) := by
  induction items with
  | nil => rfl
  | cons item items ih =>
      rw [List.flatMap_cons, ← ih]
      exact (h item).linesAt_append

@[simp] theorem linesAt_all_map_line {α : Type} (items : List α) (text : α → Text) :
    linesAt n (all (items.map fun item => .line (text item))) =
      items.map fun item => ⟨n, text item⟩ := by
  rw [linesAt_all_map fun item => steady_line _, List.map_eq_flatMap]
  rfl

end Lines

/-! ## Text -/

section Render

variable {first : Code} (second : Code) (unit : Text)

theorem render_eq (code : Code) : code.render unit = (linesAt 0 code).flatMap (Line.render unit) :=
  rfl

theorem render_append (h : first.Balanced) :
    (first ++ second).render unit = first.render unit ++ second.render unit := by
  rw [render_eq, linesAt_append h, List.flatMap_append]
  rfl

theorem render_all_map {α : Type} {piece : α → Code} (h : ∀ item, (piece item).Steady)
    (items : List α) :
    (all (items.map piece)).render unit =
      (items.map fun item => (piece item).render unit).flatten := by
  rw [render_eq, linesAt_all_map h, List.flatMap_assoc, List.flatMap_def]
  rfl

end Render

end EnumCodegen.Code
