import EnumCodegen.Proofs.Code.Blocks

/-! # Definitions in the lines of source text

A header defines something where a brace follows it. Definitions are counted in the lines
alone, and for a tree they are the blocks that it has. -/

namespace EnumCodegen

/-- How often a header stands before the brace of a block. -/
def timesDefined (header : Text) : List Text → Nat
  | [] => 0
  | l :: rest =>
    (if l = header ∧ rest.head? = some ("\x7b" : Text) then 1 else 0) + timesDefined header rest

section Counts

variable {header : Text} {lines rest : List Text}

theorem timesDefined_cons (l : Text) (h : rest.head? ≠ some ("\x7b" : Text)) :
    timesDefined header (l :: rest) = timesDefined header rest := by
  rw [timesDefined, if_neg (fun hl => h hl.2), Nat.zero_add]

theorem timesDefined_append (h : rest.head? ≠ some ("\x7b" : Text)) :
    timesDefined header (lines ++ rest) = timesDefined header lines + timesDefined header rest := by
  induction lines with
  | nil => simp [timesDefined]
  | cons l lines ih =>
      rw [List.cons_append, timesDefined, timesDefined, ih, Nat.add_assoc]
      cases lines with
      | nil => simp [h]
      | cons next lines => rfl

theorem head?_append_ne {x : Text} (h : lines.head? ≠ some x) (h' : rest.head? ≠ some x) :
    (lines ++ rest).head? ≠ some x := by
  cases lines with
  | nil => exact h'
  | cons l lines => exact h

theorem timesDefined_wrapped (h : lines.head? ≠ some ("\x7b" : Text)) (condition? : Option Text) :
    timesDefined header (Code.wrapped id condition? lines) = timesDefined header lines := by
  unfold Code.wrapped
  split
  · rfl
  · rename_i c _
    have hlast : [Code.endLine c].head? ≠ some ("\x7b" : Text) := by
      simpa using Code.endLine_ne_brace c
    rw [id, id, timesDefined_cons _ (head?_append_ne h hlast), timesDefined_append hlast,
      timesDefined_cons _ (by simp)]
    rfl

theorem head?_wrapped_ne (h : lines.head? ≠ some ("\x7b" : Text)) (condition? : Option Text) :
    (Code.wrapped id condition? lines).head? ≠ some ("\x7b" : Text) := by
  unfold Code.wrapped
  split
  · exact h
  · rename_i c _
    simpa using Code.ifLine_ne_brace c

end Counts

namespace Code

section Trees

variable {unit header : Text}

theorem head?_indentedAt_ne (hu : '\x7b' ∉ unit) {code : Code} (hsteady : code.Steady)
    (hopens : code.Opens) (n : Nat) : (code.indentedAt unit n).head? ≠ some ("\x7b" : Text) := by
  induction code generalizing n with
  | empty => simp [indentedAt]
  | indent | dedent => exact hsteady.elim
  | line text | verbatim text =>
      exact fun he => indented_ne_brace hu _ hopens (Option.some.inj he)
  | block title ending body ih =>
      have hinside : body.Steady := hsteady
      rw [hinside.indentedAt_block]
      exact fun he => indented_ne_brace hu n hopens.1 (Option.some.inj he)
  | conditional condition? body ih =>
      rw [indentedAt_conditional]
      exact head?_wrapped_ne (ih hsteady hopens n) condition?
  | seq first second ih₁ ih₂ =>
      change (indentedAt unit n (first ++ second)).head? ≠ _
      rw [hsteady.1.indentedAt_append]
      exact head?_append_ne (ih₁ hsteady.1 hopens.1 n) (ih₂ hsteady.2 hopens.2 n)

/-- What a tree defines are its blocks. -/
theorem timesDefined_indentedAt (hu : '\x7b' ∉ unit) {code : Code} (hsteady : code.Steady)
    (hopens : code.Opens) (n : Nat) :
    timesDefined header (code.indentedAt unit n) = (code.blocksAt unit header n).length := by
  induction code generalizing n with
  | empty => rfl
  | indent | dedent => exact hsteady.elim
  | line text | verbatim text => exact timesDefined_cons _ (by simp)
  | block title ending body ih =>
      obtain ⟨htitle, hending, hbody⟩ := hopens
      have hinside : body.Steady := hsteady
      have hend := indented_ne_brace hu n hending
      have hlast : [Line.indented unit ⟨n, ending⟩].head? ≠ some ("\x7b" : Text) := by
        simpa using hend
      have hhead := head?_append_ne (head?_indentedAt_ne hu hinside hbody (n + 1)) hlast
      have hrows : timesDefined header
          (body.indentedAt unit (n + 1) ++ [Line.indented unit ⟨n, ending⟩]) =
            (body.blocksAt unit header (n + 1)).length := by
        rw [timesDefined_append hlast, ih hinside hbody, timesDefined_cons _ (by simp)]
        rfl
      rw [hinside.indentedAt_block, timesDefined, timesDefined_cons _ hhead, hrows, blocksAt_block]
      by_cases hpad : (List.replicate n unit).flatten = []
      · simp only [Line.indented, hpad, List.nil_append, List.head?_cons, and_true]
        split <;> simp [Nat.add_comm]
      · have hbrace : Line.indented unit ⟨n, "\x7b"⟩ ≠ "\x7b" := mt indented_brace_eq_iff.mp hpad
        simp [hbrace, hpad]
  | conditional condition? body ih =>
      have hinside : body.Steady := hsteady
      have hbody : body.Opens := hopens
      have hhead := head?_indentedAt_ne hu hinside hbody n
      rw [indentedAt_conditional, timesDefined_wrapped hhead, ih hinside hbody]
      rfl
  | seq first second ih₁ ih₂ =>
      change timesDefined _ ((first ++ second).indentedAt unit n) = _
      have hhead := head?_indentedAt_ne hu hsteady.2 hopens.2 n
      rw [hsteady.1.indentedAt_append, timesDefined_append hhead, ih₁ hsteady.1 hopens.1,
        ih₂ hsteady.2 hopens.2]
      exact (List.length_append).symm

end Trees

end Code

end EnumCodegen
