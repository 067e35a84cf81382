import EnumCodegen.Code.Writer
import Mathlib.Data.List.Infix
import Mathlib.Data.List.Induction

/-! # Writing by depth

A tree is written in steps: lines, changes of the indentation, and the start and the end of
the body of a block. Where indents are closed by dedents in every body, a line stands as
deep as there are blocks around it and indents open before it, and the tree leaves the
writer at the level it came with. -/

namespace EnumCodegen

/-! ## Steps -/

/-- One thing that a writer does for a tree. The steps between `enter` and `leave` are those
of the body of a block. -/
inductive Writer.Step where
  | line (text : Text)
  | verbatim (text : Text)
  | indent
  | dedent
  | enter
  | leave
  deriving DecidableEq, Repr

namespace Code

open Writer

def steps : Code → List Step
  | .empty => []
  | .line text => [.line text]
  | .verbatim text => [.verbatim text]
  | .indent => [.indent]
  | .dedent => [.dedent]
  | .block header close body =>
    [.line header, .line "\x7b", .enter] ++ body.steps ++ [.leave, .line close]
  | .conditional condition? body =>
    match tested? condition? with
    | none => body.steps
    | some c => [.verbatim (ifLine c)] ++ body.steps ++ [.verbatim (endLine c)]
  | .seq first second => first.steps ++ second.steps

/-- The parts that a tree is a sequence of. -/
def parts : Code → List Code
  | .empty => []
  | .seq first second => first.parts ++ second.parts
  | code => [code]

/-- The indents and dedents of a tree, those in the bodies of its parts left aside. -/
def moves : Code → List Step
  | .indent => [.indent]
  | .dedent => [.dedent]
  | .seq first second => first.moves ++ second.moves
  | .empty | .line _ | .verbatim _ | .block .. | .conditional .. => []

/-- The bodies of all blocks and conditions in a tree, however deep they are nested. -/
def bodies : Code → List Code
  | .block _ _ body | .conditional _ body => body :: body.bodies
  | .seq first second => first.bodies ++ second.bodies
  | .empty | .line _ | .verbatim _ | .indent | .dedent => []

end Code

namespace Writer

/-- No start of the moves has more dedents than indents, and all of them have as many. -/
def Restores (moves : List Step) : Prop :=
  (∀ front ∈ moves.inits, front.count .dedent ≤ front.count .indent) ∧
    moves.count .dedent = moves.count .indent

instance (moves : List Step) : Decidable (Restores moves) :=
  inferInstanceAs (Decidable (_ ∧ _))

end Writer

/-- In the tree as a whole and in every body in it, dedents close the indents of that body
and no others. -/
def Code.Matched (code : Code) : Prop :=
  ∀ part ∈ code :: code.bodies, Writer.Restores part.moves

instance (code : Code) : Decidable code.Matched :=
  inferInstanceAs (Decidable (∀ part ∈ code :: code.bodies, Writer.Restores part.moves))

namespace Writer

/-! ## Places -/

/-- Where a step stands: how many blocks are around it and how many indents are open. -/
structure Place where
  blocks : Nat := 0
  indents : Nat := 0
  deriving DecidableEq, Repr

namespace Place

/-- The place after a step. Only a block that was entered can be left, and only an indent that
is open can be closed. -/
def move? (p : Place) : Step → Option Place
  | .line _ | .verbatim _ => some p
  | .indent => some { p with indents := p.indents + 1 }
  | .enter => some { p with blocks := p.blocks + 1 }
  | .dedent => if 0 < p.indents then some { p with indents := p.indents - 1 } else none
  | .leave => if 0 < p.blocks then some { p with blocks := p.blocks - 1 } else none

def after? (p : Place) (steps : List Step) : Option Place := steps.foldlM move? p

section After

variable {p q : Place}

@[simp] theorem after?_nil : p.after? [] = some p := rfl

@[simp] theorem after?_cons (step : Step) (steps : List Step) :
    p.after? (step :: steps) = (p.move? step).bind (·.after? steps) := rfl

@[simp] theorem after?_append (front back : List Step) :
    p.after? (front ++ back) = (p.after? front).bind (·.after? back) := by
  unfold after?
  rw [List.foldlM_append]
  rfl

/-- The place tells how often blocks were entered and left, and indents opened and closed. -/
theorem counts_of_after? {steps : List Step} (h : p.after? steps = some q) :
    p.blocks + steps.count .enter = q.blocks + steps.count .leave ∧
      p.indents + steps.count .indent = q.indents + steps.count .dedent := by
  induction steps generalizing p with
  | nil =>
      cases h
      exact ⟨rfl, rfl⟩
  | cons step steps ih =>
      rw [after?_cons, Option.bind_eq_some_iff] at h
      obtain ⟨mid, hmid, hrest⟩ := h
      obtain ⟨hblocks, hindents⟩ := ih hrest
      cases step with
      | line text | verbatim text =>
          cases hmid
          simpa using ⟨hblocks, hindents⟩
      | indent | enter =>
          cases hmid
          simp at hblocks hindents ⊢
          omega
      | dedent | leave =>
          simp only [move?, Option.ite_none_right_eq_some, Option.some.injEq] at hmid
          obtain ⟨hpos, rfl⟩ := hmid
          simp at hblocks hindents ⊢
          omega

/-- Moves that restore the indentation do so wherever they start. -/
theorem after?_of_starts {moves : List Step} (hmoves : ∀ m ∈ moves, m = .indent ∨ m = .dedent)
    (h : ∀ front, front <+: moves → front.count .dedent ≤ front.count .indent) :
    p.after? moves =
      some { p with indents := p.indents + (moves.count .indent - moves.count .dedent) } := by
  induction moves using List.reverseRecOn with
  | nil => rfl
  | append_singleton moves m ih =>
      have hall := h _ List.prefix_rfl
      have hfront := h _ (List.prefix_append moves [m])
      rw [after?_append, ih (fun m' hm' => hmoves m' (List.mem_append_left _ hm'))
        (fun front hf => h front (hf.trans (List.prefix_append _ _)))]
      rcases hmoves m (List.mem_append_right _ List.mem_cons_self) with rfl | rfl
      · simp [move?]
        omega
      · simp at hall
        simp [move?]
        omega

theorem mem_moves {code : Code} {m : Step} (h : m ∈ code.moves) : m = .indent ∨ m = .dedent := by
  induction code with
  | indent => exact .inl (List.mem_singleton.mp h)
  | dedent => exact .inr (List.mem_singleton.mp h)
  | empty | line | verbatim | block | conditional => cases h
  | seq first second ih₁ ih₂ => exact (List.mem_append.mp h).elim ih₁ ih₂

theorem after?_of_restores {code : Code} (h : Restores code.moves) :
    p.after? code.moves = some p := by
  rw [after?_of_starts (fun m => mem_moves)
    fun front hf => h.1 front ((List.mem_inits front _).mpr hf), h.2, Nat.sub_self]
  rfl

/-- The steps of a tree go where its moves go: what happens in a body is undone in it. -/
theorem after?_steps {code : Code} (h : ∀ body ∈ code.bodies, Restores body.moves) :
    p.after? code.steps = p.after? code.moves := by
  induction code generalizing p with
  | empty | line | verbatim | indent | dedent => rfl
  | block header close body ih =>
      have hbody : ∀ p : Place, p.after? body.steps = some p := by
        intro p
        rw [ih fun inner hi => h inner (List.mem_cons_of_mem _ hi),
          after?_of_restores (h body List.mem_cons_self)]
      simp [Code.steps, Code.moves, move?, hbody]
  | conditional condition? body ih =>
      have hbody : ∀ p : Place, p.after? body.steps = some p := by
        intro p
        rw [ih fun inner hi => h inner (List.mem_cons_of_mem _ hi),
          after?_of_restores (h body List.mem_cons_self)]
      unfold Code.steps
      split
      · exact hbody p
      · simp [Code.moves, move?, hbody]
  | seq first second ih₁ ih₂ =>
      simp only [Code.steps, Code.moves, after?_append]
      rw [ih₁ fun body hb => h body (List.mem_append_left _ hb)]
      congr 1
      funext q
      exact ih₂ fun body hb => h body (List.mem_append_right _ hb)

/-- A matched tree ends where it starts. -/
theorem after?_of_matched {code : Code} (h : code.Matched) : p.after? code.steps = some p := by
  have hparts := List.forall_mem_cons.mp h
  rw [after?_steps hparts.2, after?_of_restores hparts.1]

end After

end Place

/-! ## The text of the steps -/

def Step.text (unit : Text) (depth : Nat) : Step → Text
  | .line text => (List.replicate depth unit).flatten ++ text ++ ['\n']
  | .verbatim text => text ++ ['\n']
  | .indent | .dedent | .enter | .leave => []

def perform (w : Writer) : Step → Writer
  | .line text => w.line text
  | .verbatim text => w.verbatim text
  | .indent | .enter => w.indent
  | .dedent | .leave => w.dedent

def texts : Writer → List Step → List Text
  | _, [] => []
  | w, step :: steps => step.text w.unit w.level :: (w.perform step).texts steps

section Perform

variable (w : Writer)

theorem run_eq_foldl (code : Code) : w.run code = code.steps.foldl perform w := by
  induction code generalizing w with
  | empty | line | verbatim | indent | dedent => rfl
  | block header close body ih =>
      simp only [run, Code.steps, List.foldl_append, ih]
      rfl
  | conditional condition? body ih =>
      simp only [run, Code.steps]
      cases Code.tested? condition? with
      | none => exact ih w
      | some c =>
          simp only [List.foldl_append, ih]
          rfl
  | seq first second ih₁ ih₂ => simp only [run, Code.steps, List.foldl_append, ih₁, ih₂]

theorem buffer_perform (step : Step) :
    (w.perform step).buffer = w.buffer ++ step.text w.unit w.level := by
  cases step <;> simp [perform, line, verbatim, indent, dedent, Step.text]

theorem unit_perform (step : Step) : (w.perform step).unit = w.unit := by
  cases step <;> rfl

theorem buffer_foldl (steps : List Step) :
    (steps.foldl perform w).buffer = w.buffer ++ (w.texts steps).flatten := by
  induction steps generalizing w with
  | nil => simp [texts]
  | cons step steps ih =>
      rw [List.foldl_cons, ih, buffer_perform, texts, List.flatten_cons, List.append_assoc]

theorem unit_foldl (steps : List Step) : (steps.foldl perform w).unit = w.unit := by
  induction steps generalizing w with
  | nil => rfl
  | cons step steps ih => rw [List.foldl_cons, ih, unit_perform]

theorem length_texts (steps : List Step) : (w.texts steps).length = steps.length := by
  induction steps generalizing w with
  | nil => rfl
  | cons step steps ih => rw [texts, List.length_cons, List.length_cons, ih]

theorem texts_append (front back : List Step) :
    w.texts (front ++ back) = w.texts front ++ (front.foldl perform w).texts back := by
  induction front generalizing w with
  | nil => rfl
  | cons step front ih => simp [texts, ih]

theorem level_foldl {steps : List Step} {p q : Place} {base : Nat}
    (h : p.after? steps = some q) (hlevel : w.level = base + p.blocks + p.indents) :
    (steps.foldl perform w).level = base + q.blocks + q.indents := by
  induction steps generalizing w p with
  | nil =>
      cases h
      exact hlevel
  | cons step steps ih =>
      rw [Place.after?_cons, Option.bind_eq_some_iff] at h
      obtain ⟨mid, hmid, hrest⟩ := h
      refine ih (w.perform step) hrest ?_
      cases step with
      | line text | verbatim text =>
          cases hmid
          exact hlevel
      | indent | enter =>
          cases hmid
          simp only [perform, indent]
          omega
      | dedent | leave =>
          simp only [Place.move?, Option.ite_none_right_eq_some, Option.some.injEq] at hmid
          obtain ⟨hpos, rfl⟩ := hmid
          simp only [perform, dedent]
          omega

end Perform

/-! ## The text of the parts -/

section Parts

variable (w : Writer)

/-- What was written before only stands before what a tree appends. -/
theorem run_eq_of_emptied (code : Code) :
    let after := { w with buffer := [] }.run code
    w.run code = { after with buffer := w.buffer ++ after.buffer } := by
  simp [run_eq]

theorem appended_of_buffer (buffer : Text) (parts : List Code) :
    { w with buffer := buffer }.appended parts = w.appended parts := by
  cases parts <;> rfl

theorem buffer_run_all (parts : List Code) :
    (w.run (.all parts)).buffer = w.buffer ++ (w.appended parts).flatten := by
  induction parts generalizing w with
  | nil => simp [appended, Code.all, run]
  | cons code parts ih =>
      change ((w.run code).run (.all parts)).buffer = _
      rw [ih, run_eq_of_emptied, appended_of_buffer, appended, List.flatten_cons]
      exact List.append_assoc ..

theorem run_all_append (front back : List Code) :
    w.run (.all (front ++ back)) = (w.run (.all front)).run (.all back) := by
  induction front generalizing w with
  | nil => rfl
  | cons code front ih => exact ih (w.run code)

theorem run_all_parts (code : Code) : w.run (.all code.parts) = w.run code := by
  induction code generalizing w with
  | empty | line | verbatim | indent | dedent | block | conditional => rfl
  | seq first second ih₁ ih₂ => rw [Code.parts, run_all_append, ih₁, ih₂, run]

end Parts

/-! ## Matched trees -/

/-- What a writer is after a tree, if it has appended the given texts, one for each step: the
text of a step stands as deep as the level before the tree, the blocks around the step and
the indents that are open there add up to. -/
structure Renders (w : Writer) (code : Code) (after : Writer) (texts : List Text) : Prop where
  appends : after = { w with buffer := w.buffer ++ texts.flatten }
  length_eq : texts.length = code.steps.length
  text_eq : ∀ front step back, code.steps = front ++ step :: back → ∃ blocks indents,
    front.count .enter = front.count .leave + blocks ∧
      front.count .indent = front.count .dedent + indents ∧
      texts[front.length]? = some (step.text w.unit (w.level + blocks + indents))
  parts_eq : texts.flatten = (w.appended code.parts).flatten

/-- A matched tree is written by depth, and the writer is left at the level it came with. -/
theorem run_matched (w : Writer) {code : Code} (h : code.Matched) :
    ∃ texts, w.Renders code (w.run code) texts := by
  have hbuffer : (w.run code).buffer = w.buffer ++ (w.texts code.steps).flatten := by
    rw [run_eq_foldl, buffer_foldl]
  have hlevel : (w.run code).level = w.level := by
    rw [run_eq_foldl]
    exact w.level_foldl (p := {}) (Place.after?_of_matched h) rfl
  have hunit : (w.run code).unit = w.unit := by
    rw [run_eq_foldl, unit_foldl]
  refine ⟨w.texts code.steps, ?_, w.length_texts code.steps, ?_, ?_⟩
  · rw [← hbuffer, ← hlevel, ← hunit]
  · intro front step back hsteps
    have hafter := Place.after?_of_matched (p := {}) h
    rw [hsteps, Place.after?_append, Option.bind_eq_some_iff] at hafter
    obtain ⟨q, hq, -⟩ := hafter
    obtain ⟨hblocks, hindents⟩ := Place.counts_of_after? hq
    refine ⟨q.blocks, q.indents, by simpa [Nat.add_comm] using hblocks,
      by simpa [Nat.add_comm] using hindents, ?_⟩
    have hdepth : (front.foldl perform w).level = w.level + q.blocks + q.indents :=
      w.level_foldl hq rfl
    have hlength := w.length_texts front
    rw [hsteps, texts_append, texts, List.getElem?_append_right (by omega), hlength,
      Nat.sub_self, List.getElem?_cons_zero, unit_foldl, hdepth]
  · refine (List.append_right_inj w.buffer).mp ?_
    rw [← hbuffer, ← buffer_run_all, run_all_parts]

/-- An indent that stays open around a condition, and a block in it that indents by itself:
a level, a block and two indents make four units. -/
theorem run_matched_nested :
    let w : Writer := { buffer := "//", level := 1, unit := [' '] }
    let body : Code := .line "a;" ++ .indent ++ .line "b;" ++ .dedent
    let code : Code := .indent ++ .conditional (some "M") (.braces "f()" body) ++ .dedent
    code.Matched ∧ ∃ texts, w.Renders code (w.run code) texts ∧
      texts[7]? = some ("    b;\n" : Text) := by
  intro w body code
  have hmatched : code.Matched := by decide +kernel
  obtain ⟨texts, h⟩ := w.run_matched hmatched
  obtain ⟨blocks, indents, hblocks, hindents, htext⟩ :=
    h.text_eq (code.steps.take 7) (.line "b;") (code.steps.drop 8) (by decide +kernel)
  have hfront : (code.steps.take 7).length = 7 ∧ (code.steps.take 7).count .enter = 1 ∧
      (code.steps.take 7).count .leave = 0 ∧ (code.steps.take 7).count .indent = 2 ∧
      (code.steps.take 7).count .dedent = 0 := by decide +kernel
  obtain ⟨hlength, henter, hleave, hindent, hdedent⟩ := hfront
  obtain rfl : 1 = blocks := by omega
  obtain rfl : 2 = indents := by omega
  rw [hlength] at htext
  refine ⟨hmatched, texts, h, htext.trans ?_⟩
  decide +kernel

end Writer

end EnumCodegen
