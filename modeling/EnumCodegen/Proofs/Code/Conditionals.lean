import EnumCodegen.Guard
import EnumCodegen.Proofs.Code.Lines
import EnumCodegen.Proofs.Text.Ending

/-! # Conditionals in the lines of source text

A line may open a conditional, start another branch of it or close it. Lines are nested
when every conditional that is opened in them is closed in them, one inside another. -/

namespace EnumCodegen

open Text

/-! ## Directives -/

inductive ConditionalPart where
  | opening
  | branch
  | closing
  deriving DecidableEq, Repr

namespace ConditionalPart

/-- The blanks that may stand on either side of the sign of a directive. -/
def isGap (c : Char) : Bool := c = ' ' ∨ c = '\t' ∨ c = '\u000b' ∨ c = '\u000c'

def ofWord? (word : Text) : Option ConditionalPart :=
  if word = "if" ∨ word = "ifdef" ∨ word = "ifndef" then some .opening
  else if word = "elif" ∨ word = "else" then some .branch
  else if word = "endif" then some .closing
  else none

/-- The conditional directive that a line is, if it is one. Other directives are none. -/
def ofLine? (line : Text) : Option ConditionalPart :=
  match line.dropWhile isGap with
  | '#' :: rest => ofWord? ((rest.dropWhile isGap).takeWhile Guard.isWordChar)
  | _ => none

/-- How much deeper the lines after a line are than those before it. -/
def change : Option ConditionalPart → Int
  | some .opening => 1
  | some .closing => -1
  | _ => 0

theorem ofLine?_of_hash_not_mem {line : Text} (h : '#' ∉ line) : ofLine? line = none := by
  unfold ofLine?
  split
  · rename_i rest hrest
    refine absurd ((List.dropWhile_suffix isGap).mem ?_) h
    rw [hrest]
    exact List.mem_cons_self
  · rfl

theorem ofLine?_cons_of_ne {c : Char} (hgap : isGap c = false) (hhash : c ≠ '#') (rest : Text) :
    ofLine? (c :: rest) = none := by
  unfold ofLine?
  rw [List.dropWhile_cons_of_neg (by simp [hgap])]
  split
  · rename_i he
    exact absurd (List.cons.inj he).1 hhash
  · rfl

/-- A directive is known by its word, up to the blank after it. -/
theorem ofLine?_hash_append {word : Text} (hne : word ≠ [])
    (h : ∀ c ∈ word, Guard.isWordChar c = true) (rest : Text) :
    ofLine? ('#' :: (word ++ ' ' :: rest)) = ofWord? word := by
  have hgap : ∀ c, Guard.isWordChar c = true → isGap c = false := by
    intro c hc
    by_contra hg
    simp only [isGap, Bool.not_eq_false, decide_eq_true_eq] at hg
    rcases hg with rfl | rfl | rfl | rfl <;> exact absurd hc (by decide)
  obtain ⟨c, word, rfl⟩ := List.exists_cons_of_ne_nil hne
  have hword : (c :: word ++ ' ' :: rest).takeWhile Guard.isWordChar = c :: word := by
    rw [List.takeWhile_append_of_pos h, List.takeWhile_cons_of_neg (by decide), List.append_nil]
  rw [ofLine?, List.dropWhile_cons_of_neg (by decide)]
  simp only
  rw [List.cons_append, List.dropWhile_cons_of_neg (by simp [hgap c (h c List.mem_cons_self)]),
    ← List.cons_append, hword]

theorem ofLine?_append_of_gap {lead : Text} (h : ∀ c ∈ lead, isGap c = true) (line : Text) :
    ofLine? (lead ++ line) = ofLine? line := by
  unfold ofLine?
  rw [List.dropWhile_append_of_pos h]

end ConditionalPart

open ConditionalPart

theorem ofLine?_ifLine (c : Text) : ofLine? (Code.ifLine c) = some .opening := by
  have hline : Code.ifLine c = '#' :: (['i', 'f'] ++ ' ' :: ("defined(" ++ c ++ ")")) := by
    simp [Code.ifLine, ofString_eq]
  rw [hline, ofLine?_hash_append (by simp) (List.all_eq_true.mp (by decide))]
  decide +kernel

theorem ofLine?_endLine (c : Text) : ofLine? (Code.endLine c) = some .closing := by
  have hline : Code.endLine c = '#' :: (['e', 'n', 'd', 'i', 'f'] ++ ' ' :: ("// " ++ c)) := by
    simp [Code.endLine, ofString_eq]
  rw [hline, ofLine?_hash_append (by simp) (List.all_eq_true.mp (by decide))]
  decide +kernel

theorem ifLine_inj {c c' : Text} : Code.ifLine c = Code.ifLine c' ↔ c = c' := by
  simp [Code.ifLine]

/-! ## Nested lines -/

/-- How many conditionals lines leave open. It is negative if they close more. -/
def depth : List Text → Int
  | [] => 0
  | line :: lines => change (ofLine? line) + depth lines

/-- A conditional with the lines inside it: its last line is the first after which no more
are open than before it. -/
structure ClosedBy (opening : Text) (body : List Text) (closing : Text) : Prop where
  opening : ofLine? opening = some .opening
  depth_nonneg : ∀ front back, body = front ++ back → 0 ≤ depth front
  depth_eq_zero : depth body = 0
  closing : ofLine? closing = some .closing

/-- Lines inside `base` conditionals that close what they open, and nothing else. Another
branch only starts inside a conditional. How a conditional is closed follows a rule. -/
structure Nested (rule : Text → List Text → Text → Prop) (base : Nat) (lines : List Text) :
    Prop where
  depth_nonneg : ∀ front back, lines = front ++ back → 0 ≤ depth front
  depth_eq_zero : depth lines = 0
  branch : ∀ front line back, lines = front ++ line :: back →
    ofLine? line = some .branch → 0 < base + depth front
  closed : ∀ front opening rest, lines = front ++ opening :: rest →
    ofLine? opening = some .opening →
      ∃ body closing back, rest = body ++ closing :: back ∧ ClosedBy opening body closing ∧
        rule opening body closing

@[simp] theorem depth_nil : depth [] = 0 := rfl

@[simp] theorem depth_cons (line : Text) (lines : List Text) :
    depth (line :: lines) = change (ofLine? line) + depth lines := rfl

@[simp] theorem depth_append (lines lines' : List Text) :
    depth (lines ++ lines') = depth lines + depth lines' := by
  induction lines with
  | nil => simp
  | cons line lines ih => simp [ih, Int.add_assoc]

theorem append_eq_append_cons_iff {α : Type} {xs ys front back : List α} {x : α} :
    xs ++ ys = front ++ x :: back ↔
      (∃ middle, xs = front ++ x :: middle ∧ back = middle ++ ys) ∨
        ∃ middle, front = xs ++ middle ∧ ys = middle ++ x :: back := by
  rw [List.append_eq_append_iff]
  constructor
  · rintro (⟨middle, rfl, rfl⟩ | ⟨middle, rfl, h⟩)
    · exact .inr ⟨middle, rfl, rfl⟩
    · cases middle with
      | nil => exact .inr ⟨[], by simp, by simpa using h.symm⟩
      | cons y middle =>
          obtain ⟨rfl, rfl⟩ := List.cons.inj h
          exact .inl ⟨middle, rfl, rfl⟩
  · rintro (⟨middle, rfl, rfl⟩ | ⟨middle, rfl, rfl⟩)
    · exact .inr ⟨x :: middle, rfl, rfl⟩
    · exact .inl ⟨middle, rfl, rfl⟩

section Nested

variable {rule : Text → List Text → Text → Prop} {base : Nat} {lines lines' : List Text}

theorem depth_eq_zero_of_plain (h : ∀ line ∈ lines, ofLine? line = none) : depth lines = 0 := by
  induction lines with
  | nil => rfl
  | cons line lines ih =>
      rw [List.forall_mem_cons] at h
      rw [depth_cons, h.1, ih h.2]
      rfl

theorem nested_of_plain (h : ∀ line ∈ lines, ofLine? line = none) : Nested rule base lines := by
  have hline : ∀ front line back, lines = front ++ line :: back → ofLine? line = none := by
    rintro front line back rfl
    exact h line (by simp)
  refine ⟨?_, depth_eq_zero_of_plain h, ?_, ?_⟩
  · rintro front back rfl
    have hfront := depth_eq_zero_of_plain fun line hl => h line (List.mem_append_left _ hl)
    exact Int.le_of_eq hfront.symm
  · intro front line back he hb
    rw [hline front line back he] at hb
    cases hb
  · intro front opening rest he ho
    rw [hline front opening rest he] at ho
    cases ho

theorem Nested.append (h : Nested rule base lines) (h' : Nested rule base lines') :
    Nested rule base (lines ++ lines') := by
  refine ⟨?_, by simp [h.depth_eq_zero, h'.depth_eq_zero], ?_, ?_⟩
  · intro front back he
    rcases List.append_eq_append_iff.mp he with ⟨middle, rfl, hm⟩ | ⟨middle, hm, -⟩
    · rw [depth_append, h.depth_eq_zero, Int.zero_add]
      exact h'.depth_nonneg middle back hm
    · exact h.depth_nonneg front middle hm
  · intro front line back he hb
    rcases append_eq_append_cons_iff.mp he with ⟨middle, hm, -⟩ | ⟨middle, rfl, hm⟩
    · exact h.branch front line middle hm hb
    · rw [depth_append, h.depth_eq_zero, Int.zero_add]
      exact h'.branch middle line back hm hb
  · intro front opening rest he ho
    rcases append_eq_append_cons_iff.mp he with ⟨middle, hm, rfl⟩ | ⟨middle, -, hm⟩
    · obtain ⟨body, closing, back, rfl, hclosed, hrule⟩ := h.closed front opening middle hm ho
      exact ⟨body, closing, back ++ lines', by simp, hclosed, hrule⟩
    · exact h'.closed middle opening rest hm ho

theorem Nested.cons {line : Text} (h : Nested rule base lines) (hline : ofLine? line = none) :
    Nested rule base (line :: lines) :=
  (nested_of_plain (List.forall_mem_singleton.mpr hline)).append h

theorem nested_flatMap {α : Type} {items : List α} {part : α → List Text}
    (h : ∀ item ∈ items, Nested rule base (part item)) : Nested rule base (items.flatMap part) := by
  induction items with
  | nil => exact nested_of_plain (List.forall_mem_nil _)
  | cons item items ih =>
      rw [List.forall_mem_cons] at h
      rw [List.flatMap_cons]
      exact h.1.append (ih h.2)

theorem nested_branch {line : Text} (h : ofLine? line = some .branch) (hbase : 0 < base) :
    Nested rule base [line] := by
  refine ⟨?_, by simp [h, change], ?_, ?_⟩
  · intro front back he
    cases front with
    | nil => exact Int.le_refl 0
    | cons l front =>
        obtain ⟨rfl, hnil⟩ := List.cons.inj he
        obtain ⟨rfl, -⟩ := List.append_eq_nil_iff.mp hnil.symm
        simp [h, change]
  · intro front l back he _
    obtain ⟨rfl, -⟩ := List.append_eq_singleton_iff.mp he.symm |>.resolve_right (by simp)
    simpa using hbase
  · intro front opening rest he ho
    have hmem : opening ∈ [line] := he ▸ by simp
    rw [List.mem_singleton.mp hmem, h] at ho
    cases ho

section Group

variable {opening closing : Text} {body : List Text}

theorem Nested.closedBy (h : Nested rule base body) (ho : ofLine? opening = some .opening)
    (hc : ofLine? closing = some .closing) : ClosedBy opening body closing :=
  ⟨ho, h.depth_nonneg, h.depth_eq_zero, hc⟩

/-- A line of a conditional is its first, one inside, or its last. -/
theorem eq_of_group_eq {front back : List Text} {line : Text}
    (h : opening :: (body ++ [closing]) = front ++ line :: back) :
    (front = [] ∧ line = opening ∧ back = body ++ [closing]) ∨
      (∃ front' middle, front = opening :: front' ∧ body = front' ++ line :: middle ∧
        back = middle ++ [closing]) ∨
      (front = opening :: body ∧ line = closing ∧ back = []) := by
  cases front with
  | nil =>
      obtain ⟨rfl, rfl⟩ := List.cons.inj h
      exact .inl ⟨rfl, rfl, rfl⟩
  | cons l front =>
      obtain ⟨rfl, hrest⟩ := List.cons.inj h
      rcases append_eq_append_cons_iff.mp hrest with ⟨middle, hm, rfl⟩ | ⟨middle, rfl, hm⟩
      · exact .inr (.inl ⟨front, middle, rfl, hm, rfl⟩)
      · obtain ⟨rfl, hl⟩ := (List.append_eq_singleton_iff.mp hm.symm).resolve_right (by simp)
        obtain ⟨rfl, rfl⟩ := List.cons.inj hl
        exact .inr (.inr ⟨by simp, rfl, rfl⟩)

/-- A conditional is one unit of the lines that it stands in. -/
theorem Nested.group (h : Nested rule (base + 1) body) (ho : ofLine? opening = some .opening)
    (hc : ofLine? closing = some .closing) (hrule : rule opening body closing) :
    Nested rule base (opening :: (body ++ [closing])) := by
  have hopen : change (ofLine? opening) = 1 := by rw [ho]; rfl
  have hclose : change (ofLine? closing) = -1 := by rw [hc]; rfl
  have hdepth : depth (opening :: (body ++ [closing])) = 0 := by
    simp [hopen, hclose, h.depth_eq_zero]
  refine ⟨?_, hdepth, ?_, ?_⟩
  · intro front back he
    cases back with
    | nil =>
        rw [List.append_nil] at he
        exact Int.le_of_eq (he ▸ hdepth).symm
    | cons line back =>
        rcases eq_of_group_eq he with ⟨rfl, -⟩ | ⟨front, middle, rfl, hm, -⟩ | ⟨rfl, -⟩
        · exact Int.le_refl 0
        · have hfront := h.depth_nonneg front (line :: middle) hm
          rw [depth_cons, hopen]
          omega
        · simp [hopen, h.depth_eq_zero]
  · intro front line back he hb
    rcases eq_of_group_eq he with ⟨-, rfl, -⟩ | ⟨front, middle, rfl, hm, -⟩ | ⟨-, rfl, -⟩
    · simp [ho] at hb
    · have hfront := h.branch front line middle hm hb
      rw [depth_cons, hopen]
      omega
    · simp [hc] at hb
  · intro front line rest he hl
    rcases eq_of_group_eq he with ⟨-, rfl, rfl⟩ | ⟨front, middle, -, hm, rfl⟩ | ⟨-, rfl, -⟩
    · exact ⟨body, closing, [], rfl, h.closedBy ho hc, hrule⟩
    · obtain ⟨inner, ending, back, rfl, hclosed, hr⟩ := h.closed front line middle hm hl
      exact ⟨inner, ending, back ++ [closing], by simp, hclosed, hr⟩
    · simp [hc] at hl

end Group

/-- Lines under a condition are closed with its name, if there is a name to test. -/
theorem Nested.wrapped (h : Nested rule base lines) (h' : Nested rule (base + 1) lines)
    (condition? : Option Text) (hrule : ∀ c, rule (Code.ifLine c) lines (Code.endLine c)) :
    Nested rule base (Code.wrapped id condition? lines) := by
  unfold Code.wrapped
  split
  · exact h
  · rename_i c _
    exact h'.group (ofLine?_ifLine c) (ofLine?_endLine c) (hrule c)

end Nested

end EnumCodegen
