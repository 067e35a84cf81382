import EnumCodegen.Proofs.Description.Sections

/-! # Reading line after line

What a line adds to a reading is decided by the line, its number and the section that is
open above it. So the lines of a description can be cut anywhere: the lower part is read
as it is alone, but for its line numbers and for the section at its top. -/

namespace EnumCodegen

namespace Reading

/-! ## Lines of joined texts -/

theorem withoutMark_eq_self {text : Text} (h : text.head? ≠ some '\uFEFF') :
    withoutMark text = text := by
  unfold withoutMark
  split
  · simp at h
  · rfl

theorem withoutMark_cases (text : Text) :
    text = '\uFEFF' :: withoutMark text ∨ withoutMark text = text := by
  unfold withoutMark
  split
  · exact .inl rfl
  · exact .inr rfl

theorem withoutMark_append {front back : Text} (h : back.head? ≠ some '\uFEFF') :
    withoutMark (front ++ back) = withoutMark front ++ back := by
  cases front with
  | nil => exact withoutMark_eq_self h
  | cons c front =>
      by_cases hc : c = '\uFEFF'
      · rw [hc]
        rfl
      · rw [withoutMark_eq_self (by simpa using hc), withoutMark_eq_self (by simpa using hc)]

theorem mem_of_mem_withoutMark {text : Text} {c : Char} (h : c ∈ withoutMark text) :
    c ∈ text := by
  rcases withoutMark_cases text with he | he
  · rw [he]
    exact List.mem_cons_of_mem _ h
  · rwa [he] at h

theorem linesOf_append (a : Text) {b : Text} (hb : b.head? ≠ some '\uFEFF') :
    linesOf (a ++ '\n' :: b) = linesOf a ++ linesOf b := by
  rw [linesOf, linesOf, linesOf, withoutMark_append (by simp), withoutMark_eq_self hb,
    pieces_append_separator]

theorem length_linesOf (a : Text) : (linesOf a).length = a.count '\n' + 1 := by
  rw [linesOf, length_pieces]
  rcases withoutMark_cases a with he | he
  · conv_rhs => rw [he, List.count_cons_of_ne (by decide)]
  · rw [he]

/-! ## One line -/

def headerName? (line : Text) : Option Text :=
  match LineForm.ofLine line with
  | .header name => some name
  | _ => none

def settingOf? (sectionName : Text) (n : Nat) (line : Text) : Option Triple :=
  match LineForm.ofLine line with
  | .assignment key value => some ⟨sectionName, key, value, n⟩
  | _ => none

/-- What is wrong with a line, if it is malformed. -/
def complaintOf? (n : Nat) (line : Text) : Option Diagnostic :=
  match LineForm.ofLine line with
  | .unclosedHeader => some (.unclosedHeader n)
  | .missingSeparator => some (.missingSeparator n)
  | _ => none

/-- The section that is open below some lines: that of the last closed header in them, and
without one the section that they start in. -/
def sectionBelow (sectionName : Text) (lines : List Text) : Text :=
  (lines.filterMap headerName?).getLast?.getD sectionName

def followedBy (r r' : Reading) : Reading :=
  ⟨r.triples ++ r'.triples, r.diagnostics ++ r'.diagnostics⟩

section Line

variable {sectionName line : Text} {n : Nat} {rest : List Text} {t : Triple} {d : Diagnostic}

theorem sectionBelow_nil : sectionBelow sectionName [] = sectionName := rfl

theorem sectionBelow_cons :
    sectionBelow sectionName (line :: rest) =
      sectionBelow ((headerName? line).getD sectionName) rest := by
  rw [sectionBelow, sectionBelow, List.filterMap_cons]
  cases headerName? line with
  | none => rfl
  | some name => rw [List.getLast?_cons]; rfl

theorem sectionBelow_append {above below : List Text} :
    sectionBelow sectionName (above ++ below) =
      sectionBelow (sectionBelow sectionName above) below := by
  induction above generalizing sectionName with
  | nil => rfl
  | cons line above ih => rw [List.cons_append, sectionBelow_cons, ih, sectionBelow_cons]

/-- A line adds its setting or its complaint, and a header changes the section below it. -/
theorem ofLines_cons :
    ofLines sectionName n (line :: rest) =
      followedBy ⟨(settingOf? sectionName n line).toList, (complaintOf? n line).toList⟩
        (ofLines ((headerName? line).getD sectionName) (n + 1) rest) := by
  rw [ofLines, settingOf?, complaintOf?, headerName?]
  cases LineForm.ofLine line <;> rfl

theorem settingOf?_line (h : settingOf? sectionName n line = some t) : t.line = n := by
  unfold settingOf? at h
  split at h
  · cases h
    rfl
  · cases h

theorem settingOf?_sectionName (h : settingOf? sectionName n line = some t) :
    t.sectionName = sectionName := by
  unfold settingOf? at h
  split at h
  · cases h
    rfl
  · cases h

theorem complaintOf?_line (h : complaintOf? n line = some d) : d.line = n := by
  unfold complaintOf? at h
  split at h
  · cases h
    rfl
  · cases h
    rfl
  · cases h

end Line

/-! ## All lines -/

section Lines

variable {sectionName : Text} {n : Nat} {lines : List Text}

/-- Lines are read one part after the other, the lower part in the section that the upper
part leaves open. -/
theorem ofLines_append (above below : List Text) :
    ofLines sectionName n (above ++ below) =
      (ofLines sectionName n above).followedBy
        (ofLines (sectionBelow sectionName above) (n + above.length) below) := by
  induction above generalizing sectionName n with
  | nil => rfl
  | cons line above ih =>
      rw [List.cons_append, ofLines_cons, ih, ofLines_cons, sectionBelow_cons, List.length_cons,
        Nat.add_right_comm, Nat.add_assoc]
      simp only [followedBy, List.append_assoc]

end Lines

/-! ## What is found on lines -/

/-- What is found on lines if each is looked at with the section open there and its number. -/
def gather {α : Type} (f : Text → Nat → Text → Option α) (sectionName : Text) (n : Nat) :
    List Text → List α
  | [] => []
  | line :: rest =>
    (f sectionName n line).toList ++
      gather f ((headerName? line).getD sectionName) (n + 1) rest

/-- A reading is what is found of settings and of complaints. -/
theorem ofLines_eq_gather (sectionName : Text) (n : Nat) (lines : List Text) :
    ofLines sectionName n lines =
      ⟨gather settingOf? sectionName n lines,
        gather (fun _ => complaintOf?) sectionName n lines⟩ := by
  induction lines generalizing sectionName n with
  | nil => rfl
  | cons line lines ih =>
      rw [ofLines_cons, ih]
      rfl

section Gather

variable {α : Type} {f : Text → Nat → Text → Option α} {sectionName : Text} {n : Nat}
  {lines : List Text} {x : α}

theorem mem_gather_iff :
    x ∈ gather f sectionName n lines ↔
      ∃ i line, lines[i]? = some line ∧
        f (sectionBelow sectionName (lines.take i)) (n + i) line = some x := by
  induction lines generalizing sectionName n with
  | nil => simp [gather]
  | cons line lines ih =>
      rw [gather, ← Nat.or_exists_add_one]
      simp only [List.mem_append, Option.mem_toList, ih,
        List.getElem?_cons_zero, List.getElem?_cons_succ, List.take_zero, List.take_succ_cons,
        sectionBelow_nil, sectionBelow_cons, Nat.add_zero, Option.some.injEq, exists_eq_left',
        Nat.add_right_comm n 1, Nat.add_assoc]

variable {number : α → Nat}
  (hnumber : ∀ {sectionName n line x}, f sectionName n line = some x → number x = n)

include hnumber

theorem pairwise_gather :
    (gather f sectionName n lines).Pairwise (number · < number ·) := by
  induction lines generalizing sectionName n with
  | nil => exact .nil
  | cons line lines ih =>
      rw [gather, List.pairwise_append]
      refine ⟨?_, ih, fun x hx y hy => ?_⟩
      · cases f sectionName n line <;> simp
      · obtain ⟨i, _, _, hfound⟩ := mem_gather_iff.mp hy
        rw [Option.mem_toList] at hx
        rw [hnumber hx, hnumber hfound]
        exact Nat.le_add_right (n + 1) i

theorem exists_number_iff {i : Nat} {line : Text} (hi : lines[i]? = some line) :
    (∃ x ∈ gather f sectionName n lines, number x = n + i) ↔
      ∃ x, f (sectionBelow sectionName (lines.take i)) (n + i) line = some x := by
  constructor
  · rintro ⟨x, hmem, hx⟩
    obtain ⟨j, line', hj, hfound⟩ := mem_gather_iff.mp hmem
    obtain rfl : i = j := Nat.add_left_cancel (hx.symm.trans (hnumber hfound))
    obtain rfl := Option.some.inj (hi.symm.trans hj)
    exact ⟨x, hfound⟩
  · rintro ⟨x, hfound⟩
    exact ⟨x, mem_gather_iff.mpr ⟨i, line, hi, hfound⟩, hnumber hfound⟩

end Gather

end Reading

end EnumCodegen
