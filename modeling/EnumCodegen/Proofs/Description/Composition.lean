import EnumCodegen.Proofs.Description.Lines

/-! # Texts below one another

A text that is put below another one is read as it is alone, further down and in the section
that is open there. Every line of a text has its part in the reading, unless it is one of
those that say nothing. -/

namespace EnumCodegen

/-! ## What lines can be -/

/-- A blank line or a comment. -/
def IsSilent (line : Text) : Prop := ∀ c ∈ line.trim.head?, c = ';' ∨ c = '#'

/-- A section header, closed by its first closing bracket. -/
def IsHeader (line name : Text) : Prop :=
  ∃ front back : Text,
    line.trim = '[' :: (front ++ ']' :: back) ∧ ']' ∉ front ∧ name = front.trim

/-- A line that starts as a section header does and is never closed. -/
def IsUnclosed (line : Text) : Prop := ∃ rest, line.trim = '[' :: rest ∧ ']' ∉ rest

theorem LineForm.ofLine_eq_silent_iff {line : Text} : ofLine line = .silent ↔ IsSilent line :=
  ofTrimmed_eq_silent_iff

theorem LineForm.ofLine_eq_header_iff {line name : Text} :
    ofLine line = .header name ↔ IsHeader line name :=
  ofTrimmed_eq_header_iff

theorem LineForm.ofLine_eq_unclosedHeader_iff {line : Text} :
    ofLine line = .unclosedHeader ↔ IsUnclosed line :=
  ofTrimmed_eq_unclosedHeader_iff

/-! ## A reading further down -/

def Diagnostic.below (n : Nat) : Diagnostic → Diagnostic
  | .unclosedHeader m => .unclosedHeader (m + n)
  | .missingSeparator m => .missingSeparator (m + n)

/-- A setting whose line has moved down by `n`. If it stood above the line `header`, then it
comes into the section that is open above all of them. -/
def Triple.below (sectionName : Text) (header n : Nat) (t : Triple) : Triple :=
  { t with
    sectionName := if t.line < header then sectionName else t.sectionName
    line := t.line + n }

namespace Reading

/-- A reading of lines that have moved down, below a section that reaches to line `header`. -/
def below (r : Reading) (sectionName : Text) (header n : Nat) : Reading :=
  ⟨r.triples.map (Triple.below sectionName header n), r.diagnostics.map (Diagnostic.below n)⟩

/-- The number of the first closed header, if lines are counted from one. Without one it is
the number of the line that would come next. -/
def firstHeader (lines : List Text) : Nat :=
  (lines.takeWhile fun line => (headerName? line).isNone).length + 1

section Below

variable {sectionName outer line : Text} {header m n : Nat} {lines : List Text}

theorem below_followedBy (r r' : Reading) :
    (r.followedBy r').below outer header n =
      (r.below outer header n).followedBy (r'.below outer header n) := by
  simp [below, followedBy]

theorem settingOf?_add :
    settingOf? (if m < header then outer else sectionName) (m + n) line =
      (settingOf? sectionName m line).map (Triple.below outer header n) := by
  unfold settingOf?
  split
  · rfl
  · rfl

theorem complaintOf?_add : complaintOf? (m + n) line = (complaintOf? m line).map (.below n) := by
  unfold complaintOf?
  split <;> rfl

variable (sectionName outer line header m n) in
theorem step_add :
    (⟨(settingOf? (if m < header then outer else sectionName) (m + n) line).toList,
        (complaintOf? (m + n) line).toList⟩ : Reading) =
      below ⟨(settingOf? sectionName m line).toList, (complaintOf? m line).toList⟩
        outer header n := by
  rw [settingOf?_add, complaintOf?_add, below, Option.toList_map, Option.toList_map]

theorem ofLines_add (h : header ≤ m) :
    ofLines sectionName (m + n) lines = (ofLines sectionName m lines).below outer header n := by
  induction lines generalizing sectionName m with
  | nil => rfl
  | cons line lines ih =>
      have hstep := step_add sectionName outer line header m n
      rw [if_neg (Nat.not_lt.mpr h)] at hstep
      rw [ofLines_cons, ofLines_cons, below_followedBy, hstep, Nat.add_right_comm,
        ih (Nat.le_succ_of_le h)]

theorem firstHeader_cons_of_header {name : Text} (h : headerName? line = some name) :
    firstHeader (line :: lines) = 1 := by
  simp [firstHeader, h]

theorem firstHeader_cons (h : headerName? line = none) :
    firstHeader (line :: lines) = firstHeader lines + 1 := by
  simp [firstHeader, h]

theorem ofLines_cons_of_header {name : Text} (h : headerName? line = some name) :
    ofLines sectionName n (line :: lines) = ofLines name (n + 1) lines := by
  unfold headerName? at h
  split at h
  · rename_i hform
    cases h
    rw [ofLines, hform]
  · cases h

variable (outer m n lines) in
/-- Lines in a section are read as they are without one, but for those above the first
header, which are in that section. -/
theorem ofLines_add_firstHeader :
    ofLines outer (m + 1 + n) lines =
      (ofLines [] (m + 1) lines).below outer (m + firstHeader lines) n := by
  induction lines generalizing m with
  | nil => rfl
  | cons line lines ih =>
      cases hname : headerName? line with
      | some name =>
          rw [firstHeader_cons_of_header hname, ofLines_cons_of_header hname,
            ofLines_cons_of_header hname, Nat.add_right_comm,
            ofLines_add (Nat.le_add_right (m + 1) 1)]
      | none =>
          have hstep := step_add [] outer line (m + 1 + firstHeader lines) (m + 1) n
          rw [if_pos (by simp [firstHeader])] at hstep
          rw [firstHeader_cons hname, ← Nat.add_assoc, Nat.add_right_comm m _ 1,
            ofLines_cons, ofLines_cons, below_followedBy, hname, hstep,
            Nat.add_right_comm (m + 1) n 1]
          congr 1
          exact ih (m + 1)

end Below

/-- A text below another one is read as it is alone, but further down, and what stands above
its first header is read in the section that the text above leaves open. -/
theorem ofText_append (a : Text) {b : Text} (hb : b.head? ≠ some '\uFEFF') :
    ofText (a ++ '\n' :: b) =
      (ofText a).followedBy
        ((ofText b).below (sectionBelow [] (linesOf a)) (firstHeader (linesOf b))
          (1 + a.count '\n')) := by
  have hbelow := ofLines_add_firstHeader (sectionBelow [] (linesOf a)) 0 (1 + a.count '\n')
    (linesOf b)
  rw [Nat.zero_add, Nat.zero_add] at hbelow
  change ofLines [] 1 (linesOf _) = (ofLines [] 1 (linesOf a)).followedBy
    ((ofLines [] 1 (linesOf b)).below _ _ _)
  rw [linesOf_append a hb, ofLines_append, length_linesOf, Nat.add_comm (a.count '\n'), hbelow]

/-! ## Every line has its part -/

theorem headerName?_eq_some_iff {line name : Text} :
    headerName? line = some name ↔ IsHeader line name := by
  rw [← LineForm.ofLine_eq_header_iff, headerName?]
  cases LineForm.ofLine line <;> simp

/-- A line either says nothing or is a header, or it adds a setting or a complaint. -/
theorem adds_iff (sectionName : Text) (n : Nat) (line : Text) :
    ((∃ t, settingOf? sectionName n line = some t) ∨ ∃ d, complaintOf? n line = some d) ↔
      ¬ IsSilent line ∧ ∀ name, ¬ IsHeader line name := by
  simp only [← LineForm.ofLine_eq_silent_iff, ← LineForm.ofLine_eq_header_iff, settingOf?,
    complaintOf?]
  cases LineForm.ofLine line <;> simp

theorem complaintOf?_eq_none {sectionName line : Text} {n : Nat} {t : Triple}
    (h : settingOf? sectionName n line = some t) : complaintOf? n line = none := by
  unfold settingOf? at h
  split at h
  · rename_i hform
    rw [complaintOf?, hform]
  · cases h

theorem complaintOf?_of_isUnclosed {line : Text} (h : IsUnclosed line) (n : Nat) :
    complaintOf? n line = some (.unclosedHeader n) := by
  rw [complaintOf?, LineForm.ofLine_eq_unclosedHeader_iff.mpr h]

theorem headerName?_of_isUnclosed {line : Text} (h : IsUnclosed line) :
    headerName? line = none := by
  rw [headerName?, LineForm.ofLine_eq_unclosedHeader_iff.mpr h]

/-- What the reading of a text tells about its lines, which are counted from one. -/
structure Accounts (source : Text) : Prop where
  /-- The settings are in the order of their lines, no two on one line. -/
  triples_increase : (ofText source).triples.Pairwise (·.line < ·.line)
  /-- So are the complaints. -/
  diagnostics_increase : (ofText source).diagnostics.Pairwise (·.line < ·.line)
  /-- No line has a setting and a complaint. -/
  apart : ∀ t ∈ (ofText source).triples, ∀ d ∈ (ofText source).diagnostics, t.line ≠ d.line
  /-- Settings are on lines of the text, each in the section that the lines above it leave
  open. -/
  triples_within : ∀ t ∈ (ofText source).triples, 1 ≤ t.line ∧ t.line ≤ (linesOf source).length ∧
    t.sectionName = sectionBelow [] ((linesOf source).take (t.line - 1))
  diagnostics_within : ∀ d ∈ (ofText source).diagnostics,
    1 ≤ d.line ∧ d.line ≤ (linesOf source).length
  /-- A header that is not closed is reported, and the section above it stays open. -/
  unclosed : ∀ i line, (linesOf source)[i]? = some line → IsUnclosed line →
    .unclosedHeader (i + 1) ∈ (ofText source).diagnostics ∧
      sectionBelow [] ((linesOf source).take (i + 1)) = sectionBelow [] ((linesOf source).take i)
  /-- The lines with a setting or a complaint are all but the silent ones and the headers. -/
  accounted : ∀ i line, (linesOf source)[i]? = some line →
    (((∃ t ∈ (ofText source).triples, t.line = i + 1) ∨
        ∃ d ∈ (ofText source).diagnostics, d.line = i + 1) ↔
      ¬ IsSilent line ∧ ∀ name, ¬ IsHeader line name)

section Source

variable {source : Text}

theorem triples_ofText (source : Text) :
    (ofText source).triples = gather settingOf? [] 1 (linesOf source) := by
  rw [ofText, ofLines_eq_gather, linesOf]

theorem diagnostics_ofText (source : Text) :
    (ofText source).diagnostics = gather (fun _ => complaintOf?) [] 1 (linesOf source) := by
  rw [ofText, ofLines_eq_gather, linesOf]

theorem mem_ofText_triples_iff {t : Triple} :
    t ∈ (ofText source).triples ↔ ∃ i line, (linesOf source)[i]? = some line ∧
      settingOf? (sectionBelow [] ((linesOf source).take i)) (i + 1) line = some t := by
  rw [triples_ofText, mem_gather_iff]
  simp only [Nat.add_comm 1]

theorem mem_ofText_diagnostics_iff {d : Diagnostic} :
    d ∈ (ofText source).diagnostics ↔ ∃ i line, (linesOf source)[i]? = some line ∧
      complaintOf? (i + 1) line = some d := by
  rw [diagnostics_ofText, mem_gather_iff]
  simp only [Nat.add_comm 1]

theorem exists_triple_line_iff {i : Nat} {line : Text} (h : (linesOf source)[i]? = some line) :
    (∃ t ∈ (ofText source).triples, t.line = i + 1) ↔
      ∃ t, settingOf? (sectionBelow [] ((linesOf source).take i)) (i + 1) line = some t := by
  rw [triples_ofText, Nat.add_comm i]
  exact exists_number_iff settingOf?_line h

theorem exists_diagnostic_line_iff {i : Nat} {line : Text}
    (h : (linesOf source)[i]? = some line) :
    (∃ d ∈ (ofText source).diagnostics, d.line = i + 1) ↔
      ∃ d, complaintOf? (i + 1) line = some d := by
  rw [diagnostics_ofText, Nat.add_comm i]
  exact exists_number_iff (f := fun _ => complaintOf?) complaintOf?_line h

theorem lt_length_of_getElem? {i : Nat} {line : Text} (h : (linesOf source)[i]? = some line) :
    i + 1 ≤ (linesOf source).length := (List.getElem?_eq_some_iff.mp h).1

theorem accounts (source : Text) : Accounts source where
  triples_increase := triples_ofText source ▸ pairwise_gather settingOf?_line
  diagnostics_increase := diagnostics_ofText source ▸ pairwise_gather complaintOf?_line
  apart := by
    intro t ht d hd he
    obtain ⟨i, line, hline, hset⟩ := mem_ofText_triples_iff.mp ht
    have hat : d.line = i + 1 := he.symm.trans (settingOf?_line hset)
    obtain ⟨d', hcomplaint⟩ := (exists_diagnostic_line_iff hline).mp ⟨d, hd, hat⟩
    rw [complaintOf?_eq_none hset] at hcomplaint
    cases hcomplaint
  triples_within := by
    intro t ht
    obtain ⟨i, line, hline, hset⟩ := mem_ofText_triples_iff.mp ht
    have hnumber := settingOf?_line hset
    refine ⟨by omega, hnumber ▸ lt_length_of_getElem? hline, ?_⟩
    rw [hnumber, Nat.add_sub_cancel]
    exact settingOf?_sectionName hset
  diagnostics_within := by
    intro d hd
    obtain ⟨i, line, hline, hcomplaint⟩ := mem_ofText_diagnostics_iff.mp hd
    have hnumber := complaintOf?_line hcomplaint
    exact ⟨by omega, hnumber ▸ lt_length_of_getElem? hline⟩
  unclosed := by
    intro i line hline hunclosed
    refine ⟨mem_ofText_diagnostics_iff.mpr
      ⟨i, line, hline, complaintOf?_of_isUnclosed hunclosed (i + 1)⟩, ?_⟩
    rw [List.take_add_one, hline, sectionBelow_append, Option.toList_some, sectionBelow_cons,
      headerName?_of_isUnclosed hunclosed]
    rfl
  accounted := by
    intro i line hline
    rw [exists_triple_line_iff hline, exists_diagnostic_line_iff hline]
    exact adds_iff _ (i + 1) line

end Source

/-- Descriptions are read line by line: a text below another one is read as it is alone, but
for its line numbers and for the section that is open at its top, and each line of a text is
accounted for. -/
theorem ofText_composes :
    (∀ a b : Text, b.head? ≠ some '\uFEFF' →
      ofText (a ++ '\n' :: b) =
        (ofText a).followedBy
          ((ofText b).below (sectionBelow [] (linesOf a)) (firstHeader (linesOf b))
            (1 + a.count '\n'))) ∧
      (∀ line name : Text, headerName? line = some name ↔ IsHeader line name) ∧
      ∀ source : Text, Accounts source :=
  ⟨fun a _ => ofText_append a, fun _ _ => headerName?_eq_some_iff, accounts⟩

/-- A header without a name ends the section above it, and one that is not closed does not. -/
theorem ofText_composes_headers :
    let a : Text := "[A]\nx = 1\r"
    let b : Text := "y: 2\n[B\n\n[ ]\nz = 3\n"
    b.head? ≠ some '\uFEFF' ∧
      ofText (a ++ '\n' :: b) =
        ⟨[⟨"A", "x", "1", 2⟩, ⟨"A", "y", "2", 3⟩, ⟨[], "z", "3", 7⟩], [.unclosedHeader 4]⟩ := by
  intro a b
  have hb : b.head? ≠ some '\uFEFF' := by decide +kernel
  refine ⟨hb, ?_⟩
  rw [ofText_composes.1 a b hb]
  decide +kernel

end Reading

end EnumCodegen
