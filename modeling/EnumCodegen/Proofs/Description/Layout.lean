import EnumCodegen.Proofs.Description.Composition
import Mathlib.Logic.Relation

/-! # The layout of a description

Blanks at the ends of its lines, the kind of its line ends and a byte order mark are no part
of what a description says. A line that says nothing only moves the lines below it. -/

namespace EnumCodegen

/-! ## Places in a text -/

/-- Blanks that stay on one line. -/
def IsGap (gap : Text) : Prop := ∀ c ∈ gap, isBlank c = true ∧ c ≠ '\n'

/-- A line starts behind this text. -/
def AtLineStart (front : Text) : Prop := front = [] ∨ front.getLast? = some '\n'

/-- A line ends before this text. -/
def AtLineEnd (back : Text) : Prop :=
  back = [] ∨ (∃ rest, back = '\n' :: rest) ∨ ∃ rest, back = '\r' :: '\n' :: rest

/-- One change of layout: blanks come before or behind a line, or a line gets another end. -/
inductive LayoutStep : Text → Text → Prop
  | before (front gap back : Text) (h : AtLineStart front) (hgap : IsGap gap) :
      LayoutStep (front ++ back) (front ++ (gap ++ back))
  | behind (front gap back : Text) (h : AtLineEnd back) (hgap : IsGap gap) :
      LayoutStep (front ++ back) (front ++ (gap ++ back))
  | lineEnd (front back : Text) :
      LayoutStep (front ++ '\n' :: back) (front ++ '\r' :: '\n' :: back)

/-- Two texts with one layout, up to changes made in either direction. -/
def Relaid : Text → Text → Prop := Relation.EqvGen LayoutStep

/-- No byte order mark is the first character of the first line, blanks left aside. -/
def Unmarked (source : Text) : Prop :=
  (Text.trim (source.takeWhile (· ≠ '\n'))).head? ≠ some '\uFEFF'

/-- A text with one line more, which has number `n` in it. -/
inductive LineAdded (line : Text) : Nat → Text → Text → Prop
  | above (front back : Text) (h : AtLineStart front) :
      LineAdded line (front.count '\n' + 1) (front ++ back) (front ++ (line ++ '\n' :: back))
  | last (source : Text) (h : AtLineStart source) :
      LineAdded line (source.count '\n' + 1) source (source ++ line)
  | below (source : Text) :
      LineAdded line (source.count '\n' + 2) source (source ++ '\n' :: line)

/-! ## Lines but for the blanks at their ends -/

/-- The lines of a text without the blanks at their ends. -/
def trimmedLines (source : Text) : List Text := (pieces '\n' source).map Text.trim

namespace IsGap

variable {gap : Text} (h : IsGap gap)

include h

theorem newline_not_mem : '\n' ∉ gap := fun hmem => (h _ hmem).2 rfl

theorem blank : ∀ c ∈ gap, isBlank c = true := fun c hc => (h c hc).1

theorem trimmedLines_append (back : Text) : trimmedLines (gap ++ back) = trimmedLines back := by
  obtain ⟨first, rest, hback, hgap⟩ := pieces_append_left h.newline_not_mem back
  rw [trimmedLines, trimmedLines, hback, hgap, List.map_cons, List.map_cons, Text.trim,
    Text.trimStart_append_of_blank h.blank, Text.trim]

theorem trimmedLines_append_right (front : Text) :
    trimmedLines (front ++ gap) = trimmedLines front := by
  obtain ⟨above, last, hfront, hgap⟩ := pieces_append_right front h.newline_not_mem
  rw [trimmedLines, trimmedLines, hfront, hgap]
  simp [Text.trim_append_of_blank h.blank]

end IsGap

theorem isGap_return : IsGap ['\r'] := by
  simp [IsGap]
  decide

theorem trimmedLines_append_newline (front back : Text) :
    trimmedLines (front ++ '\n' :: back) = trimmedLines front ++ trimmedLines back := by
  rw [trimmedLines, pieces_append_separator, List.map_append]
  rfl

theorem LayoutStep.trimmedLines_eq {source source' : Text} (h : LayoutStep source source') :
    trimmedLines source = trimmedLines source' := by
  cases h with
  | before front gap back h hgap =>
      rcases h with rfl | hlast
      · exact (hgap.trimmedLines_append back).symm
      · obtain ⟨front, rfl⟩ := List.getLast?_eq_some_iff.mp hlast
        simp only [List.append_assoc, List.singleton_append, trimmedLines_append_newline,
          hgap.trimmedLines_append]
  | behind front gap back h hgap =>
      rcases h with rfl | ⟨rest, rfl⟩ | ⟨rest, rfl⟩
      · rw [List.append_nil, List.append_nil, hgap.trimmedLines_append_right]
      · rw [← List.append_assoc, trimmedLines_append_newline, trimmedLines_append_newline,
          hgap.trimmedLines_append_right]
      · have hcut : ∀ text : Text,
            text ++ '\r' :: '\n' :: rest = (text ++ ['\r']) ++ '\n' :: rest := by simp
        rw [← List.append_assoc, hcut, hcut, trimmedLines_append_newline,
          trimmedLines_append_newline, isGap_return.trimmedLines_append_right,
          isGap_return.trimmedLines_append_right, hgap.trimmedLines_append_right]
  | lineEnd front back =>
      rw [List.append_cons front '\r', trimmedLines_append_newline, trimmedLines_append_newline,
        isGap_return.trimmedLines_append_right]

theorem Relaid.trimmedLines_eq {source source' : Text} (h : Relaid source source') :
    trimmedLines source = trimmedLines source' := by
  induction h with
  | rel _ _ hstep => exact hstep.trimmedLines_eq
  | refl _ => rfl
  | symm _ _ _ ih => exact ih.symm
  | trans _ _ _ _ _ ih₁ ih₂ => exact ih₁.trans ih₂

theorem unmarked_iff {source : Text} :
    Unmarked source ↔ ∀ line ∈ (trimmedLines source).head?, line.head? ≠ some '\uFEFF' := by
  rw [trimmedLines, List.head?_map, head?_pieces]
  simp [Unmarked]

theorem Relaid.unmarked {source source' : Text} (h : Relaid source source')
    (hsource : Unmarked source) : Unmarked source' := by
  rwa [unmarked_iff, ← h.trimmedLines_eq, ← unmarked_iff]

namespace Reading

theorem withoutMark_of_unmarked {source : Text} (h : Unmarked source) :
    withoutMark source = source := by
  refine withoutMark_eq_self fun hhead => h ?_
  obtain ⟨rest, rfl⟩ := List.head?_eq_some_iff.mp hhead
  rw [List.takeWhile_cons_of_pos (by decide), Text.head?_trim (by simp; decide)]
  rfl

/-! ## Reading lines without the blanks at their ends -/

section Trimmed

variable {sectionName : Text} {n : Nat} {lines lines' : List Text}

theorem ofLines_map_trim : ofLines sectionName n (lines.map Text.trim) =
    ofLines sectionName n lines := by
  have htrim : ∀ line : Text, LineForm.ofLine line.trim = LineForm.ofLine line := by
    intro line
    rw [LineForm.ofLine, Text.trim_trim, LineForm.ofLine]
  induction lines generalizing sectionName n with
  | nil => rfl
  | cons line lines ih => simp only [List.map_cons, ofLines, htrim, ih]

theorem ofLines_congr (h : lines.map Text.trim = lines'.map Text.trim) :
    ofLines sectionName n lines = ofLines sectionName n lines' := by
  rw [← ofLines_map_trim, h, ofLines_map_trim]

end Trimmed

/-- A mark is left out, and without one the text is read as it is. -/
theorem ofText_marked (source : Text) :
    ofText ('\uFEFF' :: source) = ofLines [] 1 (pieces '\n' source) := rfl

theorem ofText_of_unmarked {source : Text} (h : Unmarked source) :
    ofText source = ofLines [] 1 (pieces '\n' source) := by
  rw [ofText, withoutMark_of_unmarked h]

/-! ## Lines that say nothing -/

/-- The number of line `m` after a line has come in as line `n`. -/
def renumbered (n m : Nat) : Nat := if n ≤ m then m + 1 else m

end Reading

def Triple.renumbered (n : Nat) (t : Triple) : Triple :=
  { t with line := Reading.renumbered n t.line }

def Diagnostic.renumbered (n : Nat) : Diagnostic → Diagnostic
  | .unclosedHeader m => .unclosedHeader (Reading.renumbered n m)
  | .missingSeparator m => .missingSeparator (Reading.renumbered n m)

namespace Reading

/-- A reading after a line that says nothing has come in as line `n`. -/
def makeRoom (n : Nat) (r : Reading) : Reading :=
  ⟨r.triples.map (Triple.renumbered n), r.diagnostics.map (Diagnostic.renumbered n)⟩

section Silent

variable {sectionName line : Text} {m n : Nat} {lines : List Text}

theorem ofLines_cons_of_isSilent (h : IsSilent line) :
    ofLines sectionName n (line :: lines) = ofLines sectionName (n + 1) lines := by
  rw [ofLines, LineForm.ofLine_eq_silent_iff.mpr h]

theorem makeRoom_followedBy (r r' : Reading) :
    (r.followedBy r').makeRoom n = (r.makeRoom n).followedBy (r'.makeRoom n) := by
  simp [makeRoom, followedBy]

theorem step_renumbered (sectionName line : Text) (m n : Nat) :
    (⟨(settingOf? sectionName (renumbered n m) line).toList,
        (complaintOf? (renumbered n m) line).toList⟩ : Reading) =
      makeRoom n ⟨(settingOf? sectionName m line).toList, (complaintOf? m line).toList⟩ := by
  unfold settingOf? complaintOf?
  cases LineForm.ofLine line <;> rfl

theorem ofLines_succ (h : n ≤ m) :
    ofLines sectionName (m + 1) lines = (ofLines sectionName m lines).makeRoom n := by
  induction lines generalizing sectionName m with
  | nil => rfl
  | cons line lines ih =>
      have hstep := step_renumbered sectionName line m n
      rw [renumbered, if_pos h] at hstep
      rw [ofLines_cons, ofLines_cons, makeRoom_followedBy, hstep, ih (Nat.le_succ_of_le h)]

/-- A line that says nothing moves the lines below it, and changes nothing else. -/
theorem ofLines_insert (h : IsSilent line) (above below : List Text) :
    ofLines sectionName m (above ++ line :: below) =
      (ofLines sectionName m (above ++ below)).makeRoom (m + above.length) := by
  induction above generalizing sectionName m with
  | nil => exact (ofLines_cons_of_isSilent h).trans (ofLines_succ (Nat.le_refl m))
  | cons first above ih =>
      have hstep := step_renumbered sectionName first m (m + (first :: above).length)
      rw [renumbered, if_neg (by simp)] at hstep
      rw [List.cons_append, List.cons_append, ofLines_cons, ofLines_cons, makeRoom_followedBy,
        ← hstep, ih, List.length_cons, Nat.add_right_comm, Nat.add_assoc]

theorem ofLines_append_of_isSilent (h : IsSilent line) :
    ofLines sectionName n (lines ++ [line]) = ofLines sectionName n lines := by
  rw [ofLines_append, ofLines_cons_of_isSilent h]
  simp [followedBy, ofLines]

end Silent

/-! ## Line ends -/

def withoutReturn (line : Text) : Text :=
  if line.getLast? = some '\r' then line.dropLast else line

/-- The lines of a text, each without its end: a line feed, or a carriage return and a line
feed. What stands behind the last line feed is a line unless it is empty. -/
def endedLines (text : Text) : List Text :=
  (pieces '\n' text).dropLast.map withoutReturn ++
    (pieces '\n' text).getLast?.toList.filter (· ≠ [])

theorem trim_withoutReturn (line : Text) : (withoutReturn line).trim = line.trim := by
  unfold withoutReturn
  split
  · rename_i hlast
    obtain ⟨front, rfl⟩ := List.getLast?_eq_some_iff.mp hlast
    rw [List.dropLast_concat, Text.trim_append_of_blank isGap_return.blank]
  · rfl

/-- A description is read from its lines without their ends. -/
theorem ofText_eq_ofLines_endedLines (source : Text) :
    ofText source = ofLines [] 1 (endedLines (withoutMark source)) := by
  rw [ofText, endedLines]
  generalize hlines : pieces '\n' (withoutMark source) = lines
  obtain ⟨front, last, rfl⟩ := (List.eq_nil_or_concat' lines).resolve_left fun hnil =>
    pieces_ne_nil _ _ (hlines.trans hnil)
  have hfront : ofLines [] 1 (front.map withoutReturn) = ofLines [] 1 front :=
    ofLines_congr (by simp [Function.comp_def, trim_withoutReturn])
  rw [List.dropLast_concat, List.getLast?_concat, Option.toList_some]
  by_cases hlast : last = []
  · rw [hlast, ofLines_append_of_isSilent (by simp [IsSilent])]
    simp [hfront]
  · exact ofLines_congr (by simp [hlast, Function.comp_def, trim_withoutReturn])

/-! ## Layout -/

theorem pieces_of_atLineStart {front : Text} (h : AtLineStart front) :
    ∃ above : List Text, above.length = front.count '\n' ∧
      ∀ back : Text, pieces '\n' (front ++ back) = above ++ pieces '\n' back := by
  rcases h with rfl | hlast
  · exact ⟨[], rfl, fun back => rfl⟩
  · obtain ⟨front, rfl⟩ := List.getLast?_eq_some_iff.mp hlast
    refine ⟨pieces '\n' front, by simp [length_pieces], fun back => ?_⟩
    rw [List.append_assoc, List.singleton_append, pieces_append_separator]

/-- A text ends in one line feed more or less without anything being read from it. -/
theorem ofText_append_newline (source : Text) : ofText (source ++ ['\n']) = ofText source := by
  rw [ofText, ofText, withoutMark_append (by simp), pieces_append_separator]
  exact ofLines_append_of_isSilent (by simp [IsSilent])

section Added

variable {line : Text} (hsilent : IsSilent line) (hline : '\n' ∉ line)

include hsilent hline

/-- A line that says nothing can be put above each line of a text. -/
theorem ofText_insert {front back : Text} (h : AtLineStart front)
    (hsource : Unmarked (front ++ back)) :
    ofText (front ++ (line ++ '\n' :: back)) =
      (ofText (front ++ back)).makeRoom (front.count '\n' + 1) := by
  obtain ⟨above, hlength, hpieces⟩ := pieces_of_atLineStart h
  have hinserted : pieces '\n' (front ++ (line ++ '\n' :: back)) =
      above ++ line :: pieces '\n' back := by
    rw [hpieces, pieces_append_cons hline]
  have hmarked : Unmarked (front ++ (line ++ '\n' :: back)) := by
    rw [unmarked_iff, trimmedLines] at hsource ⊢
    rw [hinserted]
    rw [hpieces] at hsource
    cases above with
    | nil =>
        simp only [List.nil_append, List.map_cons, List.head?_cons, Option.mem_some, forall_eq']
        intro hmark
        exact absurd (hsilent _ hmark) (by decide)
    | cons first above => simpa using hsource
  rw [ofText_of_unmarked hmarked, ofText_of_unmarked hsource, hinserted, hpieces,
    ofLines_insert hsilent, hlength, Nat.add_comm 1]

/-- A line that says nothing can be put anywhere into a text. -/
theorem LineAdded.ofText_eq {n : Nat} {source source' : Text}
    (h : LineAdded line n source source') (hsource : Unmarked source) :
    ofText source' = (ofText source).makeRoom n := by
  have hlast : ∀ text : Text, AtLineStart text → Unmarked text →
      ofText (text ++ line) = (ofText text).makeRoom (text.count '\n' + 1) := by
    intro text hstart htext
    have hinsert : ofText (text ++ (line ++ '\n' :: [])) = _ :=
      ofText_insert hsilent hline hstart (by rwa [List.append_nil])
    rw [List.append_nil] at hinsert
    rw [← hinsert, ← ofText_append_newline, List.append_assoc]
  cases h with
  | above front back hstart => exact ofText_insert hsilent hline hstart hsource
  | last _ hstart => exact hlast source hstart hsource
  | below =>
      have hended : Unmarked (source ++ ['\n']) := by
        rw [unmarked_iff] at hsource ⊢
        rw [trimmedLines_append_newline, List.head?_append]
        cases hhead : (trimmedLines source).head? with
        | none => simp [trimmedLines]
        | some first => simpa [hhead] using hsource
      have hadded := hlast (source ++ ['\n']) (.inr (by simp)) hended
      rw [ofText_append_newline, List.append_assoc, List.singleton_append,
        List.count_append] at hadded
      exact hadded

end Added

/-- The layout of a description is no part of its reading, and a line that says nothing only
moves the lines below it. -/
theorem ofText_layout {source : Text} (h : Unmarked source) :
    (∀ source', Relaid source source' →
      ofText source' = ofText source ∧ ofText ('\uFEFF' :: source') = ofText source) ∧
    ∀ line n source', IsSilent line → '\n' ∉ line → LineAdded line n source source' →
      ofText source' = (ofText source).makeRoom n := by
  refine ⟨fun source' hlaid => ?_, fun line n source' hsilent hline hadded =>
    LineAdded.ofText_eq hsilent hline hadded h⟩
  have hread : ofLines [] 1 (pieces '\n' source') = ofText source := by
    rw [ofText_of_unmarked h]
    exact ofLines_congr hlaid.trimmedLines_eq.symm
  exact ⟨(ofText_of_unmarked (hlaid.unmarked h)).trans hread, (ofText_marked source').trans hread⟩

/-- Another line end, a blank before a line, a mark and a comment above the last line. -/
theorem ofText_layout_comment :
    let source : Text := "[S]\nfield = A\nwords"
    let laid : Text := "[S]\r\n\u2003field = A\nwords"
    let line : Text := "\t# note\r"
    let added : Text := "[S]\nfield = A\n\t# note\r\nwords"
    Unmarked source ∧ Relaid source laid ∧ IsSilent line ∧ LineAdded line 3 source added ∧
      ofText laid = ofText source ∧ ofText ('\uFEFF' :: laid) = ofText source ∧
      ofText added = ⟨[⟨"S", "field", "A", 2⟩], [.missingSeparator 4]⟩ := by
  intro source laid line added
  have hsource : Unmarked source := by
    unfold Unmarked
    decide +kernel
  have hgap : IsGap "\u2003" := by
    rw [Text.ofString_eq]
    exact List.forall_mem_singleton.mpr (by decide)
  have hlaid : Relaid source laid := by
    have hend := LayoutStep.lineEnd "[S]" "field = A\nwords"
    have hblank := LayoutStep.before "[S]\r\n" "\u2003" "field = A\nwords"
      (.inr (by decide +kernel)) hgap
    simp only [Text.ofString_eq] at hend hblank
    simpa [source, laid, Relaid, Text.ofString_eq] using
      Relation.EqvGen.trans _ _ _ (.rel _ _ hend) (.rel _ _ hblank)
  have hsilent : IsSilent line := LineForm.ofLine_eq_silent_iff.mp (by decide +kernel)
  have hadded : LineAdded line 3 source added := by
    have habove : LineAdded line _ _ _ := .above "[S]\nfield = A\n" "words"
      (.inr (by decide +kernel))
    simpa [source, added, line, Text.ofString_eq] using habove
  have hread : ofText source = ⟨[⟨"S", "field", "A", 2⟩], [.missingSeparator 3]⟩ := by
    decide +kernel
  obtain ⟨hlayout, hinsert⟩ := ofText_layout hsource
  refine ⟨hsource, hlaid, hsilent, hadded, (hlayout laid hlaid).1, (hlayout laid hlaid).2, ?_⟩
  rw [hinsert line 3 added hsilent (by decide +kernel) hadded, hread]
  rfl

end Reading

end EnumCodegen
