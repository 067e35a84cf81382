import EnumCodegen.Proofs.Description.Composition

/-! # Comments behind settings

A comment behind a setting is left out if there is a value before it. Behind a setting
without a value nothing is left that the comment could be told from, and it is read as the
value. -/

namespace EnumCodegen

/-! ## Cutting a comment off -/

theorem uncommented_blanks {gap : Text} (h : ∀ c ∈ gap, isBlank c = true) (c : Text) :
    uncommented true (gap ++ ';' :: c) = gap := by
  induction gap with
  | nil => simp [uncommented]
  | cons d gap ih =>
      rw [List.forall_mem_cons] at h
      have hd : d ≠ ';' := by
        rintro rfl
        exact absurd h.1 (by decide)
      rw [List.cons_append, uncommented, if_neg (by simp [hd]), h.1, ih h.2]

/-- A comment added behind a text leaves at most the blanks before it. -/
theorem uncommented_append {gap : Text} (hne : gap ≠ []) (h : ∀ c ∈ gap, isBlank c = true)
    (afterBlank : Bool) (text c : Text) :
    ∃ tail, uncommented afterBlank (text ++ (gap ++ ';' :: c)) =
      uncommented afterBlank text ++ tail ∧ ∀ d ∈ tail, isBlank d = true := by
  induction text generalizing afterBlank with
  | nil =>
      obtain ⟨d, gap, rfl⟩ := List.exists_cons_of_ne_nil hne
      rw [List.forall_mem_cons] at h
      have hd : d ≠ ';' := by
        rintro rfl
        exact absurd h.1 (by decide)
      refine ⟨d :: gap, ?_, List.forall_mem_cons.mpr h⟩
      rw [List.nil_append, List.cons_append]
      conv_lhs => rw [uncommented, if_neg (by simp [hd]), h.1, uncommented_blanks h.2]
      rfl
  | cons d text ih =>
      rw [List.cons_append, uncommented, uncommented]
      split
      · exact ⟨[], rfl, List.forall_mem_nil _⟩
      · obtain ⟨tail, he, htail⟩ := ih (isBlank d)
        exact ⟨tail, by rw [he, List.cons_append], htail⟩

theorem value_ne_nil {back : Text} (h : back.trimStart ≠ []) :
    (uncommented false back.trimStart).trimEnd ≠ [] := by
  obtain ⟨d, rest, he⟩ := List.exists_cons_of_ne_nil h
  have hd : isBlank d = false := Text.head?_trimStart back d (by rw [he]; rfl)
  rw [he, uncommented, if_neg (by simp)]
  exact (Text.trimEnd_append_cons hd [] _).symm ▸ List.cons_ne_nil d _

namespace LineForm

/-- A comment behind a line without blanks at its ends changes the value if there is none. -/
theorem ofTrimmed_append_comment {text key value gap : Text} (c : Text)
    (h : ofTrimmed text = .assignment key value) (hne : gap ≠ [])
    (hgap : ∀ d ∈ gap, isBlank d = true) :
    ∃ value', ofTrimmed (text ++ (gap ++ ';' :: c)) = .assignment key value' ∧
      (value' = value ↔ value ≠ []) := by
  obtain ⟨hstart, front, back, hcut, hkey, rfl⟩ := ofTrimmed_eq_assignment_iff.mp h
  have hhead : (text ++ (gap ++ ';' :: c)).head? = text.head? := by
    obtain ⟨d, rfl, -⟩ := Text.cut?_eq_some_iff.mp hcut
    simp
  refine ⟨_, ofTrimmed_eq_assignment_iff.mpr ⟨hhead ▸ hstart, front, _,
    Text.cut?_append hcut _, hkey, rfl⟩, ?_⟩
  by_cases hback : back.trimStart = []
  · -- only blanks stand before the `;`, and they are trimmed before it is looked for
    have hblank : ∀ d ∈ back, isBlank d = true := List.dropWhile_eq_nil_iff.mp hback
    have hrest : (back ++ (gap ++ ';' :: c)).trimStart = ';' :: c := by
      rw [Text.trimStart_append_of_blank hblank, Text.trimStart_append_of_blank hgap]
      exact Text.trimStart_eq_self (by simp; decide)
    have hvalue := value_ne_nil (hrest ▸ List.cons_ne_nil ';' c)
    rw [hback]
    exact ⟨fun he => absurd he hvalue, fun he => absurd rfl he⟩
  · obtain ⟨tail, he, htail⟩ := uncommented_append hne hgap false back.trimStart c
    rw [Text.trimStart_append hback, he, Text.trimEnd_append_of_blank htail]
    exact ⟨fun _ => value_ne_nil hback, fun _ => rfl⟩

theorem trim_append_comment {line : Text} (h : line.trim ≠ []) (c : Text) :
    ∃ gap, gap ≠ [] ∧ (∀ d ∈ gap, isBlank d = true) ∧
      (line ++ ' ' :: ';' :: c).trim = line.trim ++ (gap ++ ';' :: c.trimEnd) := by
  have hline : line.trimStart ≠ [] := by
    intro he
    rw [Text.trim, he] at h
    exact h rfl
  obtain ⟨tail, he, htail⟩ := Text.exists_eq_trimEnd_append line.trimStart
  refine ⟨tail ++ [' '], by simp, ?_, ?_⟩
  · rw [List.forall_mem_append]
    exact ⟨htail, by simp; decide⟩
  · calc
      (line ++ ' ' :: ';' :: c).trim = ((line.trimStart ++ [' ']) ++ ';' :: c).trimEnd := by
        rw [Text.trim, Text.trimStart_append hline, List.append_assoc, List.singleton_append]
      _ = line.trimStart ++ [' '] ++ ';' :: c.trimEnd := Text.trimEnd_append_cons (by decide) _ c
      _ = line.trim ++ ((tail ++ [' ']) ++ ';' :: c.trimEnd) := by
        rw [Text.trim, ← List.append_assoc, ← List.append_assoc, ← he]

theorem ofLine_append_of_blank {tail : Text} (h : ∀ c ∈ tail, isBlank c = true) (line : Text) :
    ofLine (line ++ tail) = ofLine line := by
  rw [ofLine, Text.trim_append_of_blank h, ofLine]

theorem ofLine_append_comment {line key value : Text} (c : Text)
    (h : ofLine line = .assignment key value) :
    ∃ value', ofLine (line ++ ' ' :: ';' :: c) = .assignment key value' ∧
      (value' = value ↔ value ≠ []) := by
  have hline : line.trim ≠ [] := by
    intro he
    rw [ofLine, he] at h
    cases h
  obtain ⟨gap, hne, hgap, htrim⟩ := trim_append_comment hline c
  obtain ⟨value', hform, hvalue⟩ := ofTrimmed_append_comment c.trimEnd h hne hgap
  exact ⟨value', by rw [ofLine, htrim, hform], hvalue⟩

end LineForm

/-! ## A line in its text -/

/-- A text in three parts: the lines above a line, that line, and what follows from its end
on. -/
structure CutAtLine (before line after : Text) : Prop where
  start : before = [] ∨ before.getLast? = some '\n'
  newline : '\n' ∉ line
  stop : after = [] ∨ (∃ rest, after = '\n' :: rest) ∨ ∃ rest, after = '\r' :: '\n' :: rest

namespace CutAtLine

open Reading

variable {before line after : Text}

theorem exists_pieces (h : CutAtLine before line after) :
    ∃ tail below, (∀ c ∈ tail, isBlank c = true) ∧
      ∀ front : Text, '\n' ∉ front → pieces '\n' (front ++ after) = (front ++ tail) :: below := by
  rcases h.stop with rfl | ⟨rest, rfl⟩ | ⟨rest, rfl⟩
  · refine ⟨[], [], List.forall_mem_nil _, fun front hfront => ?_⟩
    rw [List.append_nil, pieces_of_not_mem hfront]
  · refine ⟨[], pieces '\n' rest, List.forall_mem_nil _, fun front hfront => ?_⟩
    rw [List.append_nil, pieces_append_cons hfront]
  · refine ⟨['\r'], pieces '\n' rest, by simp; decide, fun front hfront => ?_⟩
    have hcr : '\n' ∉ front ++ ['\r'] := by simp [hfront]
    rw [List.append_cons, pieces_append_cons hcr]

/-- What is added at the end of a line changes that line alone. -/
theorem exists_linesOf (h : CutAtLine before line after) :
    ∃ above stem tail below, above.length = before.count '\n' ∧
      (∀ c ∈ tail, isBlank c = true) ∧
      ∀ extra : Text, '\n' ∉ extra → extra.head? ≠ some '\uFEFF' →
        linesOf (before ++ (line ++ extra) ++ after) =
          above ++ (stem ++ (extra ++ tail)) :: below := by
  obtain ⟨tail, below, htail, hpieces⟩ := h.exists_pieces
  rcases h.start with rfl | hlast
  · refine ⟨[], withoutMark line, tail, below, rfl, htail, fun extra hextra hmark => ?_⟩
    have hrest : (extra ++ after).head? ≠ some '\uFEFF' := by
      cases extra with
      | nil => rcases h.stop with rfl | ⟨rest, rfl⟩ | ⟨rest, rfl⟩ <;> simp
      | cons d extra => simpa using hmark
    have hstem : '\n' ∉ withoutMark line ++ extra := by
      rw [List.mem_append, not_or]
      exact ⟨fun hmem => h.newline (mem_of_mem_withoutMark hmem), hextra⟩
    rw [linesOf, List.nil_append, List.append_assoc, withoutMark_append hrest,
      ← List.append_assoc, hpieces _ hstem, List.nil_append, List.append_assoc]
  · obtain ⟨front, rfl⟩ := List.getLast?_eq_some_iff.mp hlast
    refine ⟨linesOf front, line, tail, below, ?_, htail, fun extra hextra _ => ?_⟩
    · simp [length_linesOf]
    · have hfront : '\n' ∉ line ++ extra := by
        rw [List.mem_append, not_or]
        exact ⟨h.newline, hextra⟩
      have hcut : front ++ ['\n'] ++ (line ++ extra) ++ after =
          front ++ '\n' :: (line ++ extra ++ after) := by simp
      rw [linesOf, linesOf, hcut, withoutMark_append (by simp), pieces_append_separator,
        hpieces _ hfront, List.append_assoc]

end CutAtLine

namespace Reading

/-! ## A comment added to a text -/

theorem ofText_of_linesOf {source line key value : Text} {above below : List Text}
    (hlines : linesOf source = above ++ line :: below)
    (h : LineForm.ofLine line = .assignment key value) :
    ofText source =
      (ofLines [] 1 above).followedBy
        ⟨⟨sectionBelow [] above, key, value, 1 + above.length⟩ ::
            (ofLines (sectionBelow [] above) (1 + above.length + 1) below).triples,
          (ofLines (sectionBelow [] above) (1 + above.length + 1) below).diagnostics⟩ := by
  rw [linesOf] at hlines
  rw [ofText, hlines, ofLines_append, ofLines, h]

theorem ofLine_of_mem {source line : Text} {above below : List Text} {t : Triple}
    (hlines : linesOf source = above ++ line :: below) (ht : t ∈ (ofText source).triples)
    (hat : t.line = above.length + 1) : LineForm.ofLine line = .assignment t.key t.value := by
  obtain ⟨i, line', hline, hset⟩ := mem_ofText_triples_iff.mp ht
  obtain rfl : i = above.length := Nat.succ.inj ((settingOf?_line hset).symm.trans hat)
  obtain rfl : line = line' := by simpa [hlines] using hline
  unfold settingOf? at hset
  split at hset
  · rename_i hform
    cases hset
    exact hform
  · cases hset

/-- A comment added behind a setting changes what is read exactly if the setting has no
value. -/
theorem ofText_append_comment_iff {before line after c : Text} {t : Triple}
    (hcut : CutAtLine before line after) (hc : '\n' ∉ c)
    (ht : t ∈ (ofText (before ++ line ++ after)).triples)
    (hat : t.line = before.count '\n' + 1) :
    ofText (before ++ (line ++ ' ' :: ';' :: c) ++ after) = ofText (before ++ line ++ after) ↔
      t.value ≠ [] := by
  obtain ⟨above, stem, tail, below, hlength, htail, hlines⟩ := hcut.exists_linesOf
  have hplain := hlines [] (by simp) (by simp)
  have hcomment := hlines (' ' :: ';' :: c) (by simpa using hc) (by simp)
  rw [List.append_nil] at hplain
  have hform := ofLine_of_mem hplain ht (hlength ▸ hat)
  have hstem : LineForm.ofLine stem = .assignment t.key t.value := by
    rwa [List.nil_append, LineForm.ofLine_append_of_blank htail] at hform
  obtain ⟨value, hform', hvalue⟩ := LineForm.ofLine_append_comment (c ++ tail) hstem
  rw [ofText_of_linesOf hplain hform, ofText_of_linesOf hcomment hform', ← hvalue]
  simp [followedBy]

/-- The comment is left out behind a value, with whatever blanks and comments are there. -/
theorem ofText_append_comment_value :
    let before : Text := "[S]\n"
    let line : Text := "field = A\t; one"
    let after : Text := "\r\n"
    let t : Triple := ⟨"S", "field", "A", 2⟩
    t ∈ (ofText (before ++ line ++ after)).triples ∧
      ofText (before ++ (line ++ ' ' :: ';' :: " two") ++ after) =
        ofText (before ++ line ++ after) := by
  intro before line after t
  have hcut : CutAtLine before line after := by
    refine ⟨.inr (by decide +kernel), by decide +kernel, .inr (.inr ⟨[], by decide +kernel⟩)⟩
  have ht : t ∈ (ofText (before ++ line ++ after)).triples := by decide +kernel
  refine ⟨ht, ?_⟩
  exact (ofText_append_comment_iff hcut (by decide +kernel) ht (by decide +kernel)).mpr
    (by decide +kernel)

theorem ofText_append_comment_empty :
    ¬ ∀ (before line after c : Text) (t : Triple), CutAtLine before line after → '\n' ∉ c →
      t ∈ (ofText (before ++ line ++ after)).triples → t.line = before.count '\n' + 1 →
      ofText (before ++ (line ++ ' ' :: ';' :: c) ++ after) =
        ofText (before ++ line ++ after) := by
  intro h
  have hcut : CutAtLine "[S]\n" "field=" "\n" := by
    refine ⟨.inr (by decide +kernel), by decide +kernel, .inr (.inl ⟨[], by decide +kernel⟩)⟩
  have hread := h "[S]\n" "field=" "\n" " nothing" ⟨"S", "field", [], 2⟩ hcut
    (by decide +kernel) (by decide +kernel) (by decide +kernel)
  revert hread
  decide +kernel

end Reading

end EnumCodegen
