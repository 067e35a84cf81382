import EnumCodegen.Proofs.Description.Building
import EnumCodegen.Proofs.Description.Forms
import EnumCodegen.Proofs.Guard.Marker

/-! # The values of a description

Every section name, key and value that is read is a piece of one line, without blanks at
its ends and without the signs that end it in the line. The guard token of a description is
one of these values. -/

namespace EnumCodegen

/-! ## Comments -/

theorem mem_of_mem_uncommented {c : Char} {afterBlank : Bool} {text : Text}
    (h : c ∈ uncommented afterBlank text) : c ∈ text := by
  induction text generalizing afterBlank with
  | nil => exact h
  | cons d text ih =>
      unfold uncommented at h
      split at h
      · cases h
      · rcases List.mem_cons.mp h with rfl | h
        · exact List.mem_cons_self
        · exact List.mem_cons_of_mem _ (ih h)

theorem head?_uncommented (text : Text) : (uncommented false text).head? = text.head? := by
  cases text with
  | nil => rfl
  | cons c text => simp [uncommented]

/-- No `;` follows a blank, so no part of a text is a comment. -/
def CommentFree (text : Text) : Prop :=
  ∀ front c back, text = front ++ c :: ';' :: back → isBlank c = false

theorem CommentFree.tail {text : Text} {c : Char} (h : CommentFree (c :: text)) :
    CommentFree text := by
  intro front d back he
  exact h (c :: front) d back (congrArg (c :: ·) he)

theorem CommentFree.of_append {text back : Text} (h : CommentFree (text ++ back)) :
    CommentFree text := by
  intro front c rest he
  apply h front c (rest ++ back)
  simp [he]

theorem commentFree_uncommented (afterBlank : Bool) (text : Text) :
    CommentFree (uncommented afterBlank text) := by
  induction text generalizing afterBlank with
  | nil =>
      intro front c back h
      simp [uncommented] at h
  | cons d text ih =>
      intro front c back h
      unfold uncommented at h
      split at h
      · simp at h
      cases front with
      | cons _ front => exact ih _ front c back (List.cons.inj h).2
      | nil =>
          obtain ⟨rfl, hrest⟩ := List.cons.inj h
          cases text with
          | nil => simp [uncommented] at hrest
          | cons e text =>
              unfold uncommented at hrest
              split at hrest
              · simp at hrest
              · rename_i hkept
                obtain ⟨rfl, _⟩ := List.cons.inj hrest
                simpa using hkept

/-! ## What a line says -/

/-- A section name that a header can have. -/
structure IsSectionName (name : Text) : Prop where
  trimmed : name.Trimmed
  bracket : ']' ∉ name
  newline : '\n' ∉ name

/-- A key that a line can start with. -/
structure IsKey (key : Text) : Prop where
  trimmed : key.Trimmed
  separator : '=' ∉ key ∧ ':' ∉ key
  start : ∀ c ∈ key.head?, c ≠ ';' ∧ c ≠ '#' ∧ c ≠ '['
  newline : '\n' ∉ key

/-- A value that a line can end with. -/
structure IsValue (value : Text) : Prop where
  trimmed : value.Trimmed
  comment : CommentFree value
  newline : '\n' ∉ value

namespace LineForm

open Text

theorem trimmed_of_ofLine {line key value : Text} (h : ofLine line = .assignment key value) :
    value.Trimmed := by
  obtain ⟨_, front, back, _, _, rfl⟩ := ofTrimmed_eq_assignment_iff.mp h
  apply Text.trimmed_trimEnd
  rw [head?_uncommented]
  exact Text.head?_trimStart back

theorem mem_of_ofLine {line key value : Text} {c : Char}
    (h : ofLine line = .assignment key value) (hc : c ∈ value) : c ∈ line := by
  obtain ⟨_, front, back, hcut, _, rfl⟩ := ofTrimmed_eq_assignment_iff.mp h
  have hback : c ∈ back :=
    Text.mem_of_mem_trimStart (mem_of_mem_uncommented (Text.mem_of_mem_trimEnd hc))
  exact Text.mem_of_mem_trim (Text.mem_of_cut?_eq_some hcut hback)

section Read

variable {line name key value : Text}

theorem isSectionName_of_ofLine (h : ofLine line = .header name) (hline : '\n' ∉ line) :
    IsSectionName name := by
  obtain ⟨front, back, htrim, hfront, rfl⟩ := ofTrimmed_eq_header_iff.mp h
  have hmem : ∀ d ∈ front.trim, d ∈ front := fun d => mem_of_mem_trim
  refine ⟨trimmed_trim front, fun hb => hfront (hmem _ hb), fun hn => hline ?_⟩
  apply mem_of_mem_trim
  rw [htrim]
  exact List.mem_cons_of_mem _ (List.mem_append_left _ (hmem _ hn))

theorem isKey_of_ofLine (h : ofLine line = .assignment key value) (hline : '\n' ∉ line) :
    IsKey key := by
  obtain ⟨hstart, front, back, hcut, rfl, _⟩ := ofTrimmed_eq_assignment_iff.mp h
  obtain ⟨c, htext, _, hfront⟩ := cut?_eq_some_iff.mp hcut
  have hmem : ∀ d ∈ front.trim, d ∈ front := fun d => mem_of_mem_trim
  have hhead : ∀ d ∈ front.head?, d ∈ line.trim.head? := by
    intro d hd
    rw [htext]
    exact List.mem_head?_append_of_mem_head? hd
  have hkeep : front.trim.head? = front.head? :=
    head?_trim fun d hd => (trimmed_trim line).1 d (hhead d hd)
  refine ⟨trimmed_trim front, ⟨fun he => ?_, fun hc => ?_⟩, ?_, fun hn => hline ?_⟩
  · simpa [isSeparator] using hfront _ (hmem _ he)
  · simpa [isSeparator] using hfront _ (hmem _ hc)
  · intro d hd
    exact hstart d (hhead d (hkeep ▸ hd))
  · have hfrom : '\n' ∈ line.trim := htext ▸ List.mem_append_left _ (hmem _ hn)
    exact mem_of_mem_trim hfrom

theorem isValue_of_ofLine (h : ofLine line = .assignment key value) (hline : '\n' ∉ line) :
    IsValue value := by
  refine ⟨trimmed_of_ofLine h, ?_, fun hn => hline (mem_of_ofLine h hn)⟩
  obtain ⟨_, front, back, _, _, rfl⟩ := ofTrimmed_eq_assignment_iff.mp h
  obtain ⟨tail, he, _⟩ := exists_eq_trimEnd_append (uncommented false back.trimStart)
  exact (he ▸ commentFree_uncommented false back.trimStart).of_append

end Read

end LineForm

/-! ## What a text says -/

/-- A setting that can be written on lines of its own. -/
structure Triple.Writable (t : Triple) : Prop where
  sectionName : IsSectionName t.sectionName
  key : IsKey t.key
  value : IsValue t.value

namespace Reading

/-- Every setting that is read can be written down. -/
theorem writable_of_mem_ofLines {sectionName : Text} {n : Nat} {lines : List Text}
    (hname : IsSectionName sectionName) (hlines : ∀ line ∈ lines, '\n' ∉ line) :
    ∀ t ∈ (ofLines sectionName n lines).triples, t.Writable := by
  induction lines generalizing sectionName n with
  | nil => exact List.forall_mem_nil _
  | cons line lines ih =>
      rw [List.forall_mem_cons] at hlines
      obtain ⟨hline, hlines⟩ := hlines
      unfold ofLines
      split
      · exact ih hname hlines
      · rename_i name hform
        exact ih (LineForm.isSectionName_of_ofLine hform hline) hlines
      · exact ih hname hlines
      · exact ih hname hlines
      · rename_i key value hform
        rw [List.forall_mem_cons]
        exact ⟨⟨hname, LineForm.isKey_of_ofLine hform hline,
          LineForm.isValue_of_ofLine hform hline⟩, ih hname hlines⟩

theorem writable_of_mem {source : Text} {t : Triple} (h : t ∈ (ofText source).triples) :
    t.Writable := by
  have hstart : IsSectionName [] := ⟨⟨by simp, by simp⟩, List.not_mem_nil, List.not_mem_nil⟩
  exact writable_of_mem_ofLines hstart (fun line => not_mem_of_mem_pieces) t h

end Reading

/-! ## The guard token that a description sets -/

/-- The description that a text is read as, or the first setting refused. -/
def Description.ofText (source : Text) : Except ModelError Description :=
  Description.ofTriples (Reading.ofText source).triples

theorem Description.guardToken?_updateLast? {d d' : Description} {f : Enumeration → Enumeration}
    (h : d.updateLast? f = some d') : d'.guardToken? = d.guardToken? := by
  obtain ⟨front, e, _, rfl⟩ := updateLast?_eq_some_iff.mp h
  rfl

/-- A setting leaves the guard token alone or makes it its own value. -/
theorem Description.guardToken?_set? {d d' : Description} {key : Key} {value : Text}
    (h : d.set? key value = some d') :
    d'.guardToken? = d.guardToken? ∨ d'.guardToken? = nonEmpty? value := by
  unfold Description.set? at h
  split at h
  case h_3 =>
    cases h
    exact .inr rfl
  case h_10 | h_11 | h_12 | h_13 => exact .inl (guardToken?_updateLast? h)
  all_goals
    cases h
    exact .inl rfl

namespace Builder

theorem guardToken?_enter (b : Builder) (sectionName : Text) :
    (b.enter sectionName).description.guardToken? = b.description.guardToken? := by
  unfold enter
  split <;> rfl

theorem guardToken?_apply {b b' : Builder} {t : Triple} (h : b.apply t = (.ok (), b')) :
    b'.description.guardToken? = b.description.guardToken? ∨
      b'.description.guardToken? = nonEmpty? t.value := by
  rw [← guardToken?_enter b t.sectionName]
  rcases apply_eq_ok_iff.mp h with ⟨_, rfl⟩ | ⟨key, d, _, hset, rfl⟩
  · exact .inl rfl
  · exact Description.guardToken?_set? hset

theorem guardToken?_run {b b' : Builder} {triples : List Triple} (h : b.run triples = .ok b') :
    b'.description.guardToken? = b.description.guardToken? ∨
      ∃ t ∈ triples, b'.description.guardToken? = nonEmpty? t.value := by
  induction triples generalizing b with
  | nil =>
      cases h
      exact .inl rfl
  | cons t triples ih =>
      obtain ⟨mid, hstep, hrest⟩ := run_cons_eq_ok_iff.mp h
      rcases ih hrest with he | ⟨u, hu, he⟩
      · rcases guardToken?_apply hstep with hs | hs
        · exact .inl (he.trans hs)
        · exact .inr ⟨t, List.mem_cons_self, he.trans hs⟩
      · exact .inr ⟨u, List.mem_cons_of_mem _ hu, he⟩

end Builder

/-- A guard token that a text sets can be kept by a marker. -/
theorem Guard.keepable_of_ofText {source token : Text} {d : Description}
    (h : Description.ofText source = .ok d) (ht : d.guardToken? = some token) :
    Keepable token := by
  obtain ⟨b, hrun, rfl⟩ := Description.ofTriples_eq_ok_iff.mp h
  rcases Builder.guardToken?_run hrun with he | ⟨t, hmem, he⟩
  · rw [he] at ht
    cases ht
  · rw [he, nonEmpty?] at ht
    split at ht
    · cases ht
    · rename_i hne
      cases ht
      have hvalue := (Reading.writable_of_mem hmem).value
      exact ⟨hne, hvalue.newline, hvalue.trimmed⟩

/-- A text either sets no guard token or a non-empty one. -/
theorem Description.filter_guardToken? {source : Text} {d : Description}
    (h : Description.ofText source = .ok d) : d.guardToken?.filter (· ≠ []) = d.guardToken? := by
  cases ht : d.guardToken? with
  | none => rfl
  | some token => simp [(Guard.keepable_of_ofText h ht).ne_nil]

end EnumCodegen
