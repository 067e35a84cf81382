import EnumCodegen.Log.Event
import EnumCodegen.Proofs.Description.Sections
import EnumCodegen.Proofs.Emission.Tables

/-! # The sections of a description in the generated files

No text that is read goes over the end of a line, so the generated files hold one part for
every section that is opened. -/

namespace EnumCodegen

open Text

/-! ## Texts on one line -/

namespace Entry

theorem splitBefore_subset (c : Char) (text : Text) :
    (splitBefore c text).1 ⊆ text ∧ ∀ back ∈ (splitBefore c text).2, back ⊆ text := by
  unfold splitBefore
  split
  · exact ⟨List.Subset.refl _, by simp⟩
  · exact ⟨List.Subset.refl _, by simp⟩
  · refine ⟨List.takeWhile_subset _, fun back hback => ?_⟩
    obtain rfl := Option.some.inj hback
    exact (List.dropWhile_suffix _).subset

/-- An entry is made from the characters of its value. -/
theorem subset_of_mem_texts_ofText {value text : Text} (h : text ∈ (ofText value).texts) :
    text ⊆ value := by
  have htrim : ∀ text : Text, text.trim ⊆ text := fun text c hc => mem_of_mem_trim hc
  have hdeclarator := List.Subset.trans (splitBefore_subset '(' value.trim).1 (htrim value)
  have hpayload := (splitBefore_subset '(' value.trim).2
  have hname := (splitBefore_subset '=' (splitBefore '(' value.trim).1).1
  simp only [texts, ofText, List.mem_cons, Option.mem_toList, Option.map_eq_some_iff] at h
  rcases h with rfl | rfl | ⟨payload, hp, rfl⟩
  · exact List.Subset.trans (htrim _) (List.Subset.trans hname hdeclarator)
  · exact List.Subset.trans (htrim _) hdeclarator
  · exact List.Subset.trans (htrim _) (List.Subset.trans (hpayload payload hp) (htrim value))

end Entry

namespace Description

variable {d d' : Description} {value : Text}

theorem newline_not_mem_nonEmpty? (h : '\n' ∉ value) : ∀ text ∈ nonEmpty? value, '\n' ∉ text := by
  intro text ht
  unfold nonEmpty? at ht
  split at ht
  · cases ht
  · obtain rfl := Option.some.inj ht
    exact h

theorem SingleLine.updateLast? {f : Enumeration → Enumeration} (h : d.SingleLine)
    (hu : d.updateLast? f = some d') (hf : ∀ e : Enumeration, e.SingleLine → (f e).SingleLine) :
    d'.SingleLine := by
  obtain ⟨front, e, hfront, rfl⟩ := updateLast?_eq_some_iff.mp hu
  have hnew := hf e (h.enumeration (by simp [hfront]))
  intro text ht
  simp only [texts, List.flatMap_append, List.mem_append, List.flatMap_singleton] at ht
  rcases ht with ht | ht | ht
  · exact h text (by simp only [texts, List.mem_append]; tauto)
  · exact h text (by simp only [texts, List.mem_append, hfront, List.flatMap_append]; tauto)
  · exact hnew text ht

/-- A setting adds a value without line feeds to texts without line feeds. -/
theorem SingleLine.set? {key : Key} (h : d.SingleLine) (hvalue : '\n' ∉ value)
    (hset : d.set? key value = some d') : d'.SingleLine := by
  have hoption := newline_not_mem_nonEmpty? hvalue
  cases key with
  | storageType | traits | traitsCondition =>
      refine h.updateLast? hset fun e he => ?_
      simp only [Enumeration.SingleLine, Enumeration.texts, List.forall_mem_cons,
        List.forall_mem_append, Option.mem_toList] at he ⊢
      tauto
  | field =>
      refine h.updateLast? hset fun e he => ?_
      have hentry : ∀ text ∈ (Entry.ofText value).texts, '\n' ∉ text := fun text ht hn =>
        hvalue (Entry.subset_of_mem_texts_ofText ht hn)
      simp only [Enumeration.SingleLine, Enumeration.texts, List.forall_mem_cons,
        List.forall_mem_append, List.flatMap_append, List.flatMap_singleton] at he ⊢
      tauto
  | _ =>
      obtain rfl := Option.some.inj hset
      simp only [SingleLine, texts, List.flatMap_cons, List.flatMap_nil, List.forall_mem_append,
        List.forall_mem_singleton, Option.mem_toList] at h ⊢
      tauto

end Description

namespace Builder

variable {b b' : Builder}

theorem singleLine_enter {sectionName : Text} (h : b.description.SingleLine)
    (hname : '\n' ∉ sectionName) : (b.enter sectionName).description.SingleLine := by
  unfold enter
  split
  · intro text ht
    simp only [Description.texts, List.flatMap_append, List.mem_append] at ht
    rcases ht with ht | ht | ht
    · exact h text (by simp only [Description.texts, List.mem_append]; tauto)
    · exact h text (by simp only [Description.texts, List.mem_append]; tauto)
    · obtain rfl : text = sectionName := by simpa [Enumeration.texts] using ht
      exact hname
  · exact h

theorem singleLine_apply {t : Triple} (h : b.description.SingleLine) (ht : t.Writable)
    (ha : b.apply t = (.ok (), b')) : b'.description.SingleLine := by
  have henter := singleLine_enter h ht.sectionName.newline
  rcases apply_eq_ok_iff.mp ha with ⟨_, rfl⟩ | ⟨key, d, _, hset, rfl⟩
  · exact henter
  · exact henter.set? ht.value.newline hset

theorem singleLine_run {triples : List Triple} (h : b.description.SingleLine)
    (ht : ∀ t ∈ triples, t.Writable) (hrun : b.run triples = .ok b') :
    b'.description.SingleLine := by
  induction triples generalizing b with
  | nil =>
      cases hrun
      exact h
  | cons t triples ih =>
      rw [List.forall_mem_cons] at ht
      obtain ⟨mid, hstep, hrest⟩ := run_cons_eq_ok_iff.mp hrun
      exact ih (singleLine_apply h ht.1 hstep) ht.2 hrest

end Builder

/-- No text of a description that is read goes over the end of a line. -/
theorem Description.singleLine_ofText {source : Text} {d : Description}
    (h : ofText source = .ok d) : d.SingleLine := by
  obtain ⟨b, hrun, rfl⟩ := ofTriples_eq_ok_iff.mp h
  exact Builder.singleLine_run (by decide) (fun _ => Reading.writable_of_mem) hrun

/-! ## Sections in the files -/

namespace Emission

/-- A name is that of an enumeration exactly if a key stands under a header of the name.
Every enumeration has its part of the two files, with its tables. One without entries has
stubs there instead, and is warned of. -/
theorem sections_kept {source : Text} {g : Emission}
    (h : Description.ofText source = .ok g.description) (hu : ∀ c ∈ g.unit, c = ' ' ∨ c = '\t') :
    (∀ name, name ≠ [] →
      (name ∈ g.description.names ↔ Reading.Opens (Reading.linesOf source) name)) ∧
    g.declaration =
      (Declaration.head g.description g.token g.command?).render g.unit ++
        g.declarationParts.flatten ++ (Declaration.tail g.description g.token).render g.unit ∧
    g.definition =
      (Definition.head g.description.condition? g.declarationFile g.command?).render g.unit ++
        g.definitionParts.flatten ∧
    ∀ (k : Nat) (e : Enumeration), g.description.enumerations[k]? = some e →
      ∃ declaration definition,
        g.declarationParts[k]? = some declaration ∧ g.definitionParts[k]? = some definition ∧
        e.Tabulated g.unit (Text.lines declaration) (Text.lines definition) ∧
        (e.entries = [] →
          e.Stubbed g.description.condition? g.unit (Text.lines definition) ∧
            Event.noEntries e.name ∈ g.description.emitEvents) := by
  have hd : g.description.SingleLine := Description.singleLine_ofText h
  refine ⟨fun name hname => Description.mem_names_ofText_iff h hname, g.declaration_eq_parts,
    g.definition_eq_parts, fun k e hk => ?_⟩
  obtain ⟨declaration, definition, hdeclaration, hdefinition, htables, hstubs⟩ :=
    exists_parts hd hu hk
  refine ⟨declaration, definition, hdeclaration, hdefinition, htables, fun hnone =>
    ⟨hstubs hnone, ?_⟩⟩
  have he : e ∈ g.description.enumerations := List.mem_of_getElem? hk
  exact List.mem_flatMap.mpr ⟨e, he, by simp [Enumeration.warnings, hnone]⟩

/-- Of three headers the one with nothing but a comment under it opens no section, and one
with a key that is not known opens one without entries. -/
theorem sections_kept_unknown_key :
    let source : Text := "[A]\n; empty\n[B]\nfield=X\n[C]\n[D\ncolour: red\n"
    let e : Enumeration := { name := "C" }
    let g : Emission :=
      { description := { enumerations := [{ name := "B", entries := [.ofText "X"] }, e] }
        token := "t", title := "t" }
    Description.ofText source = .ok g.description ∧ (∀ c ∈ g.unit, c = ' ' ∨ c = '\t') ∧
      ("A" : Text) ≠ [] ∧ ¬ Reading.Opens (Reading.linesOf source) "A" ∧
      ("C" : Text) ≠ [] ∧ Reading.Opens (Reading.linesOf source) "C" ∧
      g.description.enumerations[1]? = some e ∧ e.entries = [] ∧
      ∃ declaration definition,
        g.declarationParts[1]? = some declaration ∧ g.definitionParts[1]? = some definition ∧
        e.Tabulated g.unit (Text.lines declaration) (Text.lines definition) ∧
        e.Stubbed none g.unit (Text.lines definition) ∧
        Event.noEntries e.name ∈ g.description.emitEvents := by
  intro source e g
  have h : Description.ofText source = .ok g.description := by decide +kernel
  have hu : ∀ c ∈ g.unit, c = ' ' ∨ c = '\t' := by simp [g]
  obtain ⟨hnames, -, -, hparts⟩ := sections_kept h hu
  have hA : ("A" : Text) ≠ [] := by decide +kernel
  have hC : ("C" : Text) ≠ [] := by decide +kernel
  obtain ⟨declaration, definition, hdeclaration, hdefinition, htables, hstubs⟩ := hparts 1 e rfl
  exact ⟨h, hu, hA, (hnames _ hA).not.mp (by decide +kernel), hC,
    (hnames _ hC).mp (by decide +kernel), rfl, rfl, declaration, definition, hdeclaration,
    hdefinition, htables, hstubs rfl⟩

end Emission

/-- Not every header opens a section: one that stands alone is read and leaves no trace. -/
theorem Description.header_alone_dropped :
    ¬ ∀ (source : Text) (d : Description), ofText source = .ok d →
      ∀ line ∈ Reading.linesOf source, ∀ name, LineForm.ofLine line = .header name → name ≠ [] →
        name ∈ d.names := by
  intro h
  have hnone : ("E" : Text) ∈ ({} : Description).names :=
    h "[E]\n" {} (by decide +kernel) "[E]" (by decide +kernel) "E" (by decide +kernel)
      (by decide +kernel)
  cases hnone

end EnumCodegen
