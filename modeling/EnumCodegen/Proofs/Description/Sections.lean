import EnumCodegen.Proofs.Description.Values

/-! # The sections of a description

A section is opened by the first key under its header. A header that no key follows before
the next header opens none. -/

namespace EnumCodegen

namespace Reading

def linesOf (source : Text) : List Text := pieces '\n' (withoutMark source)

/-! ## Headers with a key -/

/-- Lines of which one sets a key, under no header but the one above them all. -/
def Keyed (lines : List Text) : Prop :=
  ∃ between setting after, lines = between ++ setting :: after ∧
    (∀ line ∈ between, ∀ name, LineForm.ofLine line ≠ .header name) ∧
    ∃ key value, LineForm.ofLine setting = .assignment key value

/-- Lines of which one is a header of the name that a key stands under. -/
def Opens (lines : List Text) (name : Text) : Prop :=
  ∃ before header after, lines = before ++ header :: after ∧
    LineForm.ofLine header = .header name ∧ Keyed after

section Lines

variable {line name : Text} {lines : List Text}

theorem not_keyed_nil : ¬ Keyed [] := by
  rintro ⟨between, setting, after, he, -⟩
  simp at he

theorem not_opens_nil : ¬ Opens [] name := by
  rintro ⟨before, header, after, he, -⟩
  simp at he

theorem keyed_cons_of_assignment {key value : Text}
    (h : LineForm.ofLine line = .assignment key value) : Keyed (line :: lines) :=
  ⟨[], line, lines, rfl, List.forall_mem_nil _, key, value, h⟩

theorem not_keyed_cons_of_header (h : LineForm.ofLine line = .header name) :
    ¬ Keyed (line :: lines) := by
  rintro ⟨between, setting, after, he, hbetween, key, value, hsetting⟩
  cases between with
  | nil =>
      obtain ⟨rfl, -⟩ := List.cons.inj he
      rw [h] at hsetting
      cases hsetting
  | cons l between =>
      obtain ⟨rfl, -⟩ := List.cons.inj he
      exact hbetween line List.mem_cons_self name h

/-- A line that is neither a header nor sets a key changes nothing. -/
theorem keyed_cons_iff (hheader : ∀ name, LineForm.ofLine line ≠ .header name)
    (hsetting : ∀ key value, LineForm.ofLine line ≠ .assignment key value) :
    Keyed (line :: lines) ↔ Keyed lines := by
  constructor
  · rintro ⟨between, setting, after, he, hbetween, key, value, h⟩
    cases between with
    | nil =>
        obtain ⟨rfl, -⟩ := List.cons.inj he
        exact absurd h (hsetting key value)
    | cons l between =>
        obtain ⟨-, rfl⟩ := List.cons.inj he
        exact ⟨between, setting, after, rfl, (List.forall_mem_cons.mp hbetween).2, key, value, h⟩
  · rintro ⟨between, setting, after, rfl, hbetween, h⟩
    exact ⟨line :: between, setting, after, rfl, List.forall_mem_cons.mpr ⟨hheader, hbetween⟩, h⟩

theorem opens_cons_iff :
    Opens (line :: lines) name ↔
      LineForm.ofLine line = .header name ∧ Keyed lines ∨ Opens lines name := by
  constructor
  · rintro ⟨before, header, after, he, hheader, hkeyed⟩
    cases before with
    | nil =>
        obtain ⟨rfl, rfl⟩ := List.cons.inj he
        exact .inl ⟨hheader, hkeyed⟩
    | cons l before =>
        obtain ⟨-, rfl⟩ := List.cons.inj he
        exact .inr ⟨before, header, after, rfl, hheader, hkeyed⟩
  · rintro (⟨hheader, hkeyed⟩ | ⟨before, header, after, rfl, hheader, hkeyed⟩)
    · exact ⟨[], line, lines, rfl, hheader, hkeyed⟩
    · exact ⟨line :: before, header, after, rfl, hheader, hkeyed⟩

end Lines

/-- The settings that are read are those of the section at the start and of the sections
whose header has a key. -/
theorem exists_sectionName_ofLines_iff {name sectionName : Text} {n : Nat} {lines : List Text} :
    (∃ t ∈ (ofLines sectionName n lines).triples, t.sectionName = name) ↔
      sectionName = name ∧ Keyed lines ∨ Opens lines name := by
  induction lines generalizing sectionName n with
  | nil => simp [ofLines, not_keyed_nil, not_opens_nil]
  | cons line lines ih =>
      rw [opens_cons_iff]
      cases hform : LineForm.ofLine line with
      | silent | unclosedHeader | missingSeparator =>
          have hkeyed : Keyed (line :: lines) ↔ Keyed lines :=
            keyed_cons_iff (by simp [hform]) (by simp [hform])
          simp [ofLines, hform, ih, hkeyed]
      | header name' =>
          simp [ofLines, hform, ih, not_keyed_cons_of_header hform]
      | assignment key value =>
          have hkeyed : Keyed (line :: lines) := keyed_cons_of_assignment hform
          simp only [ofLines, hform, List.exists_mem_cons_iff, ih, hkeyed, and_true, reduceCtorEq,
            false_and, false_or]
          tauto

theorem exists_sectionName_iff {source name : Text} (hname : name ≠ []) :
    (∃ t ∈ (ofText source).triples, t.sectionName = name) ↔ Opens (linesOf source) name := by
  rw [ofText, exists_sectionName_ofLines_iff]
  simp [hname.symm, linesOf]

end Reading

/-! ## Sections that settings open -/

def Description.names (d : Description) : List Text := d.enumerations.map Enumeration.name

theorem Description.names_updateLast? {d d' : Description} {f : Enumeration → Enumeration}
    (h : d.updateLast? f = some d') (hf : ∀ e, (f e).name = e.name) : d'.names = d.names := by
  obtain ⟨front, e, hfront, rfl⟩ := updateLast?_eq_some_iff.mp h
  simp [names, hfront, hf]

theorem Description.names_set? {d d' : Description} {key : Key} {value : Text}
    (h : d.set? key value = some d') : d'.names = d.names := by
  unfold set? at h
  split at h
  case h_10 | h_11 | h_12 | h_13 => exact names_updateLast? h fun _ => rfl
  all_goals
    cases h
    rfl

namespace Builder

variable {b b' : Builder} {t : Triple} {name : Text}

theorem names_enter (b : Builder) (sectionName : Text) :
    (b.enter sectionName).description.names =
      if sectionName ≠ [] ∧ sectionName ≠ b.openName then b.description.names ++ [sectionName]
      else b.description.names := by
  unfold enter
  split <;> simp [Description.names]

def IsOpen (b : Builder) : Prop := b.openName ≠ [] → b.openName ∈ b.description.names

theorem IsOpen.enter (h : b.IsOpen) (sectionName : Text) : (b.enter sectionName).IsOpen := by
  intro hne
  rw [names_enter]
  unfold Builder.enter at hne ⊢
  split
  · simp
  · rename_i hs
    rw [if_neg hs] at hne
    exact h hne

theorem IsOpen.mem_names_enter_iff (h : b.IsOpen) (hname : name ≠ []) (sectionName : Text) :
    name ∈ (b.enter sectionName).description.names ↔
      name ∈ b.description.names ∨ sectionName = name := by
  rw [names_enter]
  split
  · simp [eq_comm]
  · rename_i hs
    refine ⟨.inl, fun hmem => hmem.elim id ?_⟩
    rintro rfl
    have hopen : sectionName = b.openName := by
      by_contra hne
      exact hs ⟨hname, hne⟩
    rw [hopen] at hname ⊢
    exact h hname

theorem apply_eq_ok (h : b.apply t = (.ok (), b')) :
    b'.description.names = (b.enter t.sectionName).description.names ∧
      b'.openName = (b.enter t.sectionName).openName := by
  rcases apply_eq_ok_iff.mp h with ⟨_, rfl⟩ | ⟨key, d, _, hset, rfl⟩
  · exact ⟨rfl, rfl⟩
  · exact ⟨Description.names_set? hset, rfl⟩

/-- The enumerations in the end are those at the start and the sections of the settings. -/
theorem IsOpen.mem_names_run_iff {triples : List Triple} (h : b.IsOpen)
    (hrun : b.run triples = .ok b') (hname : name ≠ []) :
    name ∈ b'.description.names ↔
      name ∈ b.description.names ∨ ∃ t ∈ triples, t.sectionName = name := by
  induction triples generalizing b with
  | nil =>
      cases hrun
      simp
  | cons t triples ih =>
      obtain ⟨mid, hstep, hrest⟩ := run_cons_eq_ok_iff.mp hrun
      obtain ⟨hnames, hopen⟩ := apply_eq_ok hstep
      have hmid : mid.IsOpen := by
        rw [IsOpen, hnames, hopen]
        exact h.enter t.sectionName
      rw [ih hmid hrest, hnames, h.mem_names_enter_iff hname, List.exists_mem_cons_iff, or_assoc]

end Builder

/-- The enumerations of a description are the sections whose header has a key. -/
theorem Description.mem_names_ofText_iff {source name : Text} {d : Description}
    (h : ofText source = .ok d) (hname : name ≠ []) :
    name ∈ d.names ↔ Reading.Opens (Reading.linesOf source) name := by
  obtain ⟨b, hrun, rfl⟩ := ofTriples_eq_ok_iff.mp h
  have hstart : Builder.start.IsOpen := fun hne => absurd rfl hne
  rw [← Reading.exists_sectionName_iff hname, hstart.mem_names_run_iff hrun hname]
  simp [Builder.start, names]

end EnumCodegen
