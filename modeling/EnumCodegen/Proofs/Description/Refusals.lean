import EnumCodegen.Proofs.Description.Sections

/-! # Settings that are refused

A setting that needs a section is refused while no section is open, and that is so as long
as no setting has named one. A setting that is refused leaves the builder as it was, so a
builder that goes on after refusals still knows its last enumeration by name. -/

namespace EnumCodegen

/-! ## Settings without a section -/

/-- A setting that says something about a section: one of its properties, or an entry. -/
def Triple.NeedsSection (t : Triple) : Prop :=
  ∃ key, Key.ofSpelling? t.key = some key ∧ (key.scope = .perSection ∨ key = .field)

/-- Why a setting that needs a section is refused where none is open. -/
def Triple.refusal (t : Triple) : ModelError :=
  if Key.ofSpelling? t.key = some .field then .entryOutsideSection t.value t.line
  else .keyOutsideSection t.key t.line

/-- A setting that needs a section, but neither it nor any setting before it names one. -/
structure Stray (past : List Triple) (t : Triple) : Prop where
  needs : t.NeedsSection
  nameless : ∀ u ∈ past ++ [t], u.sectionName = []

def HasStray (triples : List Triple) : Prop :=
  ∃ past t rest, triples = past ++ t :: rest ∧ Stray past t

def FirstStray (triples : List Triple) (t : Triple) : Prop :=
  ∃ past rest, triples = past ++ t :: rest ∧ Stray past t ∧
    ∀ front u back, past = front ++ u :: back → ¬ Stray front u

section Stray

variable {t u : Triple} {past triples : List Triple}

theorem stray_nil_iff : Stray [] t ↔ t.NeedsSection ∧ t.sectionName = [] := by
  constructor
  · rintro ⟨hneeds, hnameless⟩
    exact ⟨hneeds, hnameless t (by simp)⟩
  · rintro ⟨hneeds, hname⟩
    exact ⟨hneeds, by simpa using hname⟩

theorem stray_cons_iff : Stray (u :: past) t ↔ u.sectionName = [] ∧ Stray past t := by
  constructor
  · rintro ⟨hneeds, hnameless⟩
    rw [List.cons_append, List.forall_mem_cons] at hnameless
    exact ⟨hnameless.1, hneeds, hnameless.2⟩
  · rintro ⟨hname, hneeds, hnameless⟩
    refine ⟨hneeds, ?_⟩
    rw [List.cons_append, List.forall_mem_cons]
    exact ⟨hname, hnameless⟩

theorem not_hasStray_nil : ¬ HasStray [] := by
  rintro ⟨past, t, rest, he, -⟩
  simp at he

theorem not_firstStray_nil : ¬ FirstStray [] t := by
  rintro ⟨past, rest, he, -⟩
  simp at he

theorem hasStray_cons_iff :
    HasStray (u :: triples) ↔ u.sectionName = [] ∧ (u.NeedsSection ∨ HasStray triples) := by
  constructor
  · rintro ⟨past, t, rest, he, hstray⟩
    cases past with
    | nil =>
        obtain ⟨rfl, rfl⟩ := List.cons.inj he
        obtain ⟨hneeds, hname⟩ := stray_nil_iff.mp hstray
        exact ⟨hname, .inl hneeds⟩
    | cons v past =>
        obtain ⟨rfl, rfl⟩ := List.cons.inj he
        obtain ⟨hname, hstray⟩ := stray_cons_iff.mp hstray
        exact ⟨hname, .inr ⟨past, t, rest, rfl, hstray⟩⟩
  · rintro ⟨hname, hneeds | ⟨past, t, rest, rfl, hstray⟩⟩
    · exact ⟨[], u, triples, rfl, stray_nil_iff.mpr ⟨hneeds, hname⟩⟩
    · exact ⟨u :: past, t, rest, rfl, stray_cons_iff.mpr ⟨hname, hstray⟩⟩

/-- The first stray setting is the first of all, or else the first after one that needs no
section. -/
theorem firstStray_cons_iff :
    FirstStray (u :: triples) t ↔
      u.sectionName = [] ∧ (u.NeedsSection ∧ t = u ∨ ¬ u.NeedsSection ∧ FirstStray triples t) := by
  constructor
  · rintro ⟨past, rest, he, hstray, hfirst⟩
    cases past with
    | nil =>
        obtain ⟨rfl, rfl⟩ := List.cons.inj he
        obtain ⟨hneeds, hname⟩ := stray_nil_iff.mp hstray
        exact ⟨hname, .inl ⟨hneeds, rfl⟩⟩
    | cons v past =>
        obtain ⟨rfl, rfl⟩ := List.cons.inj he
        obtain ⟨hname, hstray⟩ := stray_cons_iff.mp hstray
        have hnone : ¬ u.NeedsSection := fun hneeds =>
          hfirst [] u past rfl (stray_nil_iff.mpr ⟨hneeds, hname⟩)
        refine ⟨hname, .inr ⟨hnone, past, rest, rfl, hstray, ?_⟩⟩
        rintro front w back rfl hw
        exact hfirst (u :: front) w back rfl (stray_cons_iff.mpr ⟨hname, hw⟩)
  · rintro ⟨hname, ⟨hneeds, rfl⟩ | ⟨hnone, past, rest, rfl, hstray, hfirst⟩⟩
    · refine ⟨[], triples, rfl, stray_nil_iff.mpr ⟨hneeds, hname⟩, ?_⟩
      intro front w back he
      simp at he
    · refine ⟨u :: past, rest, rfl, stray_cons_iff.mpr ⟨hname, hstray⟩, ?_⟩
      intro front w back he hw
      cases front with
      | nil =>
          obtain ⟨rfl, -⟩ := List.cons.inj he
          exact hnone hw.needs
      | cons v front =>
          obtain ⟨rfl, rfl⟩ := List.cons.inj he
          exact hfirst front w back rfl (stray_cons_iff.mp hw).2

theorem exists_firstStray_iff : (∃ t, FirstStray triples t) ↔ HasStray triples := by
  induction triples with
  | nil => simp [not_firstStray_nil, not_hasStray_nil]
  | cons u triples ih =>
      simp only [firstStray_cons_iff, hasStray_cons_iff, ← ih]
      by_cases hneeds : u.NeedsSection
      · simp [hneeds]
      · simp [hneeds]

end Stray

/-! ## What a refused setting leaves -/

namespace Builder

variable {b b' : Builder} {t : Triple} {e : ModelError}

theorem needsSection_iff {key : Key} (hk : Key.ofSpelling? t.key = some key) :
    t.NeedsSection ↔ key.scope ≠ .global := by
  rw [Triple.NeedsSection, hk]
  cases key <;> simp [Key.scope]

theorem refusal_eq {key : Key} (hk : Key.ofSpelling? t.key = some key)
    (hscope : key.scope ≠ .global) : refusal key t = t.refusal := by
  rw [refusal, Triple.refusal, hk]
  cases key <;> simp [Key.scope] at hscope ⊢

/-- A setting is refused if it needs a section and its own section is not opened either. -/
theorem apply_eq_error_iff :
    b.apply t = (.error e, b') ↔
      t.NeedsSection ∧ (b.enter t.sectionName).description.enumerations = [] ∧
        e = t.refusal ∧ b' = b.enter t.sectionName := by
  simp only [apply]
  cases hk : Key.ofSpelling? t.key with
  | none => simp [Triple.NeedsSection, hk]
  | some key =>
      rw [needsSection_iff hk]
      cases hd : (b.enter t.sectionName).description.set? key t.value with
      | some d =>
          simp only [hd, Prod.mk.injEq, reduceCtorEq, false_and, false_iff]
          rintro ⟨hscope, hnone, -⟩
          simp [Description.set?_eq_none_iff.mpr ⟨hscope, hnone⟩] at hd
      | none =>
          obtain ⟨hscope, hnone⟩ := Description.set?_eq_none_iff.mp hd
          simp [hd, hscope, hnone, refusal_eq hk hscope, eq_comm]

theorem enter_eq_self {sectionName : Text}
    (h : (b.enter sectionName).description.enumerations = []) : b.enter sectionName = b := by
  unfold enter at h ⊢
  split at h
  · simp at h
  · rename_i hs
    rw [if_neg hs]

/-- A setting that is refused changes nothing, in whatever state the builder is. -/
theorem eq_of_apply_error (h : b.apply t = (.error e, b')) : b' = b := by
  obtain ⟨_, hnone, _, rfl⟩ := apply_eq_error_iff.mp h
  exact enter_eq_self hnone

/-! ## The name of the open section -/

/-- The open section is the last enumeration, and no enumeration lacks a name. -/
structure KnowsLast (b : Builder) : Prop where
  openName : b.openName = b.description.names.getLast?.getD []
  named : [] ∉ b.description.names

theorem knowsLast_start : start.KnowsLast := ⟨rfl, List.not_mem_nil⟩

theorem KnowsLast.openName_eq_nil_iff (h : b.KnowsLast) :
    b.openName = [] ↔ b.description.enumerations = [] := by
  have hnone : b.description.names = [] ↔ b.description.enumerations = [] := by
    simp [Description.names]
  rw [h.openName, ← hnone]
  cases hlast : b.description.names.getLast? with
  | none => simpa using hlast
  | some name =>
      have hmem := List.mem_of_getLast? hlast
      simp only [Option.getD_some, List.ne_nil_of_mem hmem, iff_false]
      rintro rfl
      exact h.named hmem

theorem KnowsLast.enter (h : b.KnowsLast) (sectionName : Text) :
    (b.enter sectionName).KnowsLast := by
  have hnames := b.names_enter sectionName
  unfold Builder.enter at hnames ⊢
  by_cases hs : sectionName ≠ [] ∧ sectionName ≠ b.openName
  · rw [if_pos hs, if_pos hs] at hnames
    rw [if_pos hs]
    refine ⟨?_, ?_⟩
    · rw [hnames, List.getLast?_concat]
      rfl
    · rw [hnames, List.mem_append, List.mem_singleton, not_or]
      exact ⟨h.named, Ne.symm hs.1⟩
  · rwa [if_neg hs]

theorem KnowsLast.congr (h : b.KnowsLast) (hnames : b'.description.names = b.description.names)
    (hopen : b'.openName = b.openName) : b'.KnowsLast :=
  ⟨by rw [hopen, hnames, h.openName], by rw [hnames]; exact h.named⟩

theorem KnowsLast.apply (h : b.KnowsLast) (t : Triple) : (b.apply t).2.KnowsLast := by
  cases hstep : b.apply t with
  | mk answer b' =>
      cases answer with
      | ok u =>
          obtain ⟨hnames, hopen⟩ := apply_eq_ok hstep
          exact (h.enter t.sectionName).congr hnames hopen
      | error e => rwa [eq_of_apply_error hstep]

/-- The builder after some settings, of which it took those that it did not refuse. -/
def applyAll (b : Builder) (triples : List Triple) : Builder :=
  triples.foldl (fun b t => (b.apply t).2) b

theorem KnowsLast.applyAll {triples : List Triple} (h : b.KnowsLast) :
    (b.applyAll triples).KnowsLast := by
  induction triples generalizing b with
  | nil => exact h
  | cons t triples ih => exact ih (h.apply t)

/-! ## Runs that fail -/

theorem KnowsLast.enumerations_enter_eq_nil_iff (h : b.KnowsLast) {sectionName : Text} :
    (b.enter sectionName).description.enumerations = [] ↔
      b.description.enumerations = [] ∧ sectionName = [] := by
  constructor
  · intro hnone
    have hself := enter_eq_self hnone
    rw [hself] at hnone
    refine ⟨hnone, ?_⟩
    by_contra hname
    have hopen : sectionName ≠ b.openName := by
      rwa [h.openName_eq_nil_iff.mpr hnone]
    rw [Builder.enter, if_pos ⟨hname, hopen⟩] at hself
    exact hopen (congrArg Builder.openName hself)
  · rintro ⟨hnone, rfl⟩
    simpa [Builder.enter] using hnone

theorem KnowsLast.apply_eq_error_iff (h : b.KnowsLast) :
    b.apply t = (.error e, b') ↔
      (t.NeedsSection ∧ t.sectionName = []) ∧ b.description.enumerations = [] ∧
        e = t.refusal ∧ b' = b := by
  constructor
  · intro ha
    obtain ⟨hneeds, hnone, he, _⟩ := Builder.apply_eq_error_iff.mp ha
    obtain ⟨hnone, hname⟩ := h.enumerations_enter_eq_nil_iff.mp hnone
    exact ⟨⟨hneeds, hname⟩, hnone, he, eq_of_apply_error ha⟩
  · rintro ⟨⟨hneeds, hname⟩, hnone, he, rfl⟩
    have henter := h.enumerations_enter_eq_nil_iff.mpr ⟨hnone, hname⟩
    exact Builder.apply_eq_error_iff.mpr ⟨hneeds, henter, he, (enter_eq_self henter).symm⟩

/-- A setting that is taken leaves the builder without an enumeration if there was none
and it names no section. Such a setting needs none. -/
theorem KnowsLast.apply_eq_ok (h : b.KnowsLast) (ha : b.apply t = (.ok (), b')) :
    (b'.description.enumerations = [] ↔
        b.description.enumerations = [] ∧ t.sectionName = []) ∧
      (b.description.enumerations = [] → t.sectionName = [] → ¬ t.NeedsSection) := by
  constructor
  · have hsame := congrArg List.length (Builder.apply_eq_ok ha).1
    simp only [Description.names, List.length_map] at hsame
    rw [← h.enumerations_enter_eq_nil_iff, ← List.length_eq_zero_iff, hsame,
      List.length_eq_zero_iff]
  · intro hnone hname hneeds
    have hrefused := h.apply_eq_error_iff.mpr ⟨⟨hneeds, hname⟩, hnone, rfl, rfl⟩
    simp [ha] at hrefused

/-- A run fails at the first stray setting, if no section was open before it. -/
theorem KnowsLast.run_eq_error_iff {triples : List Triple} (h : b.KnowsLast) :
    b.run triples = .error e ↔
      b.description.enumerations = [] ∧ ∃ t, FirstStray triples t ∧ e = t.refusal := by
  induction triples generalizing b with
  | nil => simp [run, not_firstStray_nil]
  | cons t triples ih =>
      have hmid := h.apply t
      simp only [run, firstStray_cons_iff]
      cases hstep : b.apply t with
      | mk answer mid =>
          rw [hstep] at hmid
          cases answer with
          | ok u =>
              obtain ⟨hnone_iff, hfree⟩ := h.apply_eq_ok hstep
              rw [ih hmid, hnone_iff]
              constructor
              · rintro ⟨⟨hnone, hname⟩, u, hfirst, he⟩
                exact ⟨hnone, u, ⟨hname, .inr ⟨hfree hnone hname, hfirst⟩⟩, he⟩
              · rintro ⟨hnone, u, ⟨hname, ⟨hneeds, rfl⟩ | ⟨_, hfirst⟩⟩, he⟩
                · exact absurd hneeds (hfree hnone hname)
                · exact ⟨⟨hnone, hname⟩, u, hfirst, he⟩
          | error e' =>
              obtain ⟨⟨hneeds, hname⟩, hnone, rfl, rfl⟩ := h.apply_eq_error_iff.mp hstep
              simp [hneeds, hname, hnone, eq_comm]

end Builder

theorem Description.ofTriples_eq_error_iff {triples : List Triple} {e : ModelError} :
    ofTriples triples = .error e ↔ ∃ t, FirstStray triples t ∧ e = t.refusal := by
  have hrun : ofTriples triples = .error e ↔ Builder.start.run triples = .error e := by
    rw [ofTriples]
    cases Builder.start.run triples with
    | error e => simp [Except.map]
    | ok b => simp [Except.map]
  rw [hrun, Builder.knowsLast_start.run_eq_error_iff]
  simp [Builder.start]

/-- Settings are refused exactly if one of them is stray, for the first that is. A builder
that goes on after refusals has its last enumeration open, or none as long as there is
none, and whatever it refuses next leaves it as it is. -/
theorem Description.ofTriples_refuses (triples : List Triple) :
    ((∃ e, ofTriples triples = .error e) ↔ HasStray triples) ∧
      (∀ e, ofTriples triples = .error e ↔ ∃ t, FirstStray triples t ∧ e = t.refusal) ∧
      let b := Builder.start.applyAll triples
      b.openName = (b.description.enumerations.getLast?.map Enumeration.name).getD [] ∧
        (b.openName = [] ↔ b.description.enumerations = []) ∧
        ∀ t e b', b.apply t = (.error e, b') → b' = b := by
  refine ⟨?_, fun e => ofTriples_eq_error_iff, ?_⟩
  · rw [← exists_firstStray_iff]
    constructor
    · rintro ⟨e, he⟩
      obtain ⟨t, hfirst, _⟩ := ofTriples_eq_error_iff.mp he
      exact ⟨t, hfirst⟩
    · rintro ⟨t, hfirst⟩
      exact ⟨t.refusal, ofTriples_eq_error_iff.mpr ⟨t, hfirst, rfl⟩⟩
  · intro b
    have hknows : b.KnowsLast := Builder.knowsLast_start.applyAll
    refine ⟨?_, hknows.openName_eq_nil_iff, fun t e b' => Builder.eq_of_apply_error⟩
    rw [hknows.openName, Description.names, List.getLast?_map]

/-- The first of two stray settings is the one refused, and a builder that has seen both
refuses an entry too, until a section is named. -/
theorem Description.ofTriples_refuses_first :
    let stray : List Triple :=
      [⟨[], "top", "// a", 1⟩, ⟨[], "type", "int", 2⟩, ⟨[], "field", "X", 3⟩]
    let entry : Triple := ⟨[], "field", "Y", 4⟩
    HasStray stray ∧ ofTriples stray = .error (.keyOutsideSection "type" 2) ∧
      ((Builder.start.applyAll stray).apply entry).1 = .error (.entryOutsideSection "Y" 4) ∧
      ((Builder.start.applyAll stray).apply entry).2 = Builder.start.applyAll stray := by
  intro stray entry
  obtain ⟨hfails, -, -, -, hkeeps⟩ := ofTriples_refuses stray
  have herror : ofTriples stray = .error (.keyOutsideSection "type" 2) := by decide +kernel
  have hrefused : ((Builder.start.applyAll stray).apply entry).1 =
      .error (.entryOutsideSection "Y" 4) := by
    decide +kernel
  refine ⟨hfails.mp ⟨_, herror⟩, herror, hrefused, ?_⟩
  exact hkeeps entry (.entryOutsideSection "Y" 4) _ (Prod.ext hrefused rfl)

end EnumCodegen
