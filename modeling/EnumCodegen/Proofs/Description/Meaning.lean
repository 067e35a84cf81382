import EnumCodegen.Proofs.Description.Building
import Mathlib.Data.List.DropRight
import Mathlib.Data.List.SplitBy

/-! # What settings mean as a whole

The builder takes settings one by one. Here a list of settings is read at once: the
settings of the files are the last values of their keys, and the enumerations are the
longest runs of settings with one section. Whatever the builder accepts has this meaning. -/

namespace EnumCodegen

/-! ## Values -/

def valuesOf (key : Key) (triples : List Triple) : List Text :=
  (triples.filter fun t => Key.ofSpelling? t.key = some key).map Triple.value

/-- The last value that settings give to a key, unless that is empty. -/
def lastValue? (key : Key) (triples : List Triple) : Option Text :=
  (valuesOf key triples).getLast?.bind nonEmpty?

section Values

variable (key : Key) (past : List Triple) (t : Triple)

theorem valuesOf_append_singleton :
    valuesOf key (past ++ [t]) =
      if Key.ofSpelling? t.key = some key then valuesOf key past ++ [t.value]
      else valuesOf key past := by
  by_cases h : Key.ofSpelling? t.key = some key <;> simp [valuesOf, h]

theorem lastValue?_append_singleton :
    lastValue? key (past ++ [t]) =
      if Key.ofSpelling? t.key = some key then nonEmpty? t.value else lastValue? key past := by
  by_cases h : Key.ofSpelling? t.key = some key <;>
    simp [lastValue?, valuesOf_append_singleton, h]

end Values

/-! ## Runs -/

/-- The last section that settings name. It is empty if they name none. -/
def lastSection (triples : List Triple) : Text :=
  ((triples.map Triple.sectionName).filter (· ≠ [])).getLast?.getD []

/-- A setting in the section that it belongs to after others: its own, or else that of
the nearest one before it that names a section. -/
def Triple.after (t : Triple) (past : List Triple) : Triple :=
  { t with sectionName := lastSection (past ++ [t]) }

/-- The settings in the sections they belong to, from the first that names one on. -/
def sectioned (triples : List Triple) : List Triple :=
  (triples.mapIdx fun i t => t.after (triples.take i)).dropWhile (·.sectionName = [])

/-- The longest runs of settings with one section. -/
def runs (triples : List Triple) : List (List Triple) :=
  (sectioned triples).splitBy fun t u => t.sectionName = u.sectionName

section Runs

variable {past : List Triple} {t : Triple}

theorem lastSection_append_singleton :
    lastSection (past ++ [t]) =
      if t.sectionName = [] then lastSection past else t.sectionName := by
  by_cases h : t.sectionName = [] <;> simp [lastSection, h]

theorem lastSection_eq_nil_of_append (h : lastSection (past ++ [t]) = []) :
    lastSection past = [] := by
  rw [lastSection_append_singleton] at h
  split at h
  · exact h
  · contradiction

theorem mapIdx_after_append_singleton :
    ((past ++ [t]).mapIdx fun i u => u.after ((past ++ [t]).take i)) =
      (past.mapIdx fun i u => u.after (past.take i)) ++ [t.after past] := by
  have hfront : (past.mapIdx fun i u => u.after ((past ++ [t]).take i)) =
      past.mapIdx fun i u => u.after (past.take i) := by
    apply List.ext_getElem (by simp)
    intro i hi _
    rw [List.length_mapIdx] at hi
    simp [List.take_append_of_le_length hi.le]
  rw [List.mapIdx_append, hfront]
  simp

theorem sectioned_eq_nil (h : lastSection past = []) : sectioned past = [] := by
  induction past using List.reverseRecOn with
  | nil => rfl
  | append_singleton past t ih =>
      have hpast := ih (lastSection_eq_nil_of_append h)
      rw [sectioned] at hpast
      rw [sectioned, mapIdx_after_append_singleton, List.dropWhile_append, hpast]
      simp [Triple.after, h]

theorem sectioned_append_singleton (h : lastSection (past ++ [t]) ≠ []) :
    sectioned (past ++ [t]) = sectioned past ++ [t.after past] := by
  rw [sectioned, mapIdx_after_append_singleton, List.dropWhile_append, ← sectioned]
  split
  · rename_i he
    simp [List.isEmpty_iff.mp he, Triple.after, h]
  · rfl

theorem sectioned_ne_nil (h : lastSection past ≠ []) : sectioned past ≠ [] := by
  rcases List.eq_nil_or_concat' past with rfl | ⟨front, t, rfl⟩
  · exact absurd rfl h
  · simp [sectioned_append_singleton h]

theorem sectionName_of_mem_getLast?_sectioned :
    ∀ u ∈ (sectioned past).getLast?, u.sectionName = lastSection past := by
  intro u hu
  by_cases h : lastSection past = []
  · simp [sectioned_eq_nil h] at hu
  · rcases List.eq_nil_or_concat' past with rfl | ⟨front, t, rfl⟩
    · exact absurd rfl h
    · rw [sectioned_append_singleton h, List.getLast?_concat] at hu
      obtain rfl := Option.some.inj hu
      rfl

theorem splitBy_append_singleton_of_rel {α : Type} {r : α → α → Bool} {xs : List α} {x : α}
    {rest : List (List α)} {run : List α} (h : xs.splitBy r = rest ++ [run])
    (hx : ∀ y ∈ xs.getLast?, r y x) : (xs ++ [x]).splitBy r = rest ++ [run ++ [x]] := by
  obtain ⟨rfl, hne, hchain, hcut⟩ := List.splitBy_eq_iff.mp h
  have hrun : run ≠ [] := fun he => hne (by simp [he])
  rw [List.splitBy_eq_iff]
  refine ⟨by simp, ?_, ?_, ?_⟩
  · simpa using fun he => hne (List.mem_append_left _ he)
  · intro m hm
    rcases List.mem_append.mp hm with hm | hm
    · exact hchain m (List.mem_append_left _ hm)
    · rw [List.mem_singleton.mp hm, List.isChain_append]
      refine ⟨hchain run (by simp), List.isChain_singleton x, fun y hy z hz => ?_⟩
      obtain rfl : x = z := by simpa using hz
      exact hx y (by simpa [List.getLast?_append_of_ne_nil _ hrun] using hy)
  · rw [List.isChain_append] at hcut ⊢
    refine ⟨hcut.1, List.isChain_singleton _, fun m hm n hn => ?_⟩
    obtain ⟨hm', _, hr⟩ := hcut.2.2 m hm run (by simp)
    obtain rfl : run ++ [x] = n := by simpa using hn
    exact ⟨hm', by simp, by rwa [List.head_append_of_ne_nil hrun]⟩

theorem runs_eq_nil (h : lastSection past = []) : runs past = [] := by
  rw [runs, sectioned_eq_nil h, List.splitBy_nil]

theorem runs_append_of_eq (hne : lastSection past ≠ [])
    (h : lastSection (past ++ [t]) = lastSection past) :
    ∃ rest run, run ≠ [] ∧ runs past = rest ++ [run] ∧
      runs (past ++ [t]) = rest ++ [run ++ [t.after past]] := by
  rcases List.eq_nil_or_concat' (runs past) with hr | ⟨rest, run, hr⟩
  · exact absurd (List.splitBy_eq_nil.mp hr) (sectioned_ne_nil hne)
  · refine ⟨rest, run, List.ne_nil_of_mem_splitBy (l := sectioned past) (by rw [← runs, hr]; simp),
      hr, ?_⟩
    rw [runs, sectioned_append_singleton (h ▸ hne)]
    apply splitBy_append_singleton_of_rel hr
    intro u hu
    simp [sectionName_of_mem_getLast?_sectioned u hu, Triple.after, h]

theorem runs_append_of_ne (hne : lastSection (past ++ [t]) ≠ [])
    (h : lastSection (past ++ [t]) ≠ lastSection past) :
    runs (past ++ [t]) = runs past ++ [[t.after past]] := by
  rw [runs, sectioned_append_singleton hne]
  apply List.splitBy_append_cons
  intro u hu
  simpa [sectionName_of_mem_getLast?_sectioned u hu, Triple.after] using h.symm

end Runs

/-! ## Descriptions -/

def Enumeration.ofRun (run : List Triple) : Enumeration where
  name := (run.head?.map Triple.sectionName).getD []
  storageType? := lastValue? .storageType run
  traitsType? := lastValue? .traits run
  traitsCondition? := lastValue? .traitsCondition run
  entries := (valuesOf .field run).map Entry.ofText

/-- The description that settings mean. A key that is not known has no part in it. -/
def Description.meaning (triples : List Triple) : Description where
  declarationSuffix? := lastValue? .declarationSuffix triples
  definitionSuffix? := lastValue? .definitionSuffix triples
  guardToken? := lastValue? .headerGuard triples
  condition? := lastValue? .condition triples
  sourceDir? := lastValue? .sourceDir triples
  includeDir? := lastValue? .includeDir triples
  top := valuesOf .top triples
  bottom := valuesOf .bottom triples
  includes := valuesOf .includeFile triples
  enumerations := (runs triples).map Enumeration.ofRun

/-- What a setting changes in the enumeration it belongs to. -/
def Enumeration.set (e : Enumeration) (t : Triple) : Enumeration :=
  match Key.ofSpelling? t.key with
  | some .storageType => { e with storageType? := nonEmpty? t.value }
  | some .traits => { e with traitsType? := nonEmpty? t.value }
  | some .traitsCondition => { e with traitsCondition? := nonEmpty? t.value }
  | some .field => { e with entries := e.entries ++ [Entry.ofText t.value] }
  | _ => e

namespace Enumeration

theorem set_after (e : Enumeration) (t : Triple) (past : List Triple) :
    e.set (t.after past) = e.set t := rfl

theorem ofRun_append_singleton {run : List Triple} (h : run ≠ []) (t : Triple) :
    ofRun (run ++ [t]) = (ofRun run).set t := by
  obtain ⟨u, run, rfl⟩ := List.exists_cons_of_ne_nil h
  unfold ofRun set
  simp only [lastValue?_append_singleton, valuesOf_append_singleton]
  cases Key.ofSpelling? t.key with
  | none => simp
  | some key => cases key <;> simp

theorem ofRun_singleton (t : Triple) : ofRun [t] = set { name := t.sectionName } t := by
  unfold ofRun set
  cases hk : Key.ofSpelling? t.key with
  | none => simp [lastValue?, valuesOf, hk]
  | some key => cases key <;> simp [lastValue?, valuesOf, hk]

end Enumeration

namespace Description

variable {past : List Triple} {t : Triple}

theorem enumerations_meaning (triples : List Triple) :
    (meaning triples).enumerations = (runs triples).map Enumeration.ofRun := rfl

/-- What lists of enumerations have to do with each other when a setting goes to the last
enumeration of the first list. Without an enumeration it goes to none. -/
def SetsLast (t : Triple) (before after : List Enumeration) : Prop :=
  before = [] ∧ after = [] ∨ ∃ rest e, before = rest ++ [e] ∧ after = rest ++ [e.set t]

theorem meaning_of_unknown {enumerations : List Enumeration} (hk : Key.ofSpelling? t.key = none)
    (h : SetsLast t enumerations (meaning (past ++ [t])).enumerations) :
    { meaning past with enumerations } = meaning (past ++ [t]) := by
  have he : enumerations = (meaning (past ++ [t])).enumerations := by
    rcases h with ⟨rfl, hn⟩ | ⟨rest, e, rfl, hr⟩
    · exact hn.symm
    · rw [hr]
      simp [Enumeration.set, hk]
  subst he
  simp [meaning, lastValue?_append_singleton, valuesOf_append_singleton, hk]

theorem meaning_of_set? {enumerations : List Enumeration} {key : Key} {d : Description}
    (hk : Key.ofSpelling? t.key = some key)
    (h : SetsLast t enumerations (meaning (past ++ [t])).enumerations)
    (hd : ({ meaning past with enumerations } : Description).set? key t.value = some d) :
    d = meaning (past ++ [t]) := by
  -- every key sets one field, and a key of a section sets it in the last enumeration
  rcases h with ⟨rfl, hn⟩ | ⟨rest, e, rfl, hr⟩
  · rw [enumerations_meaning, List.map_eq_nil_iff] at hn
    cases key <;> simp only [set?, updateLast?, List.getLast?_nil, Option.some.injEq,
      reduceCtorEq] at hd <;> subst hd <;>
      simp [meaning, lastValue?_append_singleton, valuesOf_append_singleton, hk, hn]
  · rw [enumerations_meaning] at hr
    cases key <;> simp only [set?, updateLast?, List.getLast?_concat, List.dropLast_concat,
      Option.some.injEq] at hd <;> subst hd <;>
      simp [meaning, lastValue?_append_singleton, valuesOf_append_singleton, hk, hr,
        Enumeration.set]

end Description

namespace Builder

/-- The builder has taken settings that mean its description. -/
structure Meets (b : Builder) (past : List Triple) : Prop where
  description : b.description = Description.meaning past
  openName : b.openName = lastSection past

theorem meets_start : start.Meets [] := ⟨rfl, rfl⟩

section Step

variable {b b' : Builder} {past : List Triple} {t : Triple}

theorem Meets.openName_enter (h : b.Meets past) :
    (b.enter t.sectionName).openName = lastSection (past ++ [t]) := by
  rw [enter, h.openName, lastSection_append_singleton]
  split
  · rename_i hs
    rw [if_neg hs.1]
  · rename_i hs
    rw [h.openName]
    split
    · rfl
    · rename_i hne
      exact (not_not.mp fun he => hs ⟨hne, he⟩).symm

/-- Entering a section changes the enumerations alone. Afterwards the setting belongs to
the last of them, and if there is none, then it belongs to no section. -/
theorem Meets.enumerations_enter (h : b.Meets past) :
    ∃ enumerations,
      (b.enter t.sectionName).description =
        { Description.meaning past with enumerations := enumerations } ∧
      Description.SetsLast t enumerations (Description.meaning (past ++ [t])).enumerations := by
  have hopen := h.openName_enter (t := t)
  by_cases hs : t.sectionName ≠ [] ∧ t.sectionName ≠ b.openName
  · simp only [enter, if_pos hs] at hopen ⊢
    have hne : lastSection (past ++ [t]) ≠ [] := hopen ▸ hs.1
    have hnew : lastSection (past ++ [t]) ≠ lastSection past := by
      rw [← hopen, ← h.openName]
      exact hs.2
    refine ⟨_, by rw [h.description], .inr ⟨_, _, rfl, ?_⟩⟩
    rw [Description.enumerations_meaning, runs_append_of_ne hne hnew, List.map_append,
      List.map_singleton, Enumeration.ofRun_singleton, Enumeration.set_after, Triple.after, ← hopen]
    rfl
  · simp only [enter, if_neg hs] at hopen ⊢
    rw [h.openName] at hopen
    refine ⟨_, h.description, ?_⟩
    simp only [Description.enumerations_meaning]
    by_cases hne : lastSection past = []
    · exact .inl ⟨by rw [runs_eq_nil hne]; rfl, by rw [runs_eq_nil (hopen ▸ hne)]; rfl⟩
    · obtain ⟨rest, run, hrun, hp, hpt⟩ := runs_append_of_eq hne hopen.symm
      refine .inr ⟨rest.map Enumeration.ofRun, Enumeration.ofRun run, by simp [hp], ?_⟩
      rw [hpt, List.map_append, List.map_singleton, Enumeration.ofRun_append_singleton hrun,
        Enumeration.set_after]

/-- A setting that is taken is added to the meaning of those before it. -/
theorem Meets.apply (h : b.Meets past) (ha : b.apply t = (.ok (), b')) :
    b'.Meets (past ++ [t]) := by
  obtain ⟨enumerations, hd, hlast⟩ := h.enumerations_enter (t := t)
  have hopen := h.openName_enter (t := t)
  rcases apply_eq_ok_iff.mp ha with ⟨hk, rfl⟩ | ⟨key, d, hk, hset, rfl⟩
  · exact ⟨hd.trans (Description.meaning_of_unknown hk hlast), hopen⟩
  · rw [hd] at hset
    exact ⟨Description.meaning_of_set? hk hlast hset, hopen⟩

end Step

theorem Meets.run {b b' : Builder} {past triples : List Triple} (h : b.Meets past)
    (hr : b.run triples = .ok b') : b'.Meets (past ++ triples) := by
  induction triples generalizing b past with
  | nil =>
      cases hr
      rwa [List.append_nil]
  | cons t triples ih =>
      obtain ⟨mid, hstep, hrest⟩ := run_cons_eq_ok_iff.mp hr
      rw [List.append_cons]
      exact ih (h.apply hstep) hrest

end Builder

/-- A description that is made from settings is what the settings mean as a whole. -/
theorem Description.ofTriples_eq_meaning {triples : List Triple} {d : Description}
    (h : ofTriples triples = .ok d) : d = meaning triples := by
  unfold ofTriples at h
  cases hrun : Builder.start.run triples with
  | error e =>
      rw [hrun] at h
      cases h
  | ok b =>
      rw [hrun] at h
      cases h
      exact (Builder.meets_start.run hrun).description

/-- A run goes on over a setting without a section, a section that comes back opens
another run, and so does a key that is not known. -/
theorem Description.ofTriples_eq_meaning_interrupted :
    let triples : List Triple :=
      [⟨[], "top", "// a", 1⟩, ⟨"A", "field", "X = 1 (x)", 2⟩, ⟨[], "traits", "T", 3⟩,
       ⟨"A", "type", "int", 4⟩, ⟨"A", "thraits", [], 5⟩, ⟨"B", "colour", "red", 6⟩,
       ⟨"A", "field", "Y", 7⟩]
    let d : Description :=
      { top := ["// a"]
        enumerations :=
          [{ name := "A", storageType? := some "int", entries := [⟨"X", "X = 1", some "(x)"⟩] },
           { name := "B" }, { name := "A", entries := [⟨"Y", "Y", none⟩] }] }
    ofTriples triples = .ok d ∧ d = meaning triples := by
  intro triples d
  have h : ofTriples triples = .ok d := by decide +kernel
  exact ⟨h, ofTriples_eq_meaning h⟩

end EnumCodegen
