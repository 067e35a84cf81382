import EnumCodegen.Proofs.Run.Regeneration

/-! # The token over a history of runs

Between two runs the description may be replaced by anything. What carries the token
from run to run is the first marker of the declaration file: it keeps the token of the
last run that finished, because an edit does not reach that file and a refused run
changes none. -/

namespace EnumCodegen

/-! ## Histories -/

structure Turn where
  config : Config
  before : World
  answer : Except GenerateError Report
  after : World

def Turn.token? (t : Turn) : Option Text := t.answer.toOption.map (·.guard.token)

/-- The token of the last turn that finished. The last turn comes first. -/
def lastToken? (past : List Turn) : Option Text := past.findSome? Turn.token?

theorem lastToken?_cons (t : Turn) (past : List Turn) :
    lastToken? (t :: past) = t.token?.or (lastToken? past) := by
  unfold lastToken?
  rw [List.findSome?_cons]
  cases t.token? <;> rfl

/-- A turn over a description. It finishes with the given declaration file, and then
the three files lie apart, or else the description is refused. -/
structure Turn.Over (input declaration : Path) (t : Turn) : Prop where
  run : t.before.after (generate t.config input) = (t.answer, t.after)
  lowerCase : t.before.LowerCase
  finished : ∀ r, t.answer = .ok r → r.declarationPath = declaration ∧
    t.after.files.Apart [input, r.declarationPath, r.definitionPath]
  refused : ∀ e, t.answer = .error e → ∃ cause, e = .model cause

/-- The description was replaced by any content, or left as it is. -/
def Edited (input : Path) (fs fs' : FileSystem) : Prop :=
  fs' = fs ∨ ∃ content, fs.write input content = .ok fs'

/-- Turns over one description, which may be edited between them. The last turn comes
first, and nothing is assumed of the files before the first. -/
inductive History (input declaration : Path) : List Turn → Prop where
  | first {t} (ht : t.Over input declaration) : History input declaration [t]
  | next {t last past} (h : History input declaration (last :: past))
      (edit : Edited input last.after.files t.before.files) (ht : t.Over input declaration) :
      History input declaration (t :: last :: past)

theorem History.of_append {input declaration : Path} {later : List Turn} {t : Turn}
    {past : List Turn} (h : History input declaration (later ++ t :: past)) :
    History input declaration (t :: past) := by
  induction later with
  | nil => exact h
  | cons u later ih =>
      apply ih
      generalize hts : later ++ t :: past = ts at h
      rw [List.cons_append, hts] at h
      cases h with
      | first => simp at hts
      | next h => exact h

/-! ## What carries the token -/

/-- The declaration file keeps a token and lies apart from the description. -/
structure Keeps (fs : FileSystem) (input declaration : Path) (token : Text) : Prop where
  apart : ¬ fs.SamePlace input declaration
  marker : fs.marker declaration = .ok (some token)

section Keeps

variable {fs fs' mid : FileSystem} {input declaration : Path} {token : Text}

/-- An edit of the description does not reach the declaration. -/
theorem Keeps.edited (h : Keeps fs input declaration token) (he : Edited input fs fs') :
    Keeps fs' input declaration token := by
  rcases he with rfl | ⟨content, hw⟩
  · exact h
  · obtain ⟨l, hl, hl', hputs⟩ := FileSystem.puts_of_write hw
    obtain ⟨kept, hread, hr⟩ := FileSystem.marker_eq_some_iff.mp h.marker
    obtain ⟨m, hm, hfile⟩ := FileSystem.read_eq_ok_iff.mp hread
    have hne : l ≠ m := fun he => h.apart ((FileSystem.samePlace_iff_of_locate hl hm).mpr he)
    have hm' := hputs.grows.locate hm
    refine ⟨fun hs => hne ((FileSystem.samePlace_iff_of_locate hl' hm').mp hs), ?_⟩
    apply FileSystem.marker_eq_some_iff.mpr
    refine ⟨kept, FileSystem.read_eq_ok_iff.mpr ⟨m, hm', ?_⟩, hr⟩
    rw [hputs.file?, if_neg hne.symm]
    exact hfile

theorem Finishes.keeps {c : Config} {letters source : Text} {d : Description} {r : Report}
    {drawn : Nat} (h : Finishes c input letters fs source d r mid fs' drawn)
    (hlow : ∀ c ∈ letters, c.isLower = true)
    (ha : fs'.Apart [input, r.declarationPath, r.definitionPath]) :
    Keeps fs' input r.declarationPath r.guard.token := by
  refine ⟨(List.pairwise_cons.mp ha).1 _ (by simp), ?_⟩
  have hu := h.upToDate hlow ha
  exact FileSystem.marker_of_read (h.delivers ha).declaration hu.keepable

/-- A refused description leaves all files as they are and draws no letters. -/
theorem Stops.of_model {c : Config} {letters : Text} {stage : Stage} {cause : ModelError}
    {drawn : Nat} (h : Stops c input letters fs stage (.model cause) fs' drawn) :
    fs' = fs ∧ drawn = 0 := by
  cases h with
  | building hr hd => exact ⟨rfl, rfl⟩

end Keeps

/-! ## Turn by turn -/

section Turns

variable {input declaration : Path} {t : Turn} {past : List Turn} {token : Text}

theorem Turn.Over.of_ok (ht : t.Over input declaration) {r : Report} (ha : t.answer = .ok r) :
    ∃ source d mid drawn,
      Finishes t.config input (t.before.letters Guard.suffixLength) t.before.files source d r mid
        t.after.files drawn ∧ t.after.drawn = t.before.drawn + drawn := by
  apply finishes_of_generate
  rw [ht.run, ha]

theorem Turn.Over.of_error (ht : t.Over input declaration) {e : GenerateError}
    (ha : t.answer = .error e) :
    t.after.files = t.before.files ∧ t.after.drawn = t.before.drawn := by
  obtain ⟨cause, rfl⟩ := ht.refused e ha
  have hrun := ht.run
  rw [ha] at hrun
  obtain ⟨stage, drawn, hs, hdrawn⟩ := stops_of_generate hrun
  obtain ⟨hfiles, rfl⟩ := hs.of_model
  exact ⟨hfiles, hdrawn⟩

/-- A turn that finishes brings a token to keep, and a refused one keeps the token that
was there. -/
theorem Turn.Over.keeps (ht : t.Over input declaration) {old? : Option Text}
    (hold : old? = some token → Keeps t.before.files input declaration token)
    (hlast : t.token?.or old? = some token) :
    Keeps t.after.files input declaration token := by
  cases ha : t.answer with
  | ok r =>
      obtain ⟨source, d, mid, drawn, hf, _⟩ := ht.of_ok ha
      obtain ⟨rfl, hapart⟩ := ht.finished r ha
      simp only [Turn.token?, ha, Except.toOption, Option.map_some, Option.some_or,
        Option.some.injEq] at hlast
      subst hlast
      exact hf.keeps (ht.lowerCase.letters _) hapart
  | error e =>
      simp only [Turn.token?, ha, Except.toOption, Option.map_none, Option.none_or] at hlast
      rw [(ht.of_error ha).1]
      exact hold hlast

/-- After a history the declaration file keeps the token of the last turn that finished. -/
theorem History.keeps (h : History input declaration (t :: past))
    (hlast : lastToken? (t :: past) = some token) :
    Keeps t.after.files input declaration token := by
  induction past generalizing t with
  | nil =>
      cases h with
      | first ht => exact ht.keeps (fun hold => by cases hold) (lastToken?_cons t [] ▸ hlast)
  | cons last past ih =>
      cases h with
      | next h edit ht =>
          refine ht.keeps (fun hold => ?_) (lastToken?_cons t _ ▸ hlast)
          exact (ih h hold).edited edit

end Turns

/-- Once a turn has finished, no later turn draws letters, and each that finishes has
the token that its own description sets, or else that of the last turn before it that
finished, recovered. -/
theorem History.guard_eq_kept {input declaration : Path} {later past : List Turn} {t : Turn}
    {token : Text} (h : History input declaration (later ++ t :: past))
    (hlast : lastToken? past = some token) :
    t.after.drawn = t.before.drawn ∧
    ∀ r, t.answer = .ok r → ∃ source d,
      t.before.files.text input = .ok source ∧ Description.ofText source = .ok d ∧
      r.guard = match d.guardToken? with
        | some own => ⟨own, .explicit⟩
        | none => ⟨token, .recovered⟩ := by
  have h := h.of_append
  cases h with
  | first ht => cases hlast
  | next hpast edit ht =>
      have hk := (hpast.keeps hlast).edited edit
      cases ha : t.answer with
      | error e =>
          refine ⟨(ht.of_error ha).2, fun r hr => ?_⟩
          cases hr
      | ok r =>
          obtain ⟨source, d, mid, drawn, hf, hdrawn⟩ := ht.of_ok ha
          have hm := hk.marker
          rw [← (ht.finished r ha).1] at hm
          obtain ⟨hguard, rfl⟩ := hf.resolved.eq_kept hm
          rw [Description.filter_guardToken? hf.built] at hguard
          refine ⟨hdrawn, fun r' hr => ?_⟩
          cases hr
          exact ⟨source, d, hf.read, hf.built, hguard⟩

/-- A token that was set stays when its setting goes and another marker comes. -/
theorem History.guard_eq_kept_edited :
    let input := Path.ofText "colors.ini"
    let w := World.holding [("colors.ini", "header-guard=COLORS")]
    let w' := (w.after (generate {} input)).2
    let edited := w'.files.write input (Utf8.encode ("top=" ++ markerLead ++ "other"))
    let v : World := { w' with files := edited.toOption.getD w'.files, letter := fun _ => 'b' }
    let r := { plainReport with guard := ⟨"COLORS", .recovered⟩, definition := .unchanged }
    (v.after (generate {} input)).1 = .ok r ∧
    (v.after (generate {} input)).2.drawn = v.drawn ∧
    ∃ d : Description, r.guard = match d.guardToken? with
      | some own => ⟨own, .explicit⟩
      | none => ⟨"COLORS", .recovered⟩ := by
  intro input w w' edited v r
  have hrun : (v.after (generate {} input)).1 = .ok r := by decide +kernel
  let first : Turn :=
    ⟨{}, w, .ok { plainReport with guard := ⟨"COLORS", .explicit⟩ }, w'⟩
  let second : Turn := ⟨{}, v, .ok r, (v.after (generate {} input)).2⟩
  have hfirst : first.Over input plainReport.declarationPath := by
    refine ⟨Prod.ext (by decide +kernel) rfl, fun _ => rfl, fun r hr => ?_, fun e he => ?_⟩
    · cases hr
      exact ⟨rfl, by decide +kernel⟩
    · cases he
  have hsecond : second.Over input plainReport.declarationPath := by
    refine ⟨Prod.ext hrun rfl, fun _ => rfl, fun r hr => ?_, fun e he => ?_⟩
    · cases hr
      exact ⟨rfl, by decide +kernel⟩
    · cases he
  have hedit : Edited input first.after.files second.before.files :=
    .inr ⟨_, show edited = .ok v.files by decide +kernel⟩
  have hhistory : History input plainReport.declarationPath ([] ++ second :: [first]) :=
    .next (.first hfirst) hedit hsecond
  obtain ⟨hdrawn, hguard⟩ := hhistory.guard_eq_kept rfl
  obtain ⟨_, d, _, _, hg⟩ := hguard r rfl
  exact ⟨hrun, hdrawn, d, hg⟩

end EnumCodegen
