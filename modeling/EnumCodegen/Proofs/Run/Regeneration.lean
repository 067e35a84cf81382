import EnumCodegen.Proofs.Run.Outputs

/-! # Running again

A declaration file keeps the token of the run that wrote it. So a run over unchanged
files finds the same token, emits the same texts and has nothing to write. -/

namespace EnumCodegen

/-! ## The token of a run -/

/-- The random source knows small letters only. -/
def World.LowerCase (w : World) : Prop := ∀ n, (w.letter n).isLower = true

theorem World.LowerCase.letters {w : World} (h : w.LowerCase) (n : Nat) :
    ∀ c ∈ w.letters n, c.isLower = true := by
  intro c hc
  obtain ⟨i, _, rfl⟩ := List.mem_map.mp hc
  exact h (w.drawn + i)

section Resolves

variable {fs : FileSystem} {own? : Option Text} {input declaration : Path} {letters : Text}
  {guard : GuardToken} {drawn : Nat}

/-- In whichever way a token was found, its marker gives it back. -/
theorem Resolves.keepable (h : Resolves fs own? input declaration letters guard drawn)
    (hown : ∀ own, own? = some own → Guard.Keepable own)
    (hlow : ∀ c ∈ letters, c.isLower = true) : Guard.Keepable guard.token := by
  cases h with
  | explicit h => exact hown _ (Option.filter_eq_some_iff.mp h).1
  | recovered h hm =>
      obtain ⟨content, _, hr⟩ := FileSystem.marker_eq_some_iff.mp hm
      exact Guard.keepable_of_recovered? hr
  | generated h hm => exact Guard.keepable_generated _ hlow

theorem Resolves.eq_own {own : Text} (h : Resolves fs own? input declaration letters guard drawn)
    (hown : own?.filter (· ≠ []) = some own) : guard = ⟨own, .explicit⟩ := by
  cases h with
  | explicit h =>
      rw [h] at hown
      cases hown
      rfl
  | recovered h hm =>
      rw [h] at hown
      cases hown
  | generated h hm =>
      rw [h] at hown
      cases hown

/-- The token of a run over a declaration file that keeps one: the run's own token, or
else the one kept. -/
def GuardToken.kept (own? : Option Text) (old : Text) : GuardToken :=
  match own? with
  | some own => ⟨own, .explicit⟩
  | none => ⟨old, .recovered⟩

theorem GuardToken.token_kept {old : Text} (h : ∀ own, own? = some own → own = old) :
    (kept own? old).token = old := by
  cases own? with
  | none => rfl
  | some own => exact h own rfl

/-- Where the declaration file keeps a token, no letters are drawn. -/
theorem Resolves.eq_kept {old : Text}
    (h : Resolves fs own? input declaration letters guard drawn)
    (hm : fs.marker declaration = .ok (some old)) :
    guard = .kept (own?.filter (· ≠ [])) old ∧ drawn = 0 := by
  cases h with
  | explicit h =>
      rw [h]
      exact ⟨rfl, rfl⟩
  | recovered h hm' =>
      rw [hm] at hm'
      cases hm'
      rw [h]
      exact ⟨rfl, rfl⟩
  | generated h hm' => simp [hm] at hm'

end Resolves

theorem FileSystem.marker_of_read {fs : FileSystem} {p : Path} {e : Emission}
    (h : fs.read p = .ok (Utf8.encode e.declaration)) (hk : Guard.Keepable e.token) :
    fs.marker p = .ok (some e.token) :=
  FileSystem.marker_eq_some_iff.mpr ⟨_, h, Guard.recovered?_declaration hk⟩

/-! ## Files that are up to date -/

/-- The files of a description are up to date under a token: both outputs hold what is
emitted for it, and the description sets no other token. -/
structure UpToDate (fs : FileSystem) (c : Config) (input : Path) (source : Text)
    (d : Description) (token : Text) : Prop where
  read : fs.text input = .ok source
  built : Description.ofText source = .ok d
  keepable : Guard.Keepable token
  own : ∀ own, d.guardToken? = some own → own = token
  staged : fs.Stages (c.artifacts d (Guard.title input) token)
  declaration : fs.read (c.declarationPath d (Guard.title input)) =
    .ok (Utf8.encode (c.emission d (Guard.title input) token).declaration)
  definition : fs.read (c.definitionPath d (Guard.title input)) =
    .ok (Utf8.encode (c.emission d (Guard.title input) token).definition)

theorem Finishes.upToDate {c : Config} {input : Path} {letters source : Text}
    {d : Description} {r : Report} {fs mid fs' : FileSystem} {drawn : Nat}
    (h : Finishes c input letters fs source d r mid fs' drawn)
    (hlow : ∀ c ∈ letters, c.isLower = true)
    (ha : fs'.Apart [input, r.declarationPath, r.definitionPath]) :
    UpToDate fs' c input source d r.guard.token := by
  have hd := h.delivers ha
  refine ⟨?_, h.built, h.resolved.keepable (fun own => Guard.keepable_of_ofText h.built) hlow,
    fun own hown => ?_, h.grows.toSameSetting.stages h.staged, ?_, ?_⟩
  · rw [FileSystem.text, hd.description]
    exact h.read
  · rw [← Description.filter_guardToken? h.built] at hown
    rw [h.resolved.eq_own hown]
  · rw [← h.declarationPath]
    exact hd.declaration
  · rw [← h.definitionPath]
    exact hd.definition

namespace UpToDate

variable {fs fs' mid : FileSystem} {c : Config} {input : Path} {source letters token : Text}
  {d : Description}

def report (c : Config) (input : Path) (source : Text) (d : Description) (token : Text) :
    Report where
  guard := .kept d.guardToken? token
  declarationPath := c.declarationPath d (Guard.title input)
  definitionPath := c.definitionPath d (Guard.title input)
  declaration := .unchanged
  definition := .unchanged
  warnings := (Reading.ofText source).diagnostics.length

theorem read_same (h : UpToDate fs c input source d token) {source' : Text} {d' : Description}
    (hr : fs.text input = .ok source') (hd : Description.ofText source' = .ok d') :
    source' = source ∧ d' = d := by
  rw [h.read] at hr
  cases hr
  rw [h.built] at hd
  cases hd
  exact ⟨rfl, rfl⟩

theorem resolves (h : UpToDate fs c input source d token) {guard : GuardToken} {drawn : Nat}
    (hg : Resolves fs d.guardToken? input (c.declarationPath d (Guard.title input)) letters
      guard drawn) :
    guard = .kept d.guardToken? token ∧ guard.token = token ∧ drawn = 0 := by
  obtain ⟨rfl, hdrawn⟩ := hg.eq_kept (FileSystem.marker_of_read h.declaration h.keepable)
  rw [Description.filter_guardToken? h.built]
  exact ⟨rfl, GuardToken.token_kept h.own, hdrawn⟩

theorem settles_declaration (h : UpToDate fs c input source d token)
    {answer : Except FileError Outcome}
    (hs : Settles fs (c.declarationArtifact d (Guard.title input) token) answer fs') :
    answer = .ok .unchanged ∧ fs' = fs :=
  hs.of_read h.declaration

theorem settles_definition (h : UpToDate fs c input source d token)
    {answer : Except FileError Outcome}
    (hs : Settles fs (c.definitionArtifact d (Guard.title input) token) answer fs') :
    answer = .ok .unchanged ∧ fs' = fs :=
  hs.of_read h.definition

theorem not_stops (h : UpToDate fs c input source d token) {stage : Stage} {e : GenerateError}
    {drawn : Nat} : ¬ Stops c input letters fs stage e fs' drawn := by
  intro hs
  cases hs with
  | reading hr => simp [h.read] at hr
  | building hr hd =>
      rw [h.read] at hr
      cases hr
      simp [h.built] at hd
  | recovering hr hd ht hm =>
      obtain ⟨rfl, rfl⟩ := h.read_same hr hd
      simp [FileSystem.marker_of_read h.declaration h.keepable] at hm
  | staging hr hd hg hs =>
      obtain ⟨rfl, rfl⟩ := h.read_same hr hd
      obtain ⟨_, rfl, _⟩ := h.resolves hg
      exact h.staged.not_refuses hs
  | declaring hr hd hg hst hs =>
      obtain ⟨rfl, rfl⟩ := h.read_same hr hd
      obtain ⟨_, rfl, _⟩ := h.resolves hg
      cases (h.settles_declaration hs).1
  | defining hr hd hg hst hs hs' =>
      obtain ⟨rfl, rfl⟩ := h.read_same hr hd
      obtain ⟨_, rfl, _⟩ := h.resolves hg
      obtain ⟨_, rfl⟩ := h.settles_declaration hs
      cases (h.settles_definition hs').1

theorem finishes (h : UpToDate fs c input source d token) {source' : Text} {d' : Description}
    {r : Report} {drawn : Nat} (hf : Finishes c input letters fs source' d' r mid fs' drawn) :
    r = report c input source d token ∧ fs' = fs ∧ drawn = 0 := by
  obtain ⟨rfl, rfl⟩ := h.read_same hf.read hf.built
  have hg := hf.resolved
  rw [hf.declarationPath] at hg
  obtain ⟨hguard, htoken, hdrawn⟩ := h.resolves hg
  have hs := hf.declared
  have hs' := hf.defined
  rw [htoken] at hs hs'
  obtain ⟨hdeclared, rfl⟩ := h.settles_declaration hs
  obtain ⟨hdefined, rfl⟩ := h.settles_definition hs'
  refine ⟨?_, rfl, hdrawn⟩
  apply (Report.mk.injEq ..).mpr
  exact ⟨hguard, hf.declarationPath, hf.definitionPath, Except.ok.inj hdeclared,
    Except.ok.inj hdefined, hf.warnings⟩

/-- A run over files that are up to date says so and changes no file. -/
theorem after_generate {w : World} (h : UpToDate w.files c input source d token) :
    ∃ w', w.after (generate c input) = (.ok (report c input source d token), w') ∧
      w'.files = w.files ∧ w'.drawn = w.drawn := by
  cases hrun : w.after (generate c input) with
  | mk answer w' =>
      cases answer with
      | error e =>
          obtain ⟨stage, drawn, hs, _⟩ := stops_of_generate hrun
          exact absurd hs h.not_stops
      | ok r =>
          obtain ⟨_, _, _, drawn, hf, hdrawn⟩ := finishes_of_generate hrun
          obtain ⟨rfl, hfiles, rfl⟩ := h.finishes hf
          exact ⟨w', rfl, hfiles, hdrawn⟩

end UpToDate

/-! ## The second run -/

/-- If the three files of a run lie apart, a run over what it left, with whatever random
source, reports the same token, paths and warnings, and finds nothing to write. -/
theorem generate_again {c : Config} {input : Path} {w w' v : World} {r : Report}
    (hlow : w.LowerCase) (h : w.after (generate c input) = (.ok r, w'))
    (ha : w'.files.Apart [input, r.declarationPath, r.definitionPath])
    (hv : v.files = w'.files) :
    ∃ source d r' v',
      w.files.text input = .ok source ∧ v.files.text input = .ok source ∧
      Description.ofText source = .ok d ∧
      v.after (generate c input) = (.ok r', v') ∧
      r' = { r with
        guard := ⟨r.guard.token, if d.guardToken? = none then .recovered else .explicit⟩
        declaration := .unchanged
        definition := .unchanged } ∧
      r'.filesWritten = 0 ∧ v'.files = w'.files ∧ v'.drawn = v.drawn := by
  obtain ⟨source, d, mid, drawn, hf, _⟩ := finishes_of_generate h
  have hu := hf.upToDate (hlow.letters _) ha
  rw [← hv] at hu ⊢
  obtain ⟨v', hrun, hfiles, hdrawn⟩ := hu.after_generate
  refine ⟨source, d, _, v', hf.read, hu.read, hf.built, hrun, ?_, rfl, hfiles, hdrawn⟩
  have hguard : GuardToken.kept d.guardToken? r.guard.token =
      ⟨r.guard.token, if d.guardToken? = none then .recovered else .explicit⟩ := by
    cases hown : d.guardToken? with
    | none => rfl
    | some own =>
        rw [hu.own own hown]
        rfl
  rw [UpToDate.report, hguard, hf.declarationPath, hf.definitionPath, hf.warnings]

theorem generate_again_plain :
    let w := World.holding [("colors.ini", plainDescription)]
    let w' := (w.after (generate {} (.ofText "colors.ini"))).2
    let v : World := { w' with letter := fun _ => 'b' }
    ∃ r' v', v.after (generate {} (.ofText "colors.ini")) = (.ok r', v') ∧
      r'.guard.token = plainReport.guard.token ∧ r'.filesWritten = 0 ∧ v'.files = w'.files := by
  intro w w' v
  have hlow : w.LowerCase := fun _ => rfl
  have hrun : w.after (generate {} (.ofText "colors.ini")) = (.ok plainReport, w') :=
    Prod.ext (by decide +kernel) rfl
  obtain ⟨_, _, r', v', _, _, _, hagain, rfl, hwritten, hfiles, _⟩ :=
    generate_again (v := v) hlow hrun (by decide +kernel) rfl
  exact ⟨_, v', hagain, rfl, hwritten, hfiles⟩

end EnumCodegen
