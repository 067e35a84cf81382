import EnumCodegen.CommandLine.Execution
import EnumCodegen.Proofs.Run.Semantics

/-! # What a failed run leaves behind

Inputs are generated in order. The first that stops short ends the run, and how much
it had done by then depends on the step at which it stopped. -/

namespace EnumCodegen

/-! ## Inputs in order -/

def World.record (w : World) (events : List Event) : World :=
  { w with log := w.log ++ events.map (LogRecord.mk []) }

/-- All inputs were generated, each in the world that the one before it left. -/
inductive Completes (c : Config) : List Path → World → World → Prop where
  | nil (w) : Completes c [] w w
  | cons {input rest w mid w' r}
      (h : (w.record [.input input]).after (generateFile c input) = (.ok r, mid))
      (hrest : Completes c rest (mid.record r.events) w') : Completes c (input :: rest) w w'

theorem after_generateFiles_cons (c : Config) (input : Path) (rest : List Path) (w : World) :
    w.after (generateFiles c (input :: rest)) =
      World.andThen ((w.record [.input input]).after (generateFile c input)) fun r mid =>
        (mid.record r.events).after (generateFiles c rest) := by
  simp [generateFiles, World.record]

/-- Inputs that follow generated ones start in the world that those left. -/
theorem Completes.after_append {c : Config} {done : List Path} {w w₁ : World}
    (h : Completes c done w w₁) (rest : List Path) :
    w.after (generateFiles c (done ++ rest)) = w₁.after (generateFiles c rest) := by
  induction h with
  | nil w => rfl
  | cons h hrest ih => rw [List.cons_append, after_generateFiles_cons, h, World.andThen_ok, ih]

theorem completes_iff {c : Config} {inputs : List Path} {w w' : World} :
    Completes c inputs w w' ↔ w.after (generateFiles c inputs) = (.ok (), w') := by
  constructor
  · intro h
    have he := h.after_append []
    rw [List.append_nil] at he
    exact he
  · intro h
    induction inputs generalizing w with
    | nil =>
        cases h
        exact .nil _
    | cons input rest ih =>
        rw [after_generateFiles_cons] at h
        cases hrun : (w.record [.input input]).after (generateFile c input) with
        | mk answer mid =>
            rw [hrun] at h
            cases answer with
            | error f => cases h
            | ok r => exact .cons hrun (ih h)

theorem exists_first_failure {c : Config} {inputs : List Path} {w w' : World} {f : Failure}
    (h : w.after (generateFiles c inputs) = (.error f, w')) :
    ∃ done input later w₁, inputs = done ++ input :: later ∧ Completes c done w w₁ ∧
      (w₁.record [.input input]).after (generateFile c input) = (.error f, w') := by
  induction inputs generalizing w with
  | nil => cases h
  | cons input rest ih =>
      rw [after_generateFiles_cons] at h
      cases hrun : (w.record [.input input]).after (generateFile c input) with
      | mk answer mid =>
          rw [hrun] at h
          cases answer with
          | error f' =>
              cases h
              exact ⟨[], input, rest, w, rfl, .nil w, hrun⟩
          | ok r =>
              obtain ⟨done, failed, later, w₁, rfl, hdone, hfails⟩ := ih h
              exact ⟨input :: done, failed, later, w₁, rfl, .cons hrun hdone, hfails⟩

theorem Completes.after_failure {c : Config} {done : List Path} {input : Path} {w w₁ w' : World}
    {f : Failure} (h : Completes c done w w₁)
    (hf : (w₁.record [.input input]).after (generateFile c input) = (.error f, w'))
    (later : List Path) : w.after (generateFiles c (done ++ input :: later)) = (.error f, w') := by
  rw [h.after_append, after_generateFiles_cons, hf, World.andThen_error]

/-! ## One input that fails -/

/-- What a step that fails leaves of the files. The definition can only fail after the
declaration was settled. -/
def Stage.Leaves (stage : Stage) (fs fs' : FileSystem) : Prop :=
  match stage with
  | .reading | .building | .recovering | .staging => fs' = fs
  | .declaring => fs.AddsDirectories fs'
  | .defining declared =>
      ∃ l, fs'.locate declared.path = .ok l ∧ fs.Updates l (Utf8.encode declared.text) fs'

theorem Stops.leaves {c : Config} {input : Path} {letters : Text} {fs fs' : FileSystem}
    {stage : Stage} {e : GenerateError} {drawn : Nat}
    (h : Stops c input letters fs stage e fs' drawn) : stage.Leaves fs fs' := by
  cases h with
  | reading hr => rfl
  | building hr hd => rfl
  | recovering hr hd ht hm => rfl
  | staging hr hd hg hs => rfl
  | declaring hr hd hg hst hs => exact hs.addsDirectories
  | defining hr hd hg hst hs hs' =>
      obtain ⟨l, hl, hup⟩ := hs.updates
      have hadds := hs'.addsDirectories
      refine ⟨l, hadds.grows.locate hl, hup.grows.trans hadds.grows, fun other => ?_⟩
      rw [hadds.file?, hup.file?]

/-- Where temporary files can be made, no run stops for want of one. -/
theorem Stops.ne_staging {c : Config} {input : Path} {letters : Text} {fs fs' : FileSystem}
    {stage : Stage} {e : GenerateError} {drawn : Nat}
    (h : Stops c input letters fs stage e fs' drawn) (hall : fs.TakesAll) : stage ≠ .staging := by
  rintro rfl
  cases h with
  | staging hr hd hg hs => exact (hall.stages _).not_refuses hs

theorem finishes_of_generateFile {c : Config} {input : Path} {w w' : World} {r : Report}
    (h : w.after (generateFile c input) = (.ok r, w')) :
    ∃ source d mid drawn,
      Finishes { c with command? := some (bannerCommand input) } input
        (w.letters Guard.suffixLength) w.files source d r mid w'.files drawn := by
  rw [generateFile, World.after_adapt] at h
  cases hrun : w.after (generate { c with command? := some (bannerCommand input) } input) with
  | mk answer mid =>
      rw [hrun] at h
      cases answer with
      | error e => cases h
      | ok r =>
          cases h
          obtain ⟨source, d, mid, drawn, hf, _⟩ := finishes_of_generate hrun
          exact ⟨source, d, mid, drawn, hf⟩

/-- Only a run that stops at the definition changes a file. -/
theorem Stage.Leaves.exists_defining {stage : Stage} {fs fs' : FileSystem}
    (h : stage.Leaves fs fs') {l : Location} (hl : fs'.file? l ≠ fs.file? l) :
    ∃ declared, stage = .defining declared := by
  cases stage with
  | reading | building | recovering | staging => exact absurd (congrArg (·.file? l) h) hl
  | declaring => exact absurd (FileSystem.AddsDirectories.file? h l) hl
  | defining declared => exact ⟨declared, rfl⟩

theorem stops_of_generateFile {c : Config} {input : Path} {w w' : World} {f : Failure}
    (h : w.after (generateFile c input) = (.error f, w')) :
    ∃ stage e drawn, f = e.failure input ∧
      Stops { c with command? := some (bannerCommand input) } input
        (w.letters Guard.suffixLength) w.files stage e w'.files drawn := by
  rw [generateFile, World.after_adapt] at h
  cases hrun : w.after (generate { c with command? := some (bannerCommand input) } input) with
  | mk answer mid =>
      rw [hrun] at h
      cases answer with
      | ok r => cases h
      | error e =>
          cases h
          obtain ⟨stage, drawn, hs, _⟩ := stops_of_generate hrun
          exact ⟨stage, e, drawn, rfl, hs⟩

/-! ## A command line that fails -/

/-- Inputs that were generated make no difference to what can be staged. -/
theorem Completes.sameSetting {c : Config} {inputs : List Path} {w w' : World}
    (h : Completes c inputs w w') : w.files.SameSetting w'.files := by
  induction h with
  | nil w => exact .refl _
  | cons h hrest ih =>
      obtain ⟨_, _, _, _, hf⟩ := finishes_of_generateFile h
      exact hf.grows.toSameSetting.trans ih

end EnumCodegen
