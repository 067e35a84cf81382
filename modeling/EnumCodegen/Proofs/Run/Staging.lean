import EnumCodegen.Proofs.Run.Steps

/-! # Staging before writing

A run over artifacts puts every text into a temporary file before it looks at any target. If
one text cannot be staged the run ends there and has done nothing. Otherwise the artifacts are
settled one after the other, up to the first that cannot be. -/

namespace EnumCodegen

/-! ## What can be staged -/

namespace FileSystem

/-- A temporary file can be made for every content. -/
def TakesAll (fs : FileSystem) : Prop := ∀ content, fs.stage content = .ok ()

/-- Every artifact can be staged. -/
def Stages (fs : FileSystem) (as : List Artifact) : Prop :=
  ∀ a ∈ as, fs.stage (Utf8.encode a.text) = .ok ()

/-- An artifact cannot be staged, and those before it can. -/
def Refuses (fs : FileSystem) (as : List Artifact) (a : Artifact) (e : FileError) : Prop :=
  ∃ front back, as = front ++ a :: back ∧ fs.Stages front ∧
    fs.stage (Utf8.encode a.text) = .error e

variable {fs fs' : FileSystem} {as : List Artifact} {a : Artifact} {e : FileError}

theorem TakesAll.stages (h : fs.TakesAll) (as : List Artifact) : fs.Stages as :=
  fun _ _ => h _

theorem Stages.not_refuses (h : fs.Stages as) : ¬ fs.Refuses as a e := by
  rintro ⟨front, back, rfl, -, he⟩
  rw [h a (by simp)] at he
  cases he

theorem SameSetting.stages (h : fs.SameSetting fs') (hs : fs.Stages as) : fs'.Stages as :=
  fun a ha => (h.stage _).trans (hs a ha)

end FileSystem

section Staging

variable {α : Type} (w : World) (go : List Staged → ExceptT PathError Simulated α)

theorem after_withStaged_cons (a : Artifact) (rest : List Artifact) :
    w.after (withStaged (a :: rest) go) =
      match w.files.stage (Utf8.encode a.text) with
      | .ok () => w.after (withStaged rest fun others => go (a.staged :: others))
      | .error e => (.error ⟨a.path, e⟩, w) := by
  rw [withStaged, World.after_bind, Artifact.stage, World.after_adapt, World.after_map,
    World.after_stage]
  cases w.files.stage (Utf8.encode a.text) <;> rfl

/-- Either all artifacts are staged and the run goes on, or it ends at the first that cannot
be, and the world is as it was. -/
theorem withStaged_after (as : List Artifact) :
    (w.files.Stages as ∧ w.after (withStaged as go) = w.after (go (as.map Artifact.staged))) ∨
    ∃ a e, w.files.Refuses as a e ∧ w.after (withStaged as go) = (.error ⟨a.path, e⟩, w) := by
  induction as generalizing go with
  | nil => exact .inl ⟨List.forall_mem_nil _, rfl⟩
  | cons a rest ih =>
      rw [after_withStaged_cons]
      cases hs : w.files.stage (Utf8.encode a.text) with
      | error e => exact .inr ⟨a, e, ⟨[], rest, rfl, List.forall_mem_nil _, hs⟩, rfl⟩
      | ok u =>
          rcases ih fun others => go (a.staged :: others) with
            ⟨hall, he⟩ | ⟨b, e, ⟨front, back, rfl, hfront, hb⟩, he⟩
          · exact .inl ⟨List.forall_mem_cons.mpr ⟨hs, hall⟩, he⟩
          · have hfront' : w.files.Stages (a :: front) :=
              List.forall_mem_cons.mpr ⟨hs, hfront⟩
            exact .inr ⟨b, e, ⟨a :: front, back, rfl, hfront', hb⟩, he⟩

end Staging

/-! ## The rules -/

/-- Artifacts were settled one after the other, with these outcomes. -/
inductive Reconciles : FileSystem → List Artifact → List Outcome → FileSystem → Prop where
  | nil (fs) : Reconciles fs [] [] fs
  | cons {fs mid fs' a as outcome outcomes} (h : Settles fs a (.ok outcome) mid)
      (hrest : Reconciles mid as outcomes fs') :
      Reconciles fs (a :: as) (outcome :: outcomes) fs'

/-- What updating staged artifacts ends with: all are settled, or one of them cannot be. -/
inductive UpdateEnds (as : List Artifact) (w : World) :
    Except PathError (List Outcome) × World → Prop where
  | finished {outcomes files} (log touched) (h : Reconciles w.files as outcomes files) :
      UpdateEnds as w (.ok outcomes, { w with files, log, touched })
  | stopped {front a back outcomes mid e files} (log touched) (has : as = front ++ a :: back)
      (h : Reconciles w.files front outcomes mid) (hs : Settles mid a (.error e) files) :
      UpdateEnds as w (.error ⟨a.path, e⟩, { w with files, log, touched })

theorem updateAll_ends (w : World) (spans : List Span) (ss : List Staged) :
    UpdateEnds (ss.map (·.artifact)) w (w.after (updateAll spans ss)) := by
  induction ss generalizing w with
  | nil => exact .finished w.log w.touched (.nil w.files)
  | cons s ss ih =>
      obtain ⟨answer, files, log, touched, hs, he⟩ := settles_after_update w spans s
      rw [updateAll, World.after_bind, he, List.map_cons]
      cases answer with
      | error e => exact .stopped log touched (List.nil_append _).symm (.nil w.files) hs
      | ok outcome =>
          have hrest := ih { w with files, log, touched }
          simp only [Except.mapError, World.andThen_ok, World.after_bind, World.after_pure]
          generalize World.after { w with files, log, touched } (updateAll spans ss) = ending at *
          cases hrest with
          | finished log touched h => exact .finished log touched (.cons hs h)
          | stopped log touched has h hs' =>
              exact .stopped log touched (by rw [has, List.cons_append]) (.cons hs h) hs'

theorem map_artifact_staged (as : List Artifact) :
    (as.map Artifact.staged).map (·.artifact) = as := by
  rw [List.map_map]
  exact List.map_id as

/-- What a run over artifacts ends with. -/
inductive ReconcileEnds (as : List Artifact) (w : World) :
    Except PathError (List Outcome) × World → Prop where
  | unstaged {a e} (h : w.files.Refuses as a e) : ReconcileEnds as w (.error ⟨a.path, e⟩, w)
  | staged {ending} (hst : w.files.Stages as) (h : UpdateEnds as w ending) :
      ReconcileEnds as w ending

theorem reconcile_ends (w : World) (spans : List Span) (as : List Artifact) :
    ReconcileEnds as w (w.after (reconcile spans as)) := by
  rcases withStaged_after w (updateAll spans) as with ⟨hall, he⟩ | ⟨a, e, hrefuses, he⟩
  · rw [reconcile, he]
    have hends := updateAll_ends w spans (as.map Artifact.staged)
    rw [map_artifact_staged] at hends
    exact .staged hall hends
  · rw [reconcile, he]
    exact .unstaged hrefuses

/-- Where all artifacts can be staged, that makes no difference. -/
theorem FileSystem.Stages.after_reconcile {w : World} {as : List Artifact}
    (h : w.files.Stages as) (spans : List Span) :
    w.after (reconcile spans as) = w.after (updateAll spans (as.map Artifact.staged)) := by
  rcases withStaged_after w (updateAll spans) as with ⟨-, he⟩ | ⟨a, e, hrefuses, -⟩
  · exact he
  · exact absurd hrefuses h.not_refuses

theorem updates_of_stages {w : World} {as : List Artifact} (spans : List Span)
    (h : w.files.Stages as) : UpdateEnds as w (w.after (reconcile spans as)) := by
  have hends := reconcile_ends w spans as
  generalize w.after (reconcile spans as) = ending at *
  cases hends with
  | unstaged hrefuses => exact absurd hrefuses h.not_refuses
  | staged hst hends => exact hends

/-- A run that succeeds has staged all artifacts and settled them. -/
theorem reconciles_of_reconcile {w w' : World} {spans : List Span} {as : List Artifact}
    {outcomes : List Outcome} (h : w.after (reconcile spans as) = (.ok outcomes, w')) :
    w.files.Stages as ∧ Reconciles w.files as outcomes w'.files := by
  have hends := reconcile_ends w spans as
  rw [h] at hends
  cases hends with
  | staged hst hends =>
      cases hends with
      | finished log touched hs => exact ⟨hst, hs⟩

end EnumCodegen
