import EnumCodegen.Proofs.Run.Staging

/-! # The rules of a run

A run ends with a report, or it stops at one of six steps. In a world every run follows
exactly one of these rules, and what it leaves of the world besides its files, its
letters and what is recorded is as it was. -/

namespace EnumCodegen

/-! ## The rules -/

/-- A run that ends with a report: the description is read from `source`, the token is
found, and both files are settled, the definition in the files `mid` that settling the
declaration left. -/
structure Finishes (c : Config) (input : Path) (letters : Text) (fs : FileSystem)
    (source : Text) (d : Description) (r : Report) (mid fs' : FileSystem) (drawn : Nat) : Prop where
  read : fs.text input = .ok source
  built : Description.ofText source = .ok d
  declarationPath : r.declarationPath = c.declarationPath d (Guard.title input)
  definitionPath : r.definitionPath = c.definitionPath d (Guard.title input)
  warnings : r.warnings = (Reading.ofText source).diagnostics.length
  resolved : Resolves fs d.guardToken? input r.declarationPath letters r.guard drawn
  staged : fs.Stages (c.artifacts d (Guard.title input) r.guard.token)
  declared : Settles fs (c.declarationArtifact d (Guard.title input) r.guard.token)
    (.ok r.declaration) mid
  defined : Settles mid (c.definitionArtifact d (Guard.title input) r.guard.token)
    (.ok r.definition) fs'

theorem Finishes.grows {c : Config} {input : Path} {letters source : Text} {d : Description}
    {r : Report} {fs mid fs' : FileSystem} {drawn : Nat}
    (h : Finishes c input letters fs source d r mid fs' drawn) : fs.Grows fs' := by
  obtain ⟨_, _, hdeclared⟩ := h.declared.updates
  obtain ⟨_, _, hdefined⟩ := h.defined.updates
  exact hdeclared.grows.trans hdefined.grows

/-- The step at which a run stops short. The last one knows the file settled before it. -/
inductive Stage where
  | reading
  | building
  | recovering
  | staging
  | declaring
  | defining (declared : Artifact)

/-- A run that stops short, by the step at which it does. -/
inductive Stops (c : Config) (input : Path) (letters : Text) (fs : FileSystem) :
    Stage → GenerateError → FileSystem → Nat → Prop where
  | reading {e} (hr : fs.text input = .error e) :
      Stops c input letters fs .reading (.file ⟨input, e⟩) fs 0
  | building {source e} (hr : fs.text input = .ok source)
      (hd : Description.ofText source = .error e) :
      Stops c input letters fs .building (.model e) fs 0
  | recovering {source d e} (hr : fs.text input = .ok source)
      (hd : Description.ofText source = .ok d) (ht : d.guardToken?.filter (· ≠ []) = none)
      (hm : fs.marker (c.declarationPath d (Guard.title input)) = .error e) :
      Stops c input letters fs .recovering
        (.file ⟨c.declarationPath d (Guard.title input), e⟩) fs 0
  | staging {source d guard drawn a e} (hr : fs.text input = .ok source)
      (hd : Description.ofText source = .ok d)
      (hg : Resolves fs d.guardToken? input (c.declarationPath d (Guard.title input)) letters
        guard drawn)
      (hs : fs.Refuses (c.artifacts d (Guard.title input) guard.token) a e) :
      Stops c input letters fs .staging (.file ⟨a.path, e⟩) fs drawn
  | declaring {source d guard drawn e fs'} (hr : fs.text input = .ok source)
      (hd : Description.ofText source = .ok d)
      (hg : Resolves fs d.guardToken? input (c.declarationPath d (Guard.title input)) letters
        guard drawn)
      (hst : fs.Stages (c.artifacts d (Guard.title input) guard.token))
      (hs : Settles fs (c.declarationArtifact d (Guard.title input) guard.token) (.error e) fs') :
      Stops c input letters fs .declaring
        (.file ⟨c.declarationPath d (Guard.title input), e⟩) fs' drawn
  | defining {source d guard drawn outcome mid e fs'} (hr : fs.text input = .ok source)
      (hd : Description.ofText source = .ok d)
      (hg : Resolves fs d.guardToken? input (c.declarationPath d (Guard.title input)) letters
        guard drawn)
      (hst : fs.Stages (c.artifacts d (Guard.title input) guard.token))
      (hs : Settles fs (c.declarationArtifact d (Guard.title input) guard.token) (.ok outcome) mid)
      (hs' : Settles mid (c.definitionArtifact d (Guard.title input) guard.token) (.error e) fs') :
      Stops c input letters fs
        (.defining (c.declarationArtifact d (Guard.title input) guard.token))
        (.file ⟨c.definitionPath d (Guard.title input), e⟩) fs' drawn

/-! ## Every run follows a rule -/

/-- What a run in a world ends with: an answer by one of the rules, and a world in which
only the files, the letters and what is recorded have moved on. -/
inductive RunEnds (c : Config) (input : Path) (w : World) :
    Except GenerateError Report × World → Prop where
  | finished {source d r mid files} (drawn : Nat) (log touched)
      (h : Finishes c input (w.letters Guard.suffixLength) w.files source d r mid files drawn) :
      RunEnds c input w (.ok r, { w with files, drawn := w.drawn + drawn, log, touched })
  | stopped {stage e files} (drawn : Nat) (log touched)
      (h : Stops c input (w.letters Guard.suffixLength) w.files stage e files drawn) :
      RunEnds c input w (.error e, { w with files, drawn := w.drawn + drawn, log, touched })

/-- What was recorded before a run does not matter to it. -/
theorem RunEnds.of_recorded {c : Config} {input : Path} {w : World} {log : List LogRecord}
    {touched : List Path} {ending : Except GenerateError Report × World}
    (h : RunEnds c input { w with log, touched } ending) : RunEnds c input w ending := by
  cases h with
  | finished drawn log touched h => exact .finished drawn log touched h
  | stopped drawn log touched h => exact .stopped drawn log touched h

theorem Reconciles.pair {fs fs' : FileSystem} {a b : Artifact} {outcomes : List Outcome}
    (h : Reconciles fs [a, b] outcomes fs') :
    ∃ first second mid, outcomes = [first, second] ∧ Settles fs a (.ok first) mid ∧
      Settles mid b (.ok second) fs' := by
  cases h with
  | cons ha hrest =>
      cases hrest with
      | cons hb hnil =>
          cases hnil
          exact ⟨_, _, _, rfl, ha, hb⟩

theorem Reconciles.single {fs fs' : FileSystem} {a : Artifact} {outcomes : List Outcome}
    (h : Reconciles fs [a] outcomes fs') : ∃ outcome, Settles fs a (.ok outcome) fs' := by
  cases h with
  | cons ha hnil =>
      cases hnil
      exact ⟨_, ha⟩

theorem pair_eq_append_cons {a b x : Artifact} {front back : List Artifact}
    (h : [a, b] = front ++ x :: back) : front = [] ∧ x = a ∨ front = [a] ∧ x = b := by
  rcases front with _ | ⟨y, _ | ⟨z, rest⟩⟩
  · exact .inl ⟨rfl, (List.cons.inj h).1.symm⟩
  · simp only [List.cons_append, List.nil_append, List.cons.injEq] at h
    exact .inr ⟨by rw [h.1], h.2.1.symm⟩
  · simp at h

theorem produce_ends (c : Config) (input : Path) (w : World) {source : Text} {d : Description}
    (hr : w.files.text input = .ok source) (hd : Description.ofText source = .ok d) :
    RunEnds c input w (w.after (produce c input d (Reading.ofText source).diagnostics.length)) := by
  simp only [produce, onPath, World.after_bind, World.after_noteAll, List.cons_append,
    List.nil_append]
  rw [World.after_adapt]
  rcases resolve_after w [.generate input] d.guardToken? input
    (c.declarationPath d (Guard.title input)) with
    ⟨guard, drawn, log, touched, hg, he⟩ | ⟨e, touched, ht, hm, he⟩
  · simp only [he, Except.mapError, World.andThen_ok, World.after_adapt]
    have hends := reconcile_ends
      { w with
        drawn := w.drawn + drawn, touched
        log := log ++ d.emitEvents.map
          (LogRecord.mk [.generate input, .emit d.enumerations.length]) }
      [.generate input, .reconcile (c.artifacts d (Guard.title input) guard.token).length]
      (c.artifacts d (Guard.title input) guard.token)
    generalize World.after _ (reconcile _ _) = ending at *
    cases hends with
    | unstaged h => exact .stopped _ _ _ (.staging hr hd hg h)
    | staged hst h =>
        cases h with
        | finished log touched h =>
            obtain ⟨first, second, mid, rfl, ha, hb⟩ := h.pair
            exact .finished _ _ _ ⟨hr, hd, rfl, rfl, rfl, hg, hst, ha, hb⟩
        | stopped log touched has h hs =>
            rcases pair_eq_append_cons has with ⟨rfl, rfl⟩ | ⟨rfl, rfl⟩
            · cases h
              exact .stopped _ _ _ (.declaring hr hd hg hst hs)
            · obtain ⟨outcome, ha⟩ := h.single
              exact .stopped _ _ _ (.defining hr hd hg hst ha hs)
  · rw [he]
    exact .stopped 0 _ _ (.recovering hr hd ht hm)

/-- Every run follows one of the rules. -/
theorem generate_ends (c : Config) (input : Path) (w : World) :
    RunEnds c input w (w.after (generate c input)) := by
  simp only [generate, onPath, World.after_bind, World.after_adapt, World.after_readText]
  cases hr : w.files.text input with
  | error e => exact .stopped 0 _ _ (.reading hr)
  | ok source =>
      simp only [Except.mapError, World.andThen_ok, World.after_noteAll]
      cases hd : Description.ofTriples (Reading.ofText source).triples with
      | error e => exact .stopped 0 _ _ (.building hr hd)
      | ok d => exact .of_recorded (produce_ends c input _ hr hd)

theorem finishes_of_generate {c : Config} {input : Path} {w w' : World} {r : Report}
    (h : w.after (generate c input) = (.ok r, w')) :
    ∃ source d mid drawn,
      Finishes c input (w.letters Guard.suffixLength) w.files source d r mid w'.files drawn ∧
      w'.drawn = w.drawn + drawn := by
  have he := generate_ends c input w
  rw [h] at he
  cases he with
  | finished drawn log touched hf => exact ⟨_, _, _, drawn, hf, rfl⟩

theorem stops_of_generate {c : Config} {input : Path} {w w' : World} {e : GenerateError}
    (h : w.after (generate c input) = (.error e, w')) :
    ∃ stage drawn,
      Stops c input (w.letters Guard.suffixLength) w.files stage e w'.files drawn ∧
      w'.drawn = w.drawn + drawn := by
  have he := generate_ends c input w
  rw [h] at he
  cases he with
  | stopped drawn log touched hs => exact ⟨_, drawn, hs, rfl⟩

end EnumCodegen
