import EnumCodegen.Proofs.Run.Failure
import EnumCodegen.Proofs.Run.Settling

/-! # The order of inputs

Inputs whose files are all different do not disturb each other, once each of them has its
token. So whatever their order is, each emits the same texts, and these are settled on the
way to the same end. -/

namespace EnumCodegen

/-! ## What an input asks for -/

/-- The description of an input, and the token that is there for it before any run. -/
structure Plan where
  description : Description
  token : Text

/-- The token that a description sets, or else the one that a file keeps. -/
def Description.tokenIn? (d : Description) (fs : FileSystem) (declaration : Path) : Option Text :=
  (d.guardToken?.filter (· ≠ [])).or (fs.marker declaration).toOption.join

/-- What an input asks for, if it can be understood, and if it sets a token or has a
declaration file that keeps one. -/
def Config.plan? (c : Config) (fs : FileSystem) (input : Path) : Option Plan := do
  let source ← (fs.text input).toOption
  let d ← (Description.ofText source).toOption
  let token ← d.tokenIn? fs (c.declarationPath d (Guard.title input))
  return ⟨d, token⟩

def Plan.artifacts (plan : Plan) (c : Config) (input : Path) : List Artifact :=
  let c := { c with command? := some (bannerCommand input) }
  let title := Guard.title input
  c.artifacts plan.description title plan.token

def Config.artifactsOf (c : Config) (fs : FileSystem) (input : Path) : List Artifact :=
  (c.plan? fs input).elim [] fun plan => plan.artifacts c input

def Config.filesOf (c : Config) (fs : FileSystem) (input : Path) : List Path :=
  input :: (c.artifactsOf fs input).map (·.path)

/-- Inputs that all have a token and whose files are all different. No path goes up, so a
file is known by the place of its path. -/
structure Independent (c : Config) (fs : FileSystem) (inputs : List Path) : Prop where
  planned : ∀ input ∈ inputs, (c.plan? fs input).isSome = true
  descends : ∀ p ∈ inputs.flatMap (c.filesOf fs), p.Descends
  apart : ((inputs.flatMap (c.filesOf fs)).map fs.place).Nodup

section Plan

variable {c : Config} {fs fs' mid : FileSystem} {input : Path} {plan : Plan} {letters : Text}
  {drawn : Nat}

theorem plan?_eq_some_iff :
    c.plan? fs input = some plan ↔
      ∃ source, fs.text input = .ok source ∧ Description.ofText source = .ok plan.description ∧
        plan.description.tokenIn? fs (c.declarationPath plan.description (Guard.title input)) =
          some plan.token := by
  rw [Config.plan?]
  cases hr : fs.text input with
  | error e => simp [Except.toOption]
  | ok source =>
      cases hd : Description.ofText source with
      | error e => simp [Except.toOption, hd]
      | ok d =>
          simp only [Except.toOption, Option.bind_eq_bind, Option.bind_some, hd, Except.ok.injEq,
            exists_eq_left', Option.bind_eq_some_iff, Option.pure_def, Option.some.injEq]
          constructor
          · rintro ⟨token, htoken, rfl⟩
            exact ⟨rfl, htoken⟩
          · rintro ⟨rfl, htoken⟩
            exact ⟨_, htoken, rfl⟩

theorem planned_eq {source : Text} {d : Description} (hp : c.plan? fs input = some plan)
    (hr : fs.text input = .ok source) (hd : Description.ofText source = .ok d) :
    d = plan.description := by
  obtain ⟨source', hread, hbuilt, _⟩ := plan?_eq_some_iff.mp hp
  rw [hr] at hread
  cases hread
  exact Except.ok.inj (hd.symm.trans hbuilt)

theorem artifactsOf_eq (h : c.plan? fs input = some plan) :
    c.artifactsOf fs input = plan.artifacts c input := by
  rw [Config.artifactsOf, h]
  rfl

theorem Resolves.token_eq {d : Description} {declaration : Path} {guard : GuardToken}
    {token : Text} (h : Resolves fs d.guardToken? input declaration letters guard drawn)
    (ht : d.tokenIn? fs declaration = some token) : guard.token = token := by
  rw [Description.tokenIn?] at ht
  cases h with
  | explicit h =>
      rw [h] at ht
      exact Option.some.inj ht
  | recovered h hm =>
      rw [h, hm] at ht
      exact Option.some.inj ht
  | generated h hm =>
      rw [h, hm] at ht
      cases ht

/-- A run that ends with a report has settled what its input asked for. -/
theorem Finishes.settlesAll {source : Text} {d : Description} {r : Report}
    (h : Finishes { c with command? := some (bannerCommand input) } input letters fs source d r
      mid fs' drawn) (hp : c.plan? fs input = some plan) :
    SettlesAll fs (plan.artifacts c input) fs' := by
  obtain rfl := planned_eq hp h.read h.built
  obtain ⟨_, _, _, htoken⟩ := plan?_eq_some_iff.mp hp
  have hresolved := h.resolved
  rw [h.declarationPath] at hresolved
  have hdeclared := h.declared
  have hdefined := h.defined
  rw [hresolved.token_eq htoken] at hdeclared hdefined
  exact .cons hdeclared (.cons hdefined (.nil _))

theorem Finishes.stages {source : Text} {d : Description} {r : Report}
    (h : Finishes { c with command? := some (bannerCommand input) } input letters fs source d r
      mid fs' drawn) (hp : c.plan? fs input = some plan) :
    fs.Stages (plan.artifacts c input) := by
  obtain rfl := planned_eq hp h.read h.built
  obtain ⟨_, _, _, htoken⟩ := plan?_eq_some_iff.mp hp
  have hresolved := h.resolved
  rw [h.declarationPath] at hresolved
  have hstaged := h.staged
  rw [hresolved.token_eq htoken] at hstaged
  exact hstaged

/-- A run that stops short, though all that its input asked for was staged, has stopped at
a file of these. -/
theorem Stops.settles {stage : Stage} {e : GenerateError}
    (h : Stops { c with command? := some (bannerCommand input) } input letters fs stage e fs' drawn)
    (hp : c.plan? fs input = some plan) (hst : fs.Stages (plan.artifacts c input)) :
    ∃ done a later cause mid, plan.artifacts c input = done ++ a :: later ∧
      SettlesAll fs done mid ∧ Settles mid a (.error cause) fs' := by
  obtain ⟨source, hread, hbuilt, htoken⟩ := plan?_eq_some_iff.mp hp
  cases h with
  | reading hr => simp [hr] at hread
  | building hr hd =>
      rw [hr] at hread
      cases hread
      simp [hd] at hbuilt
  | recovering hr hd ht hm =>
      obtain rfl := planned_eq hp hr hd
      rw [Description.tokenIn?, ht] at htoken
      have hm : fs.marker (c.declarationPath plan.description (Guard.title input)) = _ := hm
      rw [hm] at htoken
      cases htoken
  | staging hr hd hg hs =>
      obtain rfl := planned_eq hp hr hd
      rw [hg.token_eq htoken] at hs
      exact absurd hs hst.not_refuses
  | declaring hr hd hg hst hs =>
      obtain rfl := planned_eq hp hr hd
      rw [hg.token_eq htoken] at hs
      exact ⟨[], _, _, _, _, rfl, .nil _, hs⟩
  | defining hr hd hg hst hs hs' =>
      obtain rfl := planned_eq hp hr hd
      rw [hg.token_eq htoken] at hs hs'
      exact ⟨[_], _, [], _, _, rfl, .cons hs (.nil _), hs'⟩

end Plan

/-! ## Inputs that do not disturb each other -/

section Independent

variable {c : Config} {fs fs' final : FileSystem} {input : Path} {inputs rest : List Path}
  {plan : Plan} {as : List Artifact}

theorem path_mem_filesOf {a : Artifact} (ha : a ∈ c.artifactsOf fs input) :
    a.path ∈ c.filesOf fs input :=
  List.mem_cons_of_mem _ (List.mem_map_of_mem ha)

theorem declarationPath_mem_filesOf (hp : c.plan? fs input = some plan) :
    c.declarationPath plan.description (Guard.title input) ∈ c.filesOf fs input := by
  rw [Config.filesOf, artifactsOf_eq hp]
  exact List.mem_cons_of_mem _ List.mem_cons_self

theorem artifact_paths_sublist (c : Config) (fs : FileSystem) (inputs : List Path) :
    ((inputs.flatMap (c.artifactsOf fs)).map (·.path)).Sublist (inputs.flatMap (c.filesOf fs)) := by
  induction inputs with
  | nil => exact .slnil
  | cons input rest ih =>
      rw [List.flatMap_cons, List.flatMap_cons, List.map_append]
      exact (List.sublist_cons_self _ _).append ih

theorem marker_of_join {p : Path} {token : Text}
    (h : (fs.marker p).toOption.join = some token) : fs.marker p = .ok (some token) := by
  cases hm : fs.marker p with
  | error e =>
      rw [hm] at h
      cases h
  | ok token? =>
      rw [hm] at h
      exact congrArg Except.ok h

/-- Settling artifacts at other places makes no difference to what an input asks for. -/
theorem SettlesAll.plan?_eq (h : SettlesAll fs as fs') (hp : c.plan? fs input = some plan)
    (hfiles : ∀ p ∈ c.filesOf fs input, ∀ a ∈ as, fs.target p ≠ fs.target a.path) :
    c.plan? fs' input = some plan := by
  obtain ⟨source, hread, hbuilt, htoken⟩ := plan?_eq_some_iff.mp hp
  refine plan?_eq_some_iff.mpr ⟨source, ?_, hbuilt, ?_⟩
  · obtain ⟨content, hcontent, hdecode⟩ := FileSystem.text_eq_ok_iff.mp hread
    have hinput := hfiles input List.mem_cons_self
    exact FileSystem.text_eq_ok_iff.mpr ⟨content, h.read_other hcontent hinput, hdecode⟩
  · rw [Description.tokenIn?] at htoken ⊢
    cases hown : plan.description.guardToken?.filter (· ≠ []) with
    | some own => rwa [hown] at htoken
    | none =>
        rw [hown, Option.none_or] at htoken
        have hkept : fs.marker _ = .ok (some plan.token) := marker_of_join htoken
        obtain ⟨content, hcontent, hrecovered⟩ := FileSystem.marker_eq_some_iff.mp hkept
        have hdeclaration := hfiles _ (declarationPath_mem_filesOf hp)
        have hcontent := h.read_other hcontent hdeclaration
        rw [Option.none_or, FileSystem.marker_eq_some_iff.mpr ⟨content, hcontent, hrecovered⟩]
        rfl

theorem Independent.perm {inputs' : List Path} (h : Independent c fs inputs)
    (hperm : inputs.Perm inputs') : Independent c fs inputs' := by
  have hfiles := hperm.flatMap_right (c.filesOf fs)
  refine ⟨fun input hmem => h.planned input (hperm.mem_iff.mpr hmem),
    fun p hmem => h.descends p (hfiles.mem_iff.mpr hmem), ?_⟩
  exact (hfiles.map fs.place).nodup_iff.mp h.apart

theorem Independent.artifact_descends (h : Independent c fs inputs) :
    ∀ a ∈ inputs.flatMap (c.artifactsOf fs), a.path.Descends := by
  intro a ha
  exact h.descends _ ((artifact_paths_sublist c fs inputs).subset (List.mem_map_of_mem ha))

theorem Independent.artifact_apart (h : Independent c fs inputs) :
    ((inputs.flatMap (c.artifactsOf fs)).map fun a => fs.target a.path).Nodup := by
  have hsub := (artifact_paths_sublist c fs inputs).map fs.place
  rw [List.map_map] at hsub
  rw [List.map_congr_left fun a ha => fs.target_eq_place (h.artifact_descends a ha)]
  exact hsub.nodup h.apart

theorem Independent.tail (h : Independent c fs (input :: rest)) : Independent c fs rest := by
  have hapart := h.apart
  rw [List.flatMap_cons, List.map_append] at hapart
  refine ⟨fun other ho => h.planned other (List.mem_cons_of_mem _ ho), fun p hp => ?_,
    (List.sublist_append_right _ _).nodup hapart⟩
  apply h.descends
  rw [List.flatMap_cons]
  exact List.mem_append_right _ hp

theorem Independent.apart_first (h : Independent c fs (input :: rest)) {a : Artifact}
    (ha : a ∈ c.artifactsOf fs input) :
    ∀ p ∈ rest.flatMap (c.filesOf fs), fs.place p ≠ fs.place a.path := by
  intro p hp he
  have hapart := h.apart
  rw [List.flatMap_cons, List.map_append, List.nodup_append] at hapart
  have hfirst := List.mem_map_of_mem (f := fs.place) (path_mem_filesOf ha)
  exact hapart.2.2 _ hfirst _ (List.mem_map_of_mem hp) he.symm

/-- Once the files of the first input are settled, the others ask for what they asked for. -/
theorem Independent.plan?_eq (h : Independent c fs (input :: rest))
    (hs : SettlesAll fs (c.artifactsOf fs input) fs') :
    ∀ other ∈ rest, c.plan? fs' other = c.plan? fs other := by
  intro other ho
  have has := h.artifact_descends
  rw [List.flatMap_cons, List.forall_mem_append] at has
  obtain ⟨plan, hp⟩ := Option.isSome_iff_exists.mp (h.tail.planned other ho)
  rw [hp]
  apply hs.plan?_eq hp
  intro p hmem a ha
  have hmem := List.mem_flatMap.mpr ⟨other, ho, hmem⟩
  rw [fs.target_eq_place (h.tail.descends p hmem), fs.target_eq_place (has.1 a ha)]
  exact h.apart_first ha p hmem

theorem artifactsOf_congr (h : ∀ input ∈ inputs, c.plan? fs' input = c.plan? fs input) :
    inputs.flatMap (c.artifactsOf fs') = inputs.flatMap (c.artifactsOf fs) := by
  apply List.flatMap_congr
  intro input hinput
  rw [Config.artifactsOf, Config.artifactsOf, h input hinput]

theorem Independent.congr (hi : Independent c fs inputs)
    (h : ∀ input ∈ inputs, c.plan? fs' input = c.plan? fs input)
    (hplace : ∀ p, fs'.place p = fs.place p) : Independent c fs' inputs := by
  have hfiles : inputs.flatMap (c.filesOf fs') = inputs.flatMap (c.filesOf fs) := by
    apply List.flatMap_congr
    intro input hinput
    rw [Config.filesOf, Config.filesOf, Config.artifactsOf, Config.artifactsOf, h input hinput]
  refine ⟨fun input hinput => ?_, ?_, ?_⟩
  · rw [h input hinput]
    exact hi.planned input hinput
  · rw [hfiles]
    exact hi.descends
  · rw [hfiles, funext hplace]
    exact hi.apart

/-- The other inputs are as independent after the first as they were before it. -/
theorem Independent.later (h : Independent c fs (input :: rest))
    (hs : SettlesAll fs (c.artifactsOf fs input) fs') :
    rest.flatMap (c.artifactsOf fs') = rest.flatMap (c.artifactsOf fs) ∧
      Independent c fs' rest :=
  ⟨artifactsOf_congr (h.plan?_eq hs), h.tail.congr (h.plan?_eq hs) hs.persists.place_eq⟩

end Independent

/-! ## Runs over independent inputs -/

section Runs

variable {c : Config} {final : FileSystem} {input : Path} {inputs inputs' : List Path}
  {w w' : World}

/-- A run over independent inputs settles what they asked for before it. -/
theorem Completes.settlesAll (h : Completes c inputs w w') (hi : Independent c w.files inputs) :
    SettlesAll w.files (inputs.flatMap (c.artifactsOf w.files)) w'.files := by
  induction h with
  | nil w => exact .nil _
  | @cons input rest w mid w' r h hrest ih =>
      obtain ⟨plan, hp⟩ := Option.isSome_iff_exists.mp (hi.planned input List.mem_cons_self)
      obtain ⟨_, _, _, _, hf⟩ := finishes_of_generateFile h
      have hfirst : SettlesAll w.files (c.artifactsOf w.files input) mid.files :=
        artifactsOf_eq hp ▸ hf.settlesAll hp
      obtain ⟨hsame, hi⟩ := hi.later hfirst
      have hlater := ih hi
      rw [List.flatMap_cons, ← hsame]
      exact hfirst.append hlater

/-- All that independent inputs asked for was staged at some time, so it could be before. -/
theorem Completes.stages (h : Completes c inputs w w') (hi : Independent c w.files inputs) :
    w.files.Stages (inputs.flatMap (c.artifactsOf w.files)) := by
  induction h with
  | nil w => exact List.forall_mem_nil _
  | @cons input rest w mid w' r h hrest ih =>
      obtain ⟨plan, hp⟩ := Option.isSome_iff_exists.mp (hi.planned input List.mem_cons_self)
      obtain ⟨_, _, _, _, hf⟩ := finishes_of_generateFile h
      have hfirst : SettlesAll w.files (c.artifactsOf w.files input) mid.files :=
        artifactsOf_eq hp ▸ hf.settlesAll hp
      obtain ⟨hsame, hi⟩ := hi.later hfirst
      have hlater := hfirst.persists.toSameSetting.symm.stages (ih hi)
      rw [List.flatMap_cons, ← hsame, artifactsOf_eq hp]
      exact List.forall_mem_append.mpr ⟨hf.stages hp, hlater⟩

/-- Independent inputs can all be generated where all that they ask for will stand. -/
theorem Independent.completes (hi : Independent c w.files inputs)
    (hk : w.files.Persists final) (hcurrent : w.files.node? w.files.current = some .directory)
    (hst : w.files.Stages (inputs.flatMap (c.artifactsOf w.files)))
    (hread : ∀ a ∈ inputs.flatMap (c.artifactsOf w.files),
      final.read a.path = .ok (Utf8.encode a.text)) : ∃ w', Completes c inputs w w' := by
  induction inputs generalizing w with
  | nil => exact ⟨w, .nil w⟩
  | cons input rest ih =>
      obtain ⟨plan, hp⟩ := Option.isSome_iff_exists.mp (hi.planned input List.mem_cons_self)
      have has := hi.artifact_descends
      rw [List.flatMap_cons, List.forall_mem_append] at hread has
      obtain ⟨hown, hothers⟩ := List.forall_mem_append.mp (List.flatMap_cons ▸ hst)
      cases hrun : (w.record [.input input]).after (generateFile c input) with
      | mk answer mid =>
          cases answer with
          | error f =>
              obtain ⟨stage, e, drawn, _, hstops⟩ := stops_of_generateFile hrun
              obtain ⟨done, a, later, cause, files, he, hdone, hs⟩ :=
                hstops.settles hp (artifactsOf_eq hp ▸ hown)
              rw [artifactsOf_eq hp, he] at hread has
              obtain ⟨outcome, ho⟩ := hdone.next_ok hk hcurrent has.1 hread.1 hs
              cases ho
          | ok r =>
              obtain ⟨_, _, _, _, hf⟩ := finishes_of_generateFile hrun
              have hfirst : SettlesAll w.files (c.artifactsOf w.files input) mid.files :=
                artifactsOf_eq hp ▸ hf.settlesAll hp
              have hadopts := hfirst.adopts hk hcurrent has.1 hread.1
              obtain ⟨hsame, hi⟩ := hi.later hfirst
              rw [← hsame] at hread
              obtain ⟨w', hrest⟩ := @ih (mid.record r.events) hi (hadopts.persists hk)
                (hfirst.current_directory hcurrent)
                (hsame ▸ hfirst.persists.toSameSetting.stages hothers) hread.2
              exact ⟨w', .cons hrun hrest⟩

/-- The same stands everywhere, and the setting is the same. -/
structure FileSystem.Alike (fs fs' : FileSystem) : Prop extends fs.SameSetting fs' where
  node : ∀ l, fs'.node? l = fs.node? l

/-- If inputs whose files are all different, and that all have a token, can be generated in
one order, they can be in any other, and the files end up the same. The current directory
is there, as that of a running program is. -/
theorem generateFiles_perm (h : w.after (generateFiles c inputs) = (.ok (), w'))
    (hcurrent : w.files.node? w.files.current = some .directory)
    (hi : Independent c w.files inputs) (hperm : inputs.Perm inputs') :
    ∃ w'', w.after (generateFiles c inputs') = (.ok (), w'') ∧ w'.files.Alike w''.files := by
  have hs := (completes_iff.mpr h).settlesAll hi
  have hk := hs.persists
  have hread := hs.read hi.artifact_apart
  have hi' := hi.perm hperm
  have hmem := fun a => (hperm.flatMap_right (c.artifactsOf w.files)).mem_iff (a := a)
  have hread' : ∀ a ∈ inputs'.flatMap (c.artifactsOf w.files),
      w'.files.read a.path = .ok (Utf8.encode a.text) :=
    fun a ha => hread a ((hmem a).mpr ha)
  have hst' := fun a ha => (completes_iff.mpr h).stages hi a ((hmem a).mpr ha)
  obtain ⟨w'', hcompletes⟩ := hi'.completes hk hcurrent hst' hread'
  have hs' := hcompletes.settlesAll hi'
  have hend := hs.adopts hk hcurrent hi.artifact_descends hread
  have hend' := hs'.adopts hk hcurrent hi'.artifact_descends hread'
  refine ⟨w'', completes_iff.mp hcompletes, hend.toSameSetting.symm.trans hend'.toSameSetting, ?_⟩
  exact hend'.node?_eq hend fun a => (hmem a).mp

/-- Two descriptions, of which one sets its token and the other has it from a declaration
file. They share a directory that neither finds. -/
theorem generateFiles_perm_pair :
    let w := World.holding
      [("a.ini", "header-guard=A\ninclude-dir=gen/include\n[Color]\nfield=RED\n"),
        ("b.ini", "src-dir=gen/source\n"), ("b.h", markerLead ++ "kept\n")]
    let first := w.after (generateFiles {} [.ofText "a.ini", .ofText "b.ini"])
    ∃ w'', w.after (generateFiles {} [.ofText "b.ini", .ofText "a.ini"]) = (.ok (), w'') ∧
      first.2.files.Alike w''.files := by
  intro w first
  let inputs : List Path := [.ofText "a.ini", .ofText "b.ini"]
  have hrun : w.after (generateFiles {} inputs) = (.ok (), first.2) :=
    Prod.ext (by decide +kernel) rfl
  have hi : Independent {} w.files inputs :=
    ⟨by decide +kernel, by decide +kernel, by decide +kernel⟩
  exact generateFiles_perm hrun (by decide +kernel) hi (.swap _ _ _)

end Runs

end EnumCodegen
