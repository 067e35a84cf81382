import EnumCodegen.Proofs.Run.Settling
import EnumCodegen.Proofs.Run.Staging

/-! # Reconciling artifacts with their files

Once all artifacts are staged, the files that differ are written and no others, in order, up to
the first that cannot be settled. What was done to one file can be told from what that file
held at the start and from whether its path led to it when its turn came. -/

namespace EnumCodegen

/-! ## One artifact -/

section Settles

variable {fs fs' : FileSystem} {a : Artifact} {outcome : Outcome} {l : Location}

/-- An artifact is left alone exactly if its file holds its text when its turn comes. -/
theorem Settles.eq_unchanged_iff (h : Settles fs a (.ok outcome) fs') :
    outcome = .unchanged ↔ fs.read a.path = .ok (Utf8.encode a.text) := by
  cases h with
  | same h => simp [h]
  | written h hd hp hw =>
      simp only [reduceCtorEq, false_iff]
      intro hread
      rw [FileSystem.content?_of_read hread] at h
      cases h
      exact hd rfl

theorem FileSystem.passes_of_makeParent {p : Path}
    (hl : (fs.makeParent p).2.node? l ≠ fs.node? l) : fs.Passes p l := by
  unfold makeParent at hl
  split at hl
  · exact absurd rfl hl
  · rename_i parent hparent
    split at hl
    · exact absurd rfl hl
    · exact passes_of_makeDirectories hparent hl

/-- Only what is written changes its file and adds directories, and these are on the way
to the file. -/
theorem Settles.node?_cases (h : Settles fs a (.ok outcome) fs') (l : Location) :
    fs'.node? l = fs.node? l ∨ outcome = .written ∧ (fs.target a.path = l ∨
      fs.node? l = none ∧ fs'.node? l = some .directory ∧ fs.Passes a.path l) := by
  cases h with
  | same h => exact .inl rfl
  | @written old fs' h hd hp hw =>
      have hadds := fs.addsDirectories_makeParent a.path
      obtain ⟨place, hlocate, -, hputs⟩ := FileSystem.puts_of_write hw
      have htarget : place = fs.target a.path :=
        (FileSystem.eq_target_of_locate hlocate).trans (hadds.grows.target_eq a.path)
      by_cases hl : l = place
      · exact .inr ⟨rfl, .inl (htarget ▸ hl.symm)⟩
      · rw [hputs.node, if_neg hl]
        by_cases hsame : (fs.makeParent a.path).2.node? l = fs.node? l
        · exact .inl hsame
        · obtain ⟨hnone, hdirectory⟩ := (hadds.node l).resolve_left hsame
          exact .inr ⟨rfl, .inr ⟨hnone, hdirectory, FileSystem.passes_of_makeParent hsame⟩⟩

end Settles

/-! ## All artifacts -/

namespace Reconciles

variable {fs fs' : FileSystem} {as : List Artifact} {outcomes : List Outcome}

theorem length_eq (h : Reconciles fs as outcomes fs') : outcomes.length = as.length := by
  induction h with
  | nil => rfl
  | cons h hrest ih => rw [List.length_cons, List.length_cons, ih]

theorem settlesAll (h : Reconciles fs as outcomes fs') : SettlesAll fs as fs' := by
  induction h with
  | nil fs => exact .nil fs
  | cons h hrest ih => exact .cons h ih

theorem node?_cases (h : Reconciles fs as outcomes fs') (l : Location) :
    fs'.node? l = fs.node? l ∨ ∃ a, (a, .written) ∈ as.zip outcomes ∧
      (fs.target a.path = l ∨
        fs.node? l = none ∧ fs'.node? l = some .directory ∧ fs.Passes a.path l) := by
  induction h with
  | nil => exact .inl rfl
  | @cons fs mid fs' a as outcome outcomes h hrest ih =>
      have hgrows : fs.Grows mid := h.updates_target.1.grows
      simp only [List.zip_cons_cons, List.mem_cons]
      rcases h.node?_cases l with hfirst | ⟨rfl, htarget | ⟨hnone, hdirectory, hpasses⟩⟩
      · rcases ih with hlater | ⟨b, hb, hchange⟩
        · exact .inl (hlater.trans hfirst)
        · rw [hgrows.target_eq, hfirst] at hchange
          exact .inr ⟨b, .inr hb, hchange.imp_right fun ⟨hnone, hdirectory, hpasses⟩ =>
            ⟨hnone, hdirectory, hgrows.passes hpasses⟩⟩
      · exact .inr ⟨a, .inl rfl, .inl htarget⟩
      · rcases ih with hlater | ⟨b, hb, htarget | ⟨hnone', -⟩⟩
        · exact .inr ⟨a, .inl rfl, .inr ⟨hnone, hlater.trans hdirectory, hpasses⟩⟩
        · exact .inr ⟨b, .inr hb, .inl (hgrows.target_eq _ ▸ htarget)⟩
        · rw [hdirectory] at hnone'
          cases hnone'

theorem eq_of_unchanged (h : Reconciles fs as outcomes fs')
    (hall : ∀ outcome ∈ outcomes, outcome = .unchanged) : fs' = fs := by
  induction h with
  | nil => rfl
  | cons h hrest ih =>
      obtain ⟨houtcome, hrest'⟩ := List.forall_mem_cons.mp hall
      rw [ih hrest']
      cases h with
      | same h => rfl
      | written h hd hp hw => cases houtcome

theorem of_read (h : Reconciles fs as outcomes fs')
    (hread : ∀ a ∈ as, fs.read a.path = .ok (Utf8.encode a.text)) :
    outcomes = as.map (fun _ => .unchanged) ∧ fs' = fs := by
  induction h with
  | nil => exact ⟨rfl, rfl⟩
  | cons h hrest ih =>
      rw [List.forall_mem_cons] at hread
      obtain ⟨houtcome, rfl⟩ := h.of_read hread.1
      obtain ⟨rfl, rfl⟩ := ih hread.2
      cases houtcome
      exact ⟨rfl, rfl⟩

end Reconciles

theorem updateAll_append (w : World) (spans : List Span) (front back : List Staged) :
    w.after (updateAll spans (front ++ back)) =
      World.andThen (w.after (updateAll spans front)) fun outcomes mid =>
        World.andThen (mid.after (updateAll spans back)) fun outcomes' w' =>
          (.ok (outcomes ++ outcomes'), w') := by
  induction front generalizing w with
  | nil =>
      simp only [List.nil_append, updateAll, World.after_pure, World.andThen_ok]
      rcases w.after (updateAll spans back) with ⟨_ | _, _⟩ <;> rfl
  | cons s front ih =>
      simp only [List.cons_append, updateAll, World.after_bind, World.after_pure, ih]
      rcases w.after (s.update spans) with ⟨_ | outcome, mid⟩
      · rfl
      simp only [World.andThen_ok]
      rcases mid.after (updateAll spans front) with ⟨_ | outcomes, mid'⟩
      · rfl
      simp only [World.andThen_ok]
      rcases mid'.after (updateAll spans back) with ⟨_ | outcomes', w'⟩ <;> rfl

/-- A run over artifacts that hold their texts does nothing. -/
theorem reconcile_of_read {w : World} {as : List Artifact} (spans : List Span)
    (hst : w.files.Stages as) (hread : ∀ a ∈ as, w.files.read a.path = .ok (Utf8.encode a.text)) :
    (w.after (reconcile spans as)).1 = .ok (as.map fun _ => .unchanged) ∧
      (w.after (reconcile spans as)).2.files = w.files := by
  have hends := updates_of_stages spans hst
  generalize w.after (reconcile spans as) = ending at *
  cases hends with
  | finished log touched h =>
      obtain ⟨rfl, rfl⟩ := h.of_read hread
      exact ⟨rfl, rfl⟩
  | stopped log touched has h hs =>
      rw [has, List.forall_mem_append, List.forall_mem_cons] at hread
      obtain ⟨-, rfl⟩ := h.of_read hread.1
      cases (hs.of_read hread.2.1).1

/-- If a run settles all artifacts, then those before one of them settle in the files that its
turn finds, and it is left alone exactly if these hold its text. -/
theorem unchanged_iff_at_turn {w w' : World} {spans : List Span} {as : List Artifact}
    {outcomes : List Outcome} (hst : w.files.Stages as)
    (h : w.after (reconcile spans as) = (.ok outcomes, w')) {i : Nat} {a : Artifact}
    (hi : as[i]? = some a) :
    let mid := (w.after (reconcile spans (as.take i))).2.files
    SettlesAll w.files (as.take i) mid ∧
      (outcomes[i]? = some .unchanged ↔ mid.read a.path = .ok (Utf8.encode a.text)) := by
  obtain ⟨hlt, rfl⟩ := List.getElem?_eq_some_iff.mp hi
  have hbefore : w.files.Stages (as.take i) := fun b hb => hst b (List.mem_of_mem_take hb)
  rw [hst.after_reconcile, ← List.take_append_drop i as, List.map_append, updateAll_append,
    ← hbefore.after_reconcile, List.drop_eq_getElem_cons hlt] at h
  have hends := updates_of_stages spans hbefore
  generalize w.after (reconcile spans (as.take i)) = ending at *
  cases hends with
  | stopped log touched has hfront hs => cases h
  | @finished earlier files log touched hfront =>
      rw [World.andThen_ok] at h
      have hrest := updateAll_ends { w with files, log, touched } spans
        ((as[i] :: as.drop (i + 1)).map Artifact.staged)
      rw [map_artifact_staged] at hrest
      generalize World.after { w with files, log, touched } (updateAll spans _) = ending at *
      cases hrest with
      | stopped log touched has hfront hs => cases h
      | finished log touched hback =>
          cases hback with
          | @cons _ _ _ _ _ outcome later hs hrest =>
              cases h
              have hlength : earlier.length = i := by
                rw [hfront.length_eq, List.length_take, Nat.min_eq_left hlt.le]
              refine ⟨hfront.settlesAll, ?_⟩
              rw [← hs.eq_unchanged_iff, ← hlength]
              simp

/-! ## What reconciling does -/

/-- What a run does that settles all artifacts: these are their outcomes, and `fs'` is what
it leaves. -/
structure Reconciled (w : World) (spans : List Span) (as : List Artifact)
    (outcomes : List Outcome) (fs' : FileSystem) : Prop where
  length_eq : outcomes.length = as.length
  staged : w.files.Stages as
  /-- Every artifact holds its text. -/
  read : ∀ a ∈ as, fs'.read a.path = .ok (Utf8.encode a.text)
  /-- Every other file is as it was. -/
  others : ∀ l, (∀ a ∈ as, w.files.target a.path ≠ l) → fs'.file? l = w.files.file? l
  /-- Besides the files that are written, all that is new are directories on the way to them. -/
  changes : ∀ l, fs'.node? l = w.files.node? l ∨ ∃ a, (a, .written) ∈ as.zip outcomes ∧
    (w.files.target a.path = l ∨ w.files.node? l = none ∧ fs'.node? l = some .directory ∧
      w.files.Passes a.path l ∧ (a.path.Descends → l <:+ w.files.target a.path))
  /-- An artifact is left alone exactly if its target held its text at the start and its path
  leads there when its turn comes. -/
  unchanged_iff : ∀ (i : Nat) (a : Artifact), as[i]? = some a →
    (outcomes[i]? = some .unchanged ↔
      w.files.file? (w.files.target a.path) = some (Utf8.encode a.text) ∧
        (w.after (reconcile spans (as.take i))).2.files.locate a.path =
          .ok (w.files.target a.path))
  /-- If its path led somewhere at the start, or never goes up in a tree, then it is left alone
  exactly if it held its text at the start. -/
  unchanged_iff_read : ∀ (i : Nat) (a : Artifact), as[i]? = some a →
    ((∃ l, w.files.locate a.path = .ok l) ∨ w.files.IsTree ∧ a.path.Descends) →
      (outcomes[i]? = some .unchanged ↔ w.files.read a.path = .ok (Utf8.encode a.text))
  /-- Where nothing differs, nothing changes. -/
  idle : (∀ outcome ∈ outcomes, outcome = .unchanged) → fs' = w.files
  /-- The next run finds nothing that differs. -/
  again : ∀ (w' : World) (spans' : List Span), w'.files = fs' →
    (w'.after (reconcile spans' as)).1 = .ok (as.map fun _ => .unchanged) ∧
      (w'.after (reconcile spans' as)).2.files = fs'

/-- What a run does that settles artifacts up to one that cannot be settled. -/
structure StoppedAt (fs : FileSystem) (as : List Artifact) (i : Nat) (fs' : FileSystem) :
    Prop where
  read : ∀ a ∈ as.take i, fs'.read a.path = .ok (Utf8.encode a.text)
  /-- The files of that one and of all that come after it are as they were. -/
  left : ∀ a ∈ as.drop i, fs'.file? (fs.target a.path) = fs.file? (fs.target a.path)
  others : ∀ l, (∀ a ∈ as.take i, fs.target a.path ≠ l) → fs'.file? l = fs.file? l

/-! ## What others leave of a file -/

namespace SettlesAll

variable {fs fs' : FileSystem} {as : List Artifact} {p : Path} {content : Bytes}

/-- A file that is read after artifacts with other targets stood there before them, though
its path may not have led to it. -/
theorem read_eq_ok_iff_file? (h : SettlesAll fs as fs')
    (hne : ∀ a ∈ as, fs.target a.path ≠ fs.target p) :
    fs'.read p = .ok content ↔
      fs.file? (fs.target p) = some content ∧ fs'.locate p = .ok (fs.target p) := by
  rw [FileSystem.read_eq_ok_iff_target, h.persists.target_eq, h.file?_other hne, and_comm]

theorem read_eq_ok_iff_read (h : SettlesAll fs as fs')
    (hne : ∀ a ∈ as, fs.target a.path ≠ fs.target p)
    (hp : (∃ l, fs.locate p = .ok l) ∨ fs.IsTree ∧ p.Descends) :
    fs'.read p = .ok content ↔ fs.read p = .ok content := by
  refine ⟨fun hread => ?_, fun hread => h.read_other hread fun a ha => (hne a ha).symm⟩
  obtain ⟨hfile, -⟩ := (h.read_eq_ok_iff_file? hne).mp hread
  refine FileSystem.read_eq_ok_iff_target.mpr ⟨?_, hfile⟩
  rcases hp with ⟨l, hl⟩ | ⟨htree, hdescends⟩
  · rw [hl, FileSystem.eq_target_of_locate hl]
  · exact htree.locate h.persists.toGrows hdescends hread hfile

end SettlesAll

section Main

variable {w w' : World} {spans : List Span} {as : List Artifact} {outcomes : List Outcome}

theorem target_ne_of_getElem? {a b : Artifact}
    (hapart : (as.map fun a => w.files.target a.path).Nodup) {i : Nat} (hi : as[i]? = some a)
    (hb : b ∈ as.take i) : w.files.target b.path ≠ w.files.target a.path := by
  have ha : a ∈ as.drop i := List.mem_of_getElem? (i := 0) (by simpa using hi)
  rw [← List.take_append_drop i as, List.map_append, List.nodup_append] at hapart
  exact hapart.2.2 _ (List.mem_map_of_mem hb) _ (List.mem_map_of_mem ha)

theorem index_eq_of_path_eq {a b : Artifact}
    (hapart : (as.map fun a => w.files.target a.path).Nodup) {i j : Nat} (hi : as[i]? = some a)
    (hj : as[j]? = some b) (hpath : a.path = b.path) : i = j := by
  have hlt : i < (as.map fun a => w.files.target a.path).length := by
    simpa using (List.getElem?_eq_some_iff.mp hi).1
  refine (List.getElem?_inj hlt hapart).mp ?_
  rw [List.getElem?_map, List.getElem?_map, hi, hj, Option.map_some, Option.map_some, hpath]

theorem reconciled_of_reconcile (h : w.after (reconcile spans as) = (.ok outcomes, w'))
    (hapart : (as.map fun a => w.files.target a.path).Nodup) :
    Reconciled w spans as outcomes w'.files := by
  obtain ⟨hst, hs⟩ := reconciles_of_reconcile h
  have hread := hs.settlesAll.read hapart
  refine ⟨hs.length_eq, hst, hread, fun l => hs.settlesAll.file?_other, ?_, ?_, ?_,
    hs.eq_of_unchanged, ?_⟩
  · intro l
    refine (hs.node?_cases l).imp_right fun ⟨a, ha, hchange⟩ => ⟨a, ha, ?_⟩
    exact hchange.imp_right fun ⟨hnone, hdirectory, hpasses⟩ =>
      ⟨hnone, hdirectory, hpasses, hpasses.suffix_target⟩
  · intro i a hi
    obtain ⟨hearlier, hturn⟩ := unchanged_iff_at_turn hst h hi
    rw [hturn, hearlier.read_eq_ok_iff_file? fun b => target_ne_of_getElem? hapart hi]
  · intro i a hi hpath
    obtain ⟨hearlier, hturn⟩ := unchanged_iff_at_turn hst h hi
    rw [hturn, hearlier.read_eq_ok_iff_read (fun b => target_ne_of_getElem? hapart hi) hpath]
  · intro w₂ spans₂ hw₂
    rw [← hw₂] at hread ⊢
    have hst₂ := hs.settlesAll.persists.toSameSetting.stages hst
    exact reconcile_of_read spans₂ (hw₂ ▸ hst₂) hread

theorem stoppedAt_of_settles {front back : List Artifact} {a : Artifact} {mid fs' : FileSystem}
    {e : FileError} (has : as = front ++ a :: back) (hfront : SettlesAll w.files front mid)
    (hs : Settles mid a (.error e) fs')
    (hapart : (as.map fun a => w.files.target a.path).Nodup) :
    StoppedAt w.files as front.length fs' := by
  have hadds := hs.addsDirectories
  have hothers : ∀ l, (∀ a ∈ front, w.files.target a.path ≠ l) →
      fs'.file? l = w.files.file? l := fun l hl => (hadds.file? l).trans (hfront.file?_other hl)
  subst has
  rw [List.map_append, List.nodup_append] at hapart
  refine ⟨?_, ?_, ?_⟩
  · rw [List.take_left]
    exact fun c hc => hadds.read (hfront.read hapart.1 c hc)
  · rw [List.drop_left]
    exact fun c hc => hothers _ fun d hd =>
      hapart.2.2 _ (List.mem_map_of_mem hd) _ (List.mem_map_of_mem hc)
  · rwa [List.take_left]

/-- A run that fails names an artifact. If all of them could be staged, it stopped when that
one's turn came; otherwise that one is the first that could not be, and nothing happened. -/
theorem stoppedAt_of_reconcile {e : PathError}
    (h : w.after (reconcile spans as) = (.error e, w'))
    (hapart : (as.map fun a => w.files.target a.path).Nodup) :
    (∃ a ∈ as, e.path = a.path) ∧
      ∀ (i : Nat) (a : Artifact), as[i]? = some a → e.path = a.path →
        (w.files.Stages as → StoppedAt w.files as i w'.files) ∧
          (¬ w.files.Stages as → w.files.Stages (as.take i) ∧
            w.files.stage (Utf8.encode a.text) = .error e.cause ∧ w' = w) := by
  have hends := reconcile_ends w spans as
  rw [h] at hends
  cases hends with
  | @unstaged a e hrefuses =>
      obtain ⟨front, back, has, hfront, ha⟩ := hrefuses
      refine ⟨⟨a, by simp [has], rfl⟩, fun i b hi hb => ?_⟩
      have hfailed : as[front.length]? = some a := by simp [has]
      obtain rfl := index_eq_of_path_eq hapart hfailed hi hb
      obtain rfl := Option.some.inj (hfailed.symm.trans hi)
      refine ⟨fun hst => absurd ⟨front, back, has, hfront, ha⟩ hst.not_refuses, fun _ => ?_⟩
      rw [has, List.take_left]
      exact ⟨hfront, ha, rfl⟩
  | staged hst hends =>
      cases hends with
      | @stopped front a back outcomes mid cause files log touched has hfront hs =>
          refine ⟨⟨a, by simp [has], rfl⟩, fun i b hi hb => ?_⟩
          have hfailed : as[front.length]? = some a := by simp [has]
          obtain rfl := index_eq_of_path_eq hapart hfailed hi hb
          exact ⟨fun _ => stoppedAt_of_settles has hfront.settlesAll hs hapart,
            fun hnot => absurd hst hnot⟩

end Main

end EnumCodegen
