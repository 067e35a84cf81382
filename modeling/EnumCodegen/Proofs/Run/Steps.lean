import EnumCodegen.Proofs.Description.Values
import EnumCodegen.Proofs.Storage.Growth
import EnumCodegen.Run.Generate
import EnumCodegen.Run.World

/-! # The steps of a run

What each step of a run does to the files, by rules that name how it ends. In a world
every step follows exactly one rule, and it changes nothing else but what is recorded. -/

namespace EnumCodegen

/-! ## What files say -/

namespace FileSystem

/-- The content of a file, or nothing if there is no such file. -/
def content? (fs : FileSystem) (p : Path) : Except FileError (Option Bytes) :=
  match fs.read p with
  | .ok content => .ok (some content)
  | .error .notFound => .ok none
  | .error e => .error e

def text (fs : FileSystem) (p : Path) : Except FileError Text :=
  match fs.read p with
  | .ok content => (Utf8.decode? content).elim (.error .notUtf8) .ok
  | .error e => .error e

def marker (fs : FileSystem) (p : Path) : Except FileError (Option Text) :=
  (fs.content? p).map (·.bind Guard.recovered?)

def makeParent (fs : FileSystem) (p : Path) : Except FileError Unit × FileSystem :=
  match p.parent? with
  | none => (.ok (), fs)
  | some parent => if parent.bytes = [] then (.ok (), fs) else fs.makeDirectories parent

theorem addsDirectories_makeParent (fs : FileSystem) (p : Path) :
    AddsDirectories fs (fs.makeParent p).2 := by
  unfold makeParent
  split
  · exact .refl fs
  · split
    · exact .refl fs
    · exact addsDirectories_makeDirectories fs _

theorem content?_of_read {fs : FileSystem} {p : Path} {content : Bytes}
    (h : fs.read p = .ok content) : fs.content? p = .ok (some content) := by
  simp [content?, h]

theorem content?_of_notFound {fs : FileSystem} {p : Path} (h : fs.read p = .error .notFound) :
    fs.content? p = .ok none := by
  simp [content?, h]

theorem text_eq_ok_iff {fs : FileSystem} {p : Path} {source : Text} :
    fs.text p = .ok source ↔
      ∃ content, fs.read p = .ok content ∧ Utf8.decode? content = some source := by
  unfold text
  cases fs.read p with
  | error e => simp
  | ok content => cases hd : Utf8.decode? content <;> simp [hd]

theorem content?_eq_some_iff {fs : FileSystem} {p : Path} {content : Bytes} :
    fs.content? p = .ok (some content) ↔ fs.read p = .ok content := by
  unfold content?
  split <;> simp_all

theorem marker_eq_some_iff {fs : FileSystem} {p : Path} {token : Text} :
    fs.marker p = .ok (some token) ↔
      ∃ content, fs.read p = .ok content ∧ Guard.recovered? content = some token := by
  unfold marker
  constructor
  · intro h
    cases hc : fs.content? p with
    | error e => simp [hc, Except.map] at h
    | ok content? =>
        simp only [hc, Except.map, Except.ok.injEq] at h
        obtain ⟨content, rfl, hr⟩ := Option.bind_eq_some_iff.mp h
        exact ⟨content, content?_eq_some_iff.mp hc, hr⟩
  · rintro ⟨content, hread, hr⟩
    rw [content?_of_read hread]
    exact congrArg Except.ok hr

end FileSystem

/-! ## Settling one artifact -/

/-- How settling an artifact ends: the file holds the text already, or it cannot be
looked at, or its directory cannot be made, or it cannot be written, or it is written. -/
inductive Settles (fs : FileSystem) (a : Artifact) :
    Except FileError Outcome → FileSystem → Prop where
  | same (h : fs.read a.path = .ok (Utf8.encode a.text)) : Settles fs a (.ok .unchanged) fs
  | unread {e} (h : fs.content? a.path = .error e) : Settles fs a (.error e) fs
  | unplaced {old e} (h : fs.content? a.path = .ok old) (hd : old ≠ some (Utf8.encode a.text))
      (hp : (fs.makeParent a.path).1 = .error e) : Settles fs a (.error e) (fs.makeParent a.path).2
  | unwritten {old e} (h : fs.content? a.path = .ok old) (hd : old ≠ some (Utf8.encode a.text))
      (hp : (fs.makeParent a.path).1 = .ok ())
      (hw : (fs.makeParent a.path).2.write a.path (Utf8.encode a.text) = .error e) :
      Settles fs a (.error e) (fs.makeParent a.path).2
  | written {old fs'} (h : fs.content? a.path = .ok old) (hd : old ≠ some (Utf8.encode a.text))
      (hp : (fs.makeParent a.path).1 = .ok ())
      (hw : (fs.makeParent a.path).2.write a.path (Utf8.encode a.text) = .ok fs') :
      Settles fs a (.ok .written) fs'

namespace World

variable (w : World)

theorem after_readIfPresent (p : Path) :
    w.after (readIfPresent p) = (w.files.content? p, w.touch p w.files) := by
  rw [readIfPresent, after_tryCatch, after_map, after_readFile]
  unfold FileSystem.content?
  cases w.files.read p with
  | ok content => rfl
  | error e => cases e <;> rfl

theorem after_readText (p : Path) :
    w.after (readText p) = (w.files.text p, w.touch p w.files) := by
  rw [readText, after_bind, after_readFile]
  unfold FileSystem.text
  cases w.files.read p with
  | ok content =>
      simp only [andThen_ok]
      cases Utf8.decode? content <;> rfl
  | error e => rfl

theorem after_readMarker (p : Path) :
    w.after (Guard.readMarker p) = (w.files.marker p, w.touch p w.files) := by
  rw [Guard.readMarker, after_bind, after_readIfPresent]
  unfold FileSystem.marker
  cases w.files.content? p <;> rfl

/-- A file is compared with what was staged, which is the text that was put there. -/
theorem after_holds (s : Staged) :
    w.after s.holds =
      ((w.files.content? s.artifact.path).map fun old =>
          decide (old = some (Utf8.encode s.artifact.text)),
        w.touch s.artifact.path w.files) := by
  rw [Staged.holds, after_bind, after_readIfPresent]
  cases w.files.content? s.artifact.path with
  | error e => rfl
  | ok old =>
      cases old with
      | none => rfl
      | some content => simp [Except.map, eq_comm]

theorem after_makeParent (p : Path) :
    ∃ touched, w.after (makeParent p) =
      ((w.files.makeParent p).1, { w with files := (w.files.makeParent p).2, touched }) := by
  unfold makeParent FileSystem.makeParent
  cases p.parent? with
  | none => exact ⟨w.touched, rfl⟩
  | some parent =>
      simp only [after_ite]
      by_cases h : parent.bytes = []
      · simp only [h, if_true]
        exact ⟨w.touched, rfl⟩
      · simp only [h, if_false]
        exact ⟨_, rfl⟩

end World

/-- Settling an artifact follows one of the rules, and only files change. -/
theorem settles_after (w : World) (s : Staged) :
    ∃ answer files touched, Settles w.files s.artifact answer files ∧
      w.after s.settle = (answer, { w with files, touched }) := by
  rw [Staged.settle, World.after_bind, World.after_holds]
  generalize s.artifact = a
  cases hc : w.files.content? a.path with
  | error e => exact ⟨_, _, _, .unread hc, rfl⟩
  | ok old =>
      by_cases hd : old = some (Utf8.encode a.text)
      · refine ⟨_, _, w.touched ++ [a.path],
          .same (FileSystem.content?_eq_some_iff.mp (hd ▸ hc)), ?_⟩
        simp only [Except.map, World.andThen_ok, hd, decide_true, if_true]
        rfl
      · simp only [Except.map, World.andThen_ok, hd, decide_false, Bool.false_eq_true, if_false,
          World.after_bind]
        obtain ⟨touched, hp⟩ := (w.touch a.path w.files).after_makeParent a.path
        rw [hp]
        cases hm : (w.files.makeParent a.path).1 with
        | error e =>
            refine ⟨_, _, touched, .unplaced hc hd hm, ?_⟩
            simp [World.touch, hm]
        | ok u =>
            simp only [World.touch, hm, World.andThen_ok, World.after_writeFile]
            cases hw : (w.files.makeParent a.path).2.write a.path (Utf8.encode a.text) with
            | error e => exact ⟨_, _, _, .unwritten hc hd hm hw, rfl⟩
            | ok files => exact ⟨_, _, _, .written hc hd hm hw, rfl⟩

theorem settles_after_update (w : World) (spans : List Span) (s : Staged) :
    ∃ answer files log touched, Settles w.files s.artifact answer files ∧
      w.after (s.update spans) =
        (answer.mapError (PathError.mk s.artifact.path), { w with files, log, touched }) := by
  obtain ⟨answer, files, touched, hs, he⟩ := settles_after w s
  rw [Staged.update, World.after_bind, World.after_adapt, he]
  cases answer with
  | error e => exact ⟨_, _, w.log, touched, hs, rfl⟩
  | ok outcome => exact ⟨_, _, _, touched, hs, rfl⟩

/-- A settled artifact holds its text, and all other files are as they were. -/
theorem Settles.updates {fs fs' : FileSystem} {a : Artifact} {outcome : Outcome}
    (h : Settles fs a (.ok outcome) fs') :
    ∃ l, fs'.locate a.path = .ok l ∧ fs.Updates l (Utf8.encode a.text) fs' := by
  cases h with
  | same h =>
      obtain ⟨l, hl, hf⟩ := FileSystem.read_eq_ok_iff.mp h
      exact ⟨l, hl, FileSystem.updates_self hf⟩
  | written h hd hp hw =>
      obtain ⟨l, _, hl, hputs⟩ := FileSystem.puts_of_write hw
      exact ⟨l, hl, (fs.addsDirectories_makeParent a.path).updates hputs.updates⟩

/-- An artifact that could not be settled left no trace but directories. -/
theorem Settles.addsDirectories {fs fs' : FileSystem} {a : Artifact} {e : FileError}
    (h : Settles fs a (.error e) fs') : fs.AddsDirectories fs' := by
  cases h with
  | unread h => exact .refl fs
  | unplaced h hd hp => exact fs.addsDirectories_makeParent a.path
  | unwritten h hd hp hw => exact fs.addsDirectories_makeParent a.path

theorem Settles.of_read {fs fs' : FileSystem} {a : Artifact} {answer : Except FileError Outcome}
    (h : Settles fs a answer fs') (hr : fs.read a.path = .ok (Utf8.encode a.text)) :
    answer = .ok .unchanged ∧ fs' = fs := by
  have hc := FileSystem.content?_of_read hr
  cases h with
  | same h => exact ⟨rfl, rfl⟩
  | unread h => simp [hc] at h
  | unplaced h hd hp => simp_all
  | unwritten h hd hp hw => simp_all
  | written h hd hp hw => simp_all

/-! ## Finding the token -/

/-- How the token of a run is found: it is set, or the declaration file keeps it, or
it is made of letters that are drawn for it. -/
inductive Resolves (fs : FileSystem) (explicit? : Option Text) (input declaration : Path)
    (letters : Text) : GuardToken → Nat → Prop where
  | explicit {token} (h : explicit?.filter (· ≠ []) = some token) :
      Resolves fs explicit? input declaration letters ⟨token, .explicit⟩ 0
  | recovered {token} (h : explicit?.filter (· ≠ []) = none)
      (hm : fs.marker declaration = .ok (some token)) :
      Resolves fs explicit? input declaration letters ⟨token, .recovered⟩ 0
  | generated (h : explicit?.filter (· ≠ []) = none) (hm : fs.marker declaration = .ok none) :
      Resolves fs explicit? input declaration letters
        ⟨Guard.generated (Guard.title input) letters, .generated⟩ Guard.suffixLength

/-- A token is found by one of the rules, unless none is set and the declaration file
cannot be looked at. -/
theorem resolve_after (w : World) (spans : List Span) (explicit? : Option Text)
    (input declaration : Path) :
    (∃ guard drawn log touched,
      Resolves w.files explicit? input declaration (w.letters Guard.suffixLength) guard drawn ∧
      w.after (Guard.resolve spans explicit? input declaration) =
        (.ok guard, { w with drawn := w.drawn + drawn, log, touched })) ∨
    ∃ e touched, explicit?.filter (· ≠ []) = none ∧ w.files.marker declaration = .error e ∧
      w.after (Guard.resolve spans explicit? input declaration) =
        (.error e, { w with touched }) := by
  unfold Guard.resolve
  cases he : explicit?.filter (· ≠ []) with
  | some token => exact .inl ⟨_, 0, w.log, w.touched, .explicit he, rfl⟩
  | none =>
      simp only [World.after_bind, World.after_readMarker]
      cases hm : w.files.marker declaration with
      | error e => exact .inr ⟨e, w.touched ++ [declaration], trivial, rfl, rfl⟩
      | ok token? =>
          cases token? with
          | some token => exact .inl ⟨_, 0, _, w.touched ++ [declaration], .recovered he hm, rfl⟩
          | none =>
              exact .inl
                ⟨_, Guard.suffixLength, _, w.touched ++ [declaration], .generated he hm, rfl⟩

end EnumCodegen
