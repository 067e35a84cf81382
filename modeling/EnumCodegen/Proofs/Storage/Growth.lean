import EnumCodegen.Proofs.Storage.Equations
import Mathlib.Logic.Relation

/-! # What file operations leave behind

A file system grows: directories are added and files are written, but no directory
goes away, so a path that led to a place still leads there. -/

namespace EnumCodegen.FileSystem

/-! ## Growth -/

/-- Relative paths start where they did, and the same contents can be staged. -/
structure SameSetting (fs fs' : FileSystem) : Prop where
  current : fs'.current = fs.current
  refused : fs'.refused = fs.refused

theorem SameSetting.refl (fs : FileSystem) : SameSetting fs fs := ⟨rfl, rfl⟩

theorem SameSetting.symm {fs fs' : FileSystem} (h : SameSetting fs fs') : SameSetting fs' fs :=
  ⟨h.current.symm, h.refused.symm⟩

theorem SameSetting.trans {fs mid fs' : FileSystem} (h : SameSetting fs mid)
    (h' : SameSetting mid fs') : SameSetting fs fs' :=
  ⟨h'.current.trans h.current, h'.refused.trans h.refused⟩

theorem SameSetting.stage {fs fs' : FileSystem} (h : SameSetting fs fs') (content : Bytes) :
    fs'.stage content = fs.stage content := by
  rw [FileSystem.stage, FileSystem.stage, h.refused]

/-- Every directory still stands, and the setting is as it was. -/
structure Grows (fs fs' : FileSystem) : Prop extends SameSetting fs fs' where
  directory : ∀ l, fs.node? l = some .directory → fs'.node? l = some .directory

theorem Grows.refl (fs : FileSystem) : Grows fs fs := ⟨.refl fs, fun _ h => h⟩

theorem Grows.trans {fs mid fs' : FileSystem} (h : Grows fs mid) (h' : Grows mid fs') :
    Grows fs fs' :=
  ⟨h.toSameSetting.trans h'.toSameSetting, fun l hl => h'.directory l (h.directory l hl)⟩

variable {fs fs' : FileSystem} {p q : Path} {l place : Location}

theorem Grows.walk (h : Grows fs fs') {names : List Bytes} (hw : fs.walk l names = .ok place) :
    fs'.walk l names = .ok place := by
  induction names generalizing l with
  | nil => exact hw
  | cons name names ih =>
      rw [walk_cons_eq_ok_iff] at hw ⊢
      exact ⟨h.directory l hw.1, hw.2.1, ih hw.2.2⟩

theorem Grows.origin (h : Grows fs fs') (p : Path) : fs'.origin p = fs.origin p := by
  simp [FileSystem.origin, h.current]

/-- A path that led to a place leads to it after any growth. -/
theorem Grows.locate (h : Grows fs fs') (hl : fs.locate p = .ok l) : fs'.locate p = .ok l := by
  obtain ⟨hc, hw, hd⟩ := locate_eq_ok_iff.mp hl
  refine locate_eq_ok_iff.mpr ⟨hc, ?_, fun hs => h.directory l (hd hs)⟩
  rw [h.origin]
  exact h.walk hw

/-! ## Paths that lead to one place -/

def SamePlace (fs : FileSystem) (p q : Path) : Prop :=
  ∃ l, fs.locate p = .ok l ∧ fs.locate q = .ok l

/-- No two of the paths lead to the same place. -/
def Apart (fs : FileSystem) (paths : List Path) : Prop :=
  paths.Pairwise fun p q => ¬ fs.SamePlace p q

theorem samePlace_iff_of_locate {l' : Location} (hp : fs.locate p = .ok l)
    (hq : fs.locate q = .ok l') : fs.SamePlace p q ↔ l = l' := by
  constructor
  · rintro ⟨m, hp', hq'⟩
    rw [hp] at hp'
    rw [hq] at hq'
    cases hp'
    cases hq'
    rfl
  · rintro rfl
    exact ⟨l, hp, hq⟩

instance (fs : FileSystem) (p q : Path) : Decidable (fs.SamePlace p q) :=
  match hp : fs.locate p, hq : fs.locate q with
  | .ok _, .ok _ => decidable_of_iff _ (samePlace_iff_of_locate hp hq).symm
  | .error _, _ => isFalse fun ⟨_, h, _⟩ => by simp [hp] at h
  | _, .error _ => isFalse fun ⟨_, _, h⟩ => by simp [hq] at h

instance (fs : FileSystem) (paths : List Path) : Decidable (fs.Apart paths) :=
  inferInstanceAs (Decidable (paths.Pairwise fun p q => ¬ fs.SamePlace p q))

/-! ## Writing a file -/

/-- A file was put at a location where no directory stood, and all else stayed. -/
structure Puts (fs : FileSystem) (l : Location) (content : Bytes) (fs' : FileSystem) : Prop
    extends SameSetting fs fs' where
  free : fs.node? l ≠ some .directory
  node : ∀ other, fs'.node? other = if other = l then some (.file content) else fs.node? other

theorem puts_put {content : Bytes} (h : fs.node? l ≠ some .directory) :
    Puts fs l content (fs.put l (.file content)) := by
  refine ⟨⟨rfl, rfl⟩, h, fun other => ?_⟩
  apply node?_put
  rintro rfl
  simp at h

theorem Puts.grows {content : Bytes} (h : Puts fs l content fs') : Grows fs fs' := by
  refine ⟨h.toSameSetting, fun other ho => ?_⟩
  rw [h.node, if_neg]
  · exact ho
  · rintro rfl
    exact h.free ho

theorem Puts.file? {content : Bytes} (h : Puts fs l content fs') (other : Location) :
    fs'.file? other = if other = l then some content else fs.file? other := by
  by_cases ho : other = l
  · simp [FileSystem.file?, h.node, ho]
  · simp [FileSystem.file?, h.node, ho]

theorem eq_dropLast_append_of_getLast? {names : List Bytes} {name : Bytes}
    (h : some name = names.getLast?.filter fun name => name ≠ Path.dot ∧ name ≠ Path.dotDot) :
    names = names.dropLast ++ [name] ∧ name ≠ Path.dot ∧ name ≠ Path.dotDot := by
  obtain ⟨hn, hd⟩ := Option.filter_eq_some_iff.mp h.symm
  refine ⟨?_, by simpa using hd⟩
  obtain ⟨front, rfl⟩ := List.getLast?_eq_some_iff.mp hn
  simp

theorem locate_of_locateEntry {name : Bytes} (h : fs.locateEntry p = .ok (l, some name))
    (hs : p.endsInSlash = false) (hn : name.length ≤ nameLimit) :
    fs.locate p = .ok (name :: l) := by
  obtain ⟨hc, hw, hd, he⟩ := locateEntry_eq_ok_iff.mp h
  obtain ⟨hnames, hdot, hdotDot⟩ := eq_dropLast_append_of_getLast? he
  refine locate_eq_ok_iff.mpr ⟨hc, ?_, by simp [hs]⟩
  rw [hnames, walk_append_eq_ok_iff]
  refine ⟨l, hw, walk_cons_eq_ok_iff.mpr ⟨hd, hn, ?_⟩⟩
  simp [next, hdot, hdotDot, FileSystem.walk]

/-- A written file stands where its path leads, and nothing else changed. -/
theorem puts_of_write {content : Bytes} (h : fs.write p content = .ok fs') :
    ∃ l, fs.locate p = .ok l ∧ fs'.locate p = .ok l ∧ Puts fs l content fs' := by
  obtain ⟨l, name, he, hs, hn, hd, rfl⟩ := write_eq_ok_iff.mp h
  have hp : Puts fs (name :: l) content _ := puts_put hd
  have hl := locate_of_locateEntry he hs hn
  exact ⟨name :: l, hl, hp.grows.locate hl, hp⟩

/-! ## Making directories -/

/-- Directories were added where nothing stood, and all else stayed. -/
structure AddsDirectories (fs fs' : FileSystem) : Prop extends SameSetting fs fs' where
  node : ∀ l, fs'.node? l = fs.node? l ∨ fs.node? l = none ∧ fs'.node? l = some .directory

theorem AddsDirectories.refl (fs : FileSystem) : AddsDirectories fs fs :=
  ⟨.refl fs, fun _ => .inl rfl⟩

theorem AddsDirectories.trans {mid : FileSystem} (h : AddsDirectories fs mid)
    (h' : AddsDirectories mid fs') : AddsDirectories fs fs' := by
  refine ⟨h.toSameSetting.trans h'.toSameSetting, fun l => ?_⟩
  rcases h.node l with he | ⟨hn, hd⟩
  · simpa only [he] using h'.node l
  · rcases h'.node l with he' | ⟨hn', _⟩
    · exact .inr ⟨hn, he'.trans hd⟩
    · rw [hd] at hn'
      cases hn'

theorem AddsDirectories.grows (h : AddsDirectories fs fs') : Grows fs fs' := by
  refine ⟨h.toSameSetting, fun l hl => ?_⟩
  rcases h.node l with he | ⟨hn, _⟩
  · rw [he, hl]
  · rw [hl] at hn
    cases hn

/-- Directories are no files, so no file comes, goes or changes. -/
theorem AddsDirectories.file? (h : AddsDirectories fs fs') (l : Location) :
    fs'.file? l = fs.file? l := by
  unfold FileSystem.file?
  rcases h.node l with he | ⟨hn, hd⟩
  · rw [he]
  · rw [hn, hd]

theorem addsDirectories_of_makeDirectory (h : fs.makeDirectory p = .ok fs') :
    AddsDirectories fs fs' := by
  obtain ⟨l, name, _, _, hd, rfl⟩ := makeDirectory_eq_ok_iff.mp h
  refine ⟨⟨rfl, rfl⟩, fun other => ?_⟩
  rw [node?_put fs .directory other (by simp)]
  split
  · rename_i he
    exact .inr ⟨he ▸ hd, rfl⟩
  · exact .inl rfl

/-- Directories were made one after the other, each for one of the paths. -/
def Makes (paths : List Path) : FileSystem → FileSystem → Prop :=
  Relation.ReflTransGen fun fs fs' => ∃ p ∈ paths, fs.makeDirectory p = .ok fs'

theorem Makes.addsDirectories {paths : List Path} (h : Makes paths fs fs') :
    AddsDirectories fs fs' := by
  induction h with
  | refl => exact .refl fs
  | tail _ h ih =>
      obtain ⟨p, _, hmake⟩ := h
      exact ih.trans (addsDirectories_of_makeDirectory hmake)

theorem Makes.cons {paths : List Path} (h : Makes paths fs fs') (p : Path) :
    Makes (p :: paths) fs fs' :=
  Relation.ReflTransGen.mono (fun _ _ ⟨q, hq, hm⟩ => ⟨q, List.mem_cons_of_mem p hq, hm⟩) _ _ h

/-- Whatever comes of it, only directories that were asked for are made. -/
theorem makes_makeFirst (fs : FileSystem) (paths : List Path) :
    Makes paths fs (fs.makeFirst paths).2 := by
  induction paths generalizing fs with
  | nil => exact .refl
  | cons p above ih =>
      unfold makeFirst
      cases hm : fs.makeDirectory p with
      | ok made => exact .single ⟨p, List.mem_cons_self, hm⟩
      | error e =>
          cases e with
          | notFound =>
              simp only
              have hup := (ih fs).cons p
              cases hf : fs.makeFirst above with
              | mk answer mid =>
                  rw [hf] at hup
                  cases answer with
                  | error e => exact hup
                  | ok u =>
                      simp only
                      cases hm' : mid.makeDirectory p with
                      | ok made => exact .tail hup ⟨p, List.mem_cons_self, hm'⟩
                      | error e => exact hup
          | _ => exact .refl

/-- Whether it succeeds or fails, making directories adds directories only. -/
theorem addsDirectories_makeDirectories (fs : FileSystem) (p : Path) :
    AddsDirectories fs (fs.makeDirectories p).2 :=
  (fs.makes_makeFirst p.ancestors).addsDirectories

/-! ## Bringing a file up to date -/

/-- A location came to hold a file with a content, every other file is as it was, and
only directories were added. -/
structure Updates (fs : FileSystem) (l : Location) (content : Bytes) (fs' : FileSystem) : Prop where
  grows : Grows fs fs'
  file? : ∀ other, fs'.file? other = if other = l then some content else fs.file? other

theorem updates_self {content : Bytes} (h : fs.file? l = some content) :
    Updates fs l content fs := by
  refine ⟨.refl fs, fun other => ?_⟩
  split
  · rename_i ho
    rw [ho, h]
  · rfl

theorem Puts.updates {content : Bytes} (h : Puts fs l content fs') : Updates fs l content fs' :=
  ⟨h.grows, h.file?⟩

theorem AddsDirectories.updates {mid : FileSystem} {content : Bytes} (h : AddsDirectories fs mid)
    (h' : Updates mid l content fs') : Updates fs l content fs' := by
  refine ⟨h.grows.trans h'.grows, fun other => ?_⟩
  rw [h'.file?, h.file?]

/-! ## What stays -/

/-- Every directory goes on as a directory and every file as a file, whatever it holds. -/
structure Persists (fs fs' : FileSystem) : Prop extends Grows fs fs' where
  file : ∀ l, (fs.file? l).isSome = true → (fs'.file? l).isSome = true

theorem Persists.refl (fs : FileSystem) : Persists fs fs := ⟨.refl fs, fun _ h => h⟩

theorem Persists.trans {mid : FileSystem} (h : Persists fs mid) (h' : Persists mid fs') :
    Persists fs fs' :=
  ⟨h.toGrows.trans h'.toGrows, fun l hl => h'.file l (h.file l hl)⟩

theorem Updates.persists {content : Bytes} (h : Updates fs l content fs') : Persists fs fs' := by
  refine ⟨h.grows, fun other ho => ?_⟩
  rw [h.file?]
  split
  · rfl
  · exact ho

theorem Persists.directory_or_none (h : Persists fs fs') (hd : fs'.node? l = some .directory) :
    fs.node? l = some .directory ∨ fs.node? l = none := by
  cases hn : fs.node? l with
  | none => exact .inr rfl
  | some node =>
      cases node with
      | directory => exact .inl rfl
      | file content =>
          have hfile := h.file l (by simp [file?, hn])
          simp [file?, hd] at hfile

/-- A walk that will succeed succeeds already, or misses something on its way. -/
theorem Persists.walk_or (h : Persists fs fs') {names : List Bytes}
    (hw : fs'.walk l names = .ok place) :
    fs.walk l names = .ok place ∨ fs.walk l names = .error .notFound := by
  induction names generalizing l with
  | nil => exact .inl hw
  | cons name names ih =>
      obtain ⟨hd, hshort, hrest⟩ := walk_cons_eq_ok_iff.mp hw
      rcases h.directory_or_none hd with hd | hn
      · rw [walk_cons_of_directory hd hshort]
        exact ih hrest
      · exact .inr (walk_cons_of_none hn)

end EnumCodegen.FileSystem
