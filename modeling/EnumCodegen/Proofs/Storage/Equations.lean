import EnumCodegen.Proofs.Checked
import EnumCodegen.Storage.FileSystem

/-! # When file operations succeed

Each equation lists all that an operation checks and the place it concerns, so that
later proofs never look into the operation itself. -/

namespace EnumCodegen

namespace FileSystem

variable {fs fs' : FileSystem} {p : Path} {l place : Location} {name : Bytes}

/-! ## Walking along a path -/

@[simp] theorem node?_root (fs : FileSystem) : fs.node? [] = some .directory := if_pos rfl

theorem enter_eq_ok_iff : fs.enter l = .ok () ↔ fs.node? l = some .directory := by
  unfold enter
  cases fs.node? l with
  | none => simp
  | some node => cases node <;> simp

def next (l : Location) (name : Bytes) : Location :=
  if name = Path.dot then l else if name = Path.dotDot then l.tail else name :: l

theorem walk_cons_eq_ok_iff {rest : List Bytes} :
    fs.walk l (name :: rest) = .ok place ↔
      fs.node? l = some .directory ∧ name.length ≤ nameLimit ∧
        fs.walk (next l name) rest = .ok place := by
  simp only [walk, check_bind_eq_ok_iff, enter_eq_ok_iff, ite_throw_eq_ok_iff, Nat.not_lt, next]

theorem walk_cons_of_directory {rest : List Bytes} (h : fs.node? l = some .directory)
    (hn : name.length ≤ nameLimit) : fs.walk l (name :: rest) = fs.walk (next l name) rest := by
  rw [walk, enter_eq_ok_iff.mpr h]
  simp only [bind, Except.bind, if_neg (Nat.not_lt.mpr hn)]
  rfl

theorem walk_cons_of_none {rest : List Bytes} (h : fs.node? l = none) :
    fs.walk l (name :: rest) = .error .notFound := by
  simp [walk, enter, h, bind, Except.bind]

theorem walk_append_eq_ok_iff {front back : List Bytes} :
    fs.walk l (front ++ back) = .ok place ↔
      ∃ middle, fs.walk l front = .ok middle ∧ fs.walk middle back = .ok place := by
  induction front generalizing l with
  | nil => simp [walk]
  | cons name front ih =>
      simp only [List.cons_append, walk_cons_eq_ok_iff, ih]
      constructor
      · rintro ⟨hl, hn, middle, hf, hb⟩
        exact ⟨middle, ⟨hl, hn, hf⟩, hb⟩
      · rintro ⟨middle, ⟨hl, hn, hf⟩, hb⟩
        exact ⟨hl, hn, middle, hf, hb⟩

theorem locate_eq_ok_iff :
    fs.locate p = .ok l ↔
      checkPath p = .ok () ∧ fs.walk (fs.origin p) p.names = .ok l ∧
        (p.endsInSlash = true → fs.node? l = some .directory) := by
  rw [locate, check_bind_eq_ok_iff, bind_eq_ok_iff]
  by_cases hs : p.endsInSlash = true
  · simp only [hs, if_true, check_bind_eq_ok_iff, enter_eq_ok_iff, pure_eq_ok_iff, forall_const]
    constructor
    · rintro ⟨hc, place, hw, hd, rfl⟩
      exact ⟨hc, hw, hd⟩
    · rintro ⟨hc, hw, hd⟩
      exact ⟨hc, l, hw, hd, rfl⟩
  · simp [hs, pure_eq_ok_iff]

theorem locate_of_error {e : FileError} (hc : checkPath p = .ok ())
    (hw : fs.walk (fs.origin p) p.names = .error e) : fs.locate p = .error e := by
  rw [locate, hc, hw]
  rfl

theorem locateEntry_eq_ok_iff {name? : Option Bytes} :
    fs.locateEntry p = .ok (l, name?) ↔
      checkPath p = .ok () ∧ fs.walk (fs.origin p) p.names.dropLast = .ok l ∧
        fs.node? l = some .directory ∧
        name? = p.names.getLast?.filter fun name => name ≠ Path.dot ∧ name ≠ Path.dotDot := by
  rw [locateEntry, check_bind_eq_ok_iff, bind_eq_ok_iff]
  constructor
  · rintro ⟨hc, place, hw, h⟩
    rw [check_bind_eq_ok_iff, enter_eq_ok_iff, pure_eq_ok_iff] at h
    obtain ⟨hd, he⟩ := h
    cases he
    exact ⟨hc, hw, hd, rfl⟩
  · rintro ⟨hc, hw, hd, rfl⟩
    refine ⟨hc, l, hw, ?_⟩
    rw [check_bind_eq_ok_iff, enter_eq_ok_iff, pure_eq_ok_iff]
    exact ⟨hd, rfl⟩

/-! ## Reading and writing -/

def file? (fs : FileSystem) (l : Location) : Option Bytes :=
  match fs.node? l with
  | some (.file content) => some content
  | _ => none

theorem file?_eq_some_iff {content : Bytes} :
    fs.file? l = some content ↔ fs.node? l = some (.file content) := by
  unfold file?
  cases fs.node? l with
  | none => simp
  | some node => cases node <;> simp

theorem file?_congr (h : fs.node? l = fs'.node? l) : fs.file? l = fs'.file? l := by
  rw [file?, file?, h]

theorem read_eq_ok_iff {content : Bytes} :
    fs.read p = .ok content ↔ ∃ l, fs.locate p = .ok l ∧ fs.file? l = some content := by
  rw [read, bind_eq_ok_iff]
  refine exists_congr fun l => and_congr_right fun _ => ?_
  unfold file?
  cases fs.node? l with
  | none => simp [throw_ne_ok]
  | some node => cases node <;> simp [throw_ne_ok, pure_eq_ok_iff]

theorem read_eq_ok_iff_of_locate {content : Bytes} (hl : fs.locate p = .ok l) :
    fs.read p = .ok content ↔ fs.file? l = some content := by
  rw [read_eq_ok_iff]
  constructor
  · rintro ⟨m, hm, hf⟩
    rw [hl] at hm
    cases hm
    exact hf
  · intro hf
    exact ⟨l, hl, hf⟩

theorem read_of_error {e : FileError} (h : fs.locate p = .error e) : fs.read p = .error e := by
  rw [read, h]
  rfl

theorem read_of_none (h : fs.locate p = .ok l) (hn : fs.node? l = none) :
    fs.read p = .error .notFound := by
  rw [read, h]
  simp only [bind, Except.bind, hn]
  rfl

theorem write_eq_ok_iff {content : Bytes} :
    fs.write p content = .ok fs' ↔
      ∃ l name, fs.locateEntry p = .ok (l, some name) ∧ p.endsInSlash = false ∧
        name.length ≤ nameLimit ∧ fs.node? (name :: l) ≠ some .directory ∧
        fs' = fs.put (name :: l) (.file content) := by
  rw [write, bind_eq_ok_iff]
  constructor
  · rintro ⟨⟨l, name?⟩, he, h⟩
    cases name? with
    | none => exact absurd h throw_ne_ok
    | some name =>
        simp only [ite_throw_eq_ok_iff, Bool.not_eq_true, Nat.not_lt] at h
        obtain ⟨hs, hn, h⟩ := h
        refine ⟨l, name, he, hs, hn, ?_⟩
        split at h
        · exact absurd h throw_ne_ok
        · rename_i hd
          exact ⟨hd, (pure_eq_ok_iff.mp h).symm⟩
  · rintro ⟨l, name, he, hs, hn, hd, rfl⟩
    refine ⟨(l, some name), he, ?_⟩
    simp only [ite_throw_eq_ok_iff, hs, Bool.false_eq_true, not_false_eq_true, true_and, Nat.not_lt]
    exact ⟨hn, rfl⟩

theorem makeDirectory_eq_ok_iff :
    fs.makeDirectory p = .ok fs' ↔
      ∃ l name, fs.locateEntry p = .ok (l, some name) ∧ name.length ≤ nameLimit ∧
        fs.node? (name :: l) = none ∧ fs' = fs.put (name :: l) .directory := by
  rw [makeDirectory, bind_eq_ok_iff]
  constructor
  · rintro ⟨⟨l, name?⟩, he, h⟩
    cases name? with
    | none => exact absurd h throw_ne_ok
    | some name =>
        simp only [ite_throw_eq_ok_iff, Nat.not_lt] at h
        obtain ⟨hn, h⟩ := h
        refine ⟨l, name, he, hn, ?_⟩
        split at h
        · exact absurd h throw_ne_ok
        · rename_i hd
          exact ⟨hd, (pure_eq_ok_iff.mp h).symm⟩
  · rintro ⟨l, name, he, hn, hd, rfl⟩
    refine ⟨(l, some name), he, ?_⟩
    simp only [ite_throw_eq_ok_iff, Nat.not_lt, hd]
    exact ⟨hn, rfl⟩

theorem makeDirectory_of_error {e : FileError} (h : fs.locateEntry p = .error e) :
    fs.makeDirectory p = .error e := by
  rw [makeDirectory, h]
  rfl

theorem makeDirectory_of_none (h : fs.locateEntry p = .ok (l, none)) :
    fs.makeDirectory p = .error .alreadyExists := by
  rw [makeDirectory, h]
  rfl

theorem makeDirectory_of_some {node : Node} (h : fs.locateEntry p = .ok (l, some name))
    (hn : name.length ≤ nameLimit) (hd : fs.node? (name :: l) = some node) :
    fs.makeDirectory p = .error .alreadyExists := by
  rw [makeDirectory, h]
  simp only [bind, Except.bind, if_neg (Nat.not_lt.mpr hn), hd]
  rfl

end FileSystem

end EnumCodegen
