import EnumCodegen.Proofs.Storage.Targets

/-! # The places of paths

A path that never goes up leads to a place that its names alone decide, and all that it
passes on the way there is a directory. -/

namespace EnumCodegen

/-- A path that never leads to the directory above. -/
def Path.Descends (p : Path) : Prop := Path.dotDot ∉ p.names

instance (p : Path) : Decidable p.Descends := inferInstanceAs (Decidable (_ ∉ _))

namespace FileSystem

/-! ## Places -/

/-- The place that names lead to from a location if none of them leads up. -/
def descend (l : Location) (names : List Bytes) : Location :=
  (names.filter (· ≠ Path.dot)).reverse ++ l

/-- The place of a path that never goes up, whether anything stands there or not. -/
def place (fs : FileSystem) (p : Path) : Location := descend (fs.origin p) p.names

/-- A location on the way down from one to another, both of them included. -/
def OnWay (l place other : Location) : Prop := l <:+ other ∧ other <:+ place

instance (l place other : Location) : Decidable (OnWay l place other) :=
  inferInstanceAs (Decidable (_ ∧ _))

section Places

variable {l place other : Location} {name : Bytes} {names : List Bytes}

@[simp] theorem descend_nil (l : Location) : descend l [] = l := rfl

theorem descend_append (l : Location) (front back : List Bytes) :
    descend l (front ++ back) = descend (descend l front) back := by
  simp [descend]

theorem descend_cons (l : Location) (name : Bytes) (names : List Bytes) :
    descend l (name :: names) = descend (descend l [name]) names :=
  descend_append l [name] names

theorem descend_singleton_of_ne (h : name ≠ Path.dot) : descend l [name] = name :: l := by
  simp [descend, h]

theorem suffix_descend (l : Location) (names : List Bytes) : l <:+ descend l names :=
  List.suffix_append _ l

theorem next_eq_descend (h : name ≠ Path.dotDot) : next l name = descend l [name] := by
  by_cases hdot : name = Path.dot
  · simp [next, descend, hdot]
  · simp [next, descend, hdot, h]

theorem onWay_self_iff : OnWay l l other ↔ other = l := by
  constructor
  · rintro ⟨h, h'⟩
    exact h'.eq_of_length_le h.length_le
  · rintro rfl
    exact ⟨List.suffix_refl _, List.suffix_refl _⟩

theorem onWay_cons_iff (h : l <:+ place) :
    OnWay l (name :: place) other ↔ other = name :: place ∨ OnWay l place other := by
  constructor
  · rintro ⟨hl, hother⟩
    rcases List.suffix_cons_iff.mp hother with rfl | hother
    · exact .inl rfl
    · exact .inr ⟨hl, hother⟩
  · rintro (rfl | ⟨hl, hother⟩)
    · exact ⟨h.trans (List.suffix_cons _ _), List.suffix_refl _⟩
    · exact ⟨hl, hother.trans (List.suffix_cons _ _)⟩

theorem onWay_iff_of_step (h : descend l [name] <:+ place) :
    OnWay l place other ↔ other = l ∨ OnWay (descend l [name]) place other := by
  by_cases hdot : name = Path.dot
  · have hstep : descend l [name] = l := by
      simp [descend, hdot]
    rw [hstep] at h ⊢
    refine ⟨.inr, ?_⟩
    rintro (rfl | ho)
    · exact ⟨List.suffix_refl _, h⟩
    · exact ho
  · rw [descend_singleton_of_ne hdot] at h ⊢
    constructor
    · rintro ⟨hl, hother⟩
      rcases List.suffix_or_suffix_of_suffix hother h with hshort | hlong
      · rcases List.suffix_cons_iff.mp hshort with rfl | hshort
        · exact .inr ⟨List.suffix_refl _, hother⟩
        · exact .inl (onWay_self_iff.mp ⟨hl, hshort⟩)
      · exact .inr ⟨hlong, hother⟩
    · rintro (rfl | ⟨hl, hother⟩)
      · exact ⟨List.suffix_refl _, (List.suffix_cons _ _).trans h⟩
      · exact ⟨(List.suffix_cons _ _).trans hl, hother⟩

end Places

/-! ## Walking down -/

variable {fs fs' : FileSystem} {p : Path} {l place : Location} {name : Bytes} {names : List Bytes}

theorem follow_eq_descend (h : Path.dotDot ∉ names) (l : Location) :
    follow l names = descend l names := by
  induction names generalizing l with
  | nil => rfl
  | cons name names ih =>
      rw [List.mem_cons, not_or] at h
      rw [follow_cons, ih h.2, descend_cons, next_eq_descend (Ne.symm h.1)]

theorem target_eq_place (fs : FileSystem) (hp : p.Descends) : fs.target p = fs.place p :=
  follow_eq_descend hp (fs.origin p)

/-- A path that never goes up passes the directories above its target. -/
theorem Passes.suffix_target (h : fs.Passes p l) (hp : p.Descends) : l <:+ fs.target p := by
  obtain ⟨front, ⟨back, hnames⟩, -, rfl⟩ := h
  have hback : Path.dotDot ∉ back := fun hmem => hp (hnames ▸ List.mem_append_right front hmem)
  rw [target, ← hnames, follow_append, follow_eq_descend hback]
  exact suffix_descend _ back

/-- A walk down ends at a directory exactly if all that it passes is one. -/
theorem walk_directory_iff (h : Path.dotDot ∉ names) :
    fs.walk l names = .ok place ∧ fs.node? place = some .directory ↔
      place = descend l names ∧ (∀ name ∈ names, name.length ≤ nameLimit) ∧
        ∀ other, OnWay l (descend l names) other → fs.node? other = some .directory := by
  induction names generalizing l with
  | nil =>
      simp only [walk, Except.ok.injEq, descend_nil, onWay_self_iff, forall_eq]
      constructor
      · rintro ⟨rfl, hd⟩
        exact ⟨rfl, List.forall_mem_nil _, hd⟩
      · rintro ⟨rfl, -, hd⟩
        exact ⟨rfl, hd⟩
  | cons name names ih =>
      rw [List.mem_cons, not_or] at h
      have hstep : ∀ other, OnWay l (descend l (name :: names)) other ↔
          other = l ∨ OnWay (descend l [name]) (descend l (name :: names)) other :=
        fun other => onWay_iff_of_step (descend_cons l name names ▸ suffix_descend _ _)
      rw [walk_cons_eq_ok_iff, next_eq_descend (Ne.symm h.1), and_assoc, and_assoc, ih h.2,
        ← descend_cons, List.forall_mem_cons]
      simp only [hstep, or_imp, forall_and, forall_eq]
      tauto

/-- A path that names a file in a directory, all of whose way stands. -/
structure Route (fs : FileSystem) (p : Path) (front : List Bytes) (name : Bytes) : Prop where
  names : p.names = front ++ [name]
  descends : p.Descends
  dot : name ≠ Path.dot
  plain : p.endsInSlash = false
  check : checkPath p = .ok ()
  short : ∀ name ∈ p.names, name.length ≤ nameLimit
  way : ∀ other, OnWay (fs.origin p) (descend (fs.origin p) front) other →
    fs.node? other = some .directory

namespace Route

variable {front : List Bytes}

theorem descends_front (h : Route fs p front name) : Path.dotDot ∉ front := by
  intro hmem
  exact h.descends (h.names ▸ List.mem_append_left _ hmem)

theorem place_eq (h : Route fs p front name) :
    fs.place p = name :: descend (fs.origin p) front := by
  rw [FileSystem.place, h.names, descend_append, descend_singleton_of_ne h.dot]

theorem walk_front (h : Route fs p front name) :
    fs.walk (fs.origin p) front = .ok (descend (fs.origin p) front) ∧
      fs.node? (descend (fs.origin p) front) = some .directory := by
  refine (walk_directory_iff h.descends_front).mpr ⟨rfl, fun n hn => ?_, h.way⟩
  exact h.short n (h.names ▸ List.mem_append_left _ hn)

theorem name_short (h : Route fs p front name) : name.length ≤ nameLimit :=
  h.short name (by simp [h.names])

theorem locateEntry (h : Route fs p front name) :
    fs.locateEntry p = .ok (descend (fs.origin p) front, some name) := by
  have hdotDot : name ≠ Path.dotDot := fun he => h.descends (by simp [h.names, he])
  obtain ⟨hwalk, hdirectory⟩ := h.walk_front
  refine locateEntry_eq_ok_iff.mpr ⟨h.check, ?_, hdirectory, ?_⟩
  · rw [h.names, List.dropLast_concat]
    exact hwalk
  · rw [h.names, List.getLast?_concat, Option.filter_some, if_pos]
    simp [h.dot, hdotDot]

theorem locate (h : Route fs p front name) : fs.locate p = .ok (fs.place p) := by
  rw [h.place_eq]
  exact locate_of_locateEntry h.locateEntry h.plain h.name_short

theorem walk (h : Route fs p front name) : fs.walk (fs.origin p) p.names = .ok (fs.place p) :=
  (locate_eq_ok_iff.mp h.locate).2.1

theorem write (h : Route fs p front name) (hfree : fs.node? (fs.place p) ≠ some .directory)
    (content : Bytes) : ∃ fs', fs.write p content = .ok fs' ∧ Puts fs (fs.place p) content fs' := by
  refine ⟨fs.put (fs.place p) (.file content), ?_, puts_put hfree⟩
  rw [h.place_eq] at hfree ⊢
  exact write_eq_ok_iff.mpr ⟨_, name, h.locateEntry, h.plain, h.name_short, hfree, rfl⟩

end Route

theorem Grows.place_eq (h : Grows fs fs') (p : Path) : fs'.place p = fs.place p := by
  rw [FileSystem.place, FileSystem.place, h.origin]

theorem exists_route_of_read {content : Bytes} (h : fs.read p = .ok content) (hp : p.Descends) :
    ∃ front name, Route fs p front name := by
  obtain ⟨place, hlocate, hfile⟩ := read_eq_ok_iff.mp h
  obtain ⟨hcheck, hwalk, hslash⟩ := locate_eq_ok_iff.mp hlocate
  have hplace : fs.node? place ≠ some .directory := by
    intro hd
    simp [file?, hd] at hfile
  rcases List.eq_nil_or_concat' p.names with hnames | ⟨front, name, hnames⟩
  · have habsolute := Path.isAbsolute_of_names_eq_nil hnames (checkPath_eq_ok_iff.mp hcheck).2.1
    rw [hnames, origin, if_pos habsolute] at hwalk
    obtain rfl := Except.ok.inj hwalk
    exact absurd fs.node?_root hplace
  · have hdotDot : Path.dotDot ∉ front ∧ name ≠ Path.dotDot := by
      rw [Path.Descends, hnames, List.mem_append, List.mem_singleton, not_or] at hp
      exact ⟨hp.1, Ne.symm hp.2⟩
    rw [hnames, walk_append_eq_ok_iff] at hwalk
    obtain ⟨middle, hfront, hlast⟩ := hwalk
    obtain ⟨hmiddle, hshort, hlast⟩ := walk_cons_eq_ok_iff.mp hlast
    obtain ⟨rfl, hshorts, hway⟩ := (walk_directory_iff hdotDot.1).mp ⟨hfront, hmiddle⟩
    refine ⟨front, name, hnames, hp, ?_, ?_, hcheck, ?_, hway⟩
    · rintro rfl
      obtain rfl := Except.ok.inj hlast
      exact hplace hmiddle
    · rw [← Bool.not_eq_true]
      exact fun hs => hplace (hslash hs)
    · rw [hnames]
      exact List.forall_mem_append.mpr ⟨hshorts, List.forall_mem_singleton.mpr hshort⟩

/-! ## Trees -/

/-- Whatever stands, stands in a directory. -/
def IsTree (fs : FileSystem) : Prop :=
  ∀ name l, fs.node? (name :: l) ≠ none → fs.node? l = some .directory

theorem isTree_iff :
    fs.IsTree ↔ ∀ entry ∈ fs.entries, fs.node? entry.1.tail = some .directory := by
  have hstands : ∀ name l,
      fs.node? (name :: l) ≠ none ↔ ∃ entry ∈ fs.entries, name :: l = entry.1 := by
    intro name l
    rw [node?, if_neg (by simp), Ne, List.lookup_eq_none_iff]
    simp
  simp only [IsTree, hstands]
  constructor
  · intro h entry hentry
    cases hl : entry.1 with
    | nil => exact fs.node?_root
    | cons name l => exact h name l ⟨entry, hentry, hl.symm⟩
  · rintro h name l ⟨entry, hentry, he⟩
    simpa [← he] using h entry hentry

instance (fs : FileSystem) : Decidable fs.IsTree := decidable_of_iff _ isTree_iff.symm

theorem IsTree.directory_of_suffix (h : fs.IsTree) (hplace : fs.node? place ≠ none)
    (hl : l <:+ place) (hne : l ≠ place) : fs.node? l = some .directory := by
  induction place with
  | nil => exact absurd (List.suffix_nil.mp hl) hne
  | cons name place ih =>
      have habove := h name place hplace
      rcases List.suffix_cons_iff.mp hl with rfl | hl
      · exact absurd rfl hne
      · by_cases he : l = place
        · rw [he, habove]
        · exact ih (by simp [habove]) hl he

/-- In a tree a path that never goes up leads to its file already, if it will once more
directories are made. -/
theorem IsTree.locate (h : fs.IsTree) (hgrows : Grows fs fs') (hp : p.Descends)
    {content content' : Bytes} (hread : fs'.read p = .ok content)
    (hfile : fs.file? (fs.target p) = some content') : fs.locate p = .ok (fs.target p) := by
  obtain ⟨front, name, hroute⟩ := exists_route_of_read hread hp
  have hplace : fs.place p = name :: descend (fs.origin p) front := by
    have he := hroute.place_eq
    rwa [hgrows.origin, hgrows.place_eq] at he
  rw [fs.target_eq_place hp] at hfile ⊢
  have hroute' : Route fs p front name := by
    refine ⟨hroute.names, hp, hroute.dot, hroute.plain, hroute.check, hroute.short, ?_⟩
    intro other ho
    have hstands : fs.node? (fs.place p) ≠ none := by
      simp [file?_eq_some_iff.mp hfile]
    apply h.directory_of_suffix hstands
    · rw [hplace]
      exact ho.2.trans (List.suffix_cons _ _)
    · rintro rfl
      have hlength := ho.2.length_le
      rw [hplace, List.length_cons] at hlength
      exact Nat.not_succ_le_self _ hlength
  exact hroute'.locate

end FileSystem

end EnumCodegen
