import EnumCodegen.Proofs.Storage.Places

/-! # Making the directories that lead to a place

Where all directories on a way will stand in the end, they can be made in any state before
that, and nothing but these directories is added. -/

namespace EnumCodegen.FileSystem

variable {fs mid final made : FileSystem} {p q : Path} {l place place' : Location}

/-! ## Ways that stand -/

/-- Everything on the way from a location down to another became a directory, and nothing
else changed. -/
structure Paves (fs : FileSystem) (l place : Location) (fs' : FileSystem) : Prop
    extends SameSetting fs fs' where
  node : ∀ other,
    fs'.node? other = if OnWay l place other then some .directory else fs.node? other

theorem paves_self (h : ∀ other, OnWay l place other → fs.node? other = some .directory) :
    Paves fs l place fs := by
  refine ⟨.refl fs, fun other => ?_⟩
  split
  · rename_i ho
    exact h other ho
  · rfl

theorem Paves.directory (h : Paves fs l place mid) {other : Location} (ho : OnWay l place other) :
    mid.node? other = some .directory := by
  rw [h.node, if_pos ho]

theorem Paves.trans (h : Paves fs l place mid) (h' : Paves mid l place' made)
    (hle : place <:+ place') : Paves fs l place' made := by
  refine ⟨h.toSameSetting.trans h'.toSameSetting, fun other => ?_⟩
  rw [h'.node]
  split
  · rfl
  · rename_i ho
    rw [h.node, if_neg fun hshort => ho ⟨hshort.1, hshort.2.trans hle⟩]

theorem Paves.persists (h : Paves fs l place mid) (hk : Persists fs final)
    (hway : ∀ other, OnWay l place other → final.node? other = some .directory) :
    Persists mid final := by
  refine ⟨⟨h.toSameSetting.symm.trans hk.toSameSetting, fun other ho => ?_⟩, fun other ho => ?_⟩
  · rw [h.node] at ho
    split at ho
    · rename_i hw
      exact hway other hw
    · exact hk.directory other ho
  · have hw : ¬ OnWay l place other := by
      intro hw
      simp [file?, h.directory hw] at ho
    apply hk.file
    rwa [file?, h.node, if_neg hw] at ho

theorem paves_put {name : Bytes}
    (h : ∀ other, OnWay l place other → fs.node? other = some .directory)
    (hl : l <:+ place) : Paves fs l (name :: place) (fs.put (name :: place) .directory) := by
  refine ⟨⟨rfl, rfl⟩, fun other => ?_⟩
  rw [node?_put fs .directory other (by simp)]
  simp only [onWay_cons_iff hl]
  by_cases ho : other = name :: place
  · simp [ho]
  · simp only [ho, if_false, false_or]
    split
    · rename_i hw
      exact h other hw
    · rfl

/-- A path all of whose way is made of directories. -/
structure Stands (fs : FileSystem) (q : Path) : Prop where
  descends : q.Descends
  check : checkPath q = .ok ()
  short : ∀ name ∈ q.names, name.length ≤ nameLimit
  way : ∀ other, OnWay (fs.origin q) (fs.place q) other → fs.node? other = some .directory

theorem Stands.walk (h : Stands fs q) :
    fs.walk (fs.origin q) q.names = .ok (fs.place q) ∧ fs.node? (fs.place q) = some .directory :=
  (walk_directory_iff h.descends).mpr ⟨rfl, h.short, h.way⟩

theorem Stands.isDirectory (h : Stands fs q) : fs.isDirectory q = true := by
  obtain ⟨hwalk, hd⟩ := h.walk
  have hlocate : fs.locate q = .ok (fs.place q) :=
    locate_eq_ok_iff.mpr ⟨h.check, hwalk, fun _ => hd⟩
  simp [FileSystem.isDirectory, hlocate, hd]

/-! ## Making one directory -/

/-- The first of some names lead to a place on the way to where all of them lead. -/
theorem descend_take_suffix (l : Location) (names : List Bytes) (n : Nat) :
    descend l (names.take n) <:+ descend l names := by
  conv_rhs => rw [← List.take_append_drop n names, descend_append]
  exact suffix_descend _ _

theorem descend_dropLast_suffix (l : Location) (names : List Bytes) :
    descend l names.dropLast <:+ descend l names := by
  rw [List.dropLast_eq_take]
  exact descend_take_suffix l names _

/-- What a path names in its directory leads to its place, and a dot to the directory itself. -/
theorem place_of_getLast? (fs : FileSystem) (h : q.Descends) :
    (q.names.getLast?.filter (fun name => name ≠ Path.dot ∧ name ≠ Path.dotDot) = none ∧
        fs.place q = descend (fs.origin q) q.names.dropLast) ∨
      ∃ name ∈ q.names,
        q.names.getLast?.filter (fun name => name ≠ Path.dot ∧ name ≠ Path.dotDot) = some name ∧
          fs.place q = name :: descend (fs.origin q) q.names.dropLast := by
  rw [Path.Descends] at h
  rw [FileSystem.place]
  rcases List.eq_nil_or_concat' q.names with hnames | ⟨front, name, hnames⟩
  · exact .inl (by simp [hnames])
  · rw [hnames] at h ⊢
    rw [List.mem_append, List.mem_singleton, not_or] at h
    rw [List.getLast?_concat, List.dropLast_concat, descend_append, Option.filter_some]
    by_cases hdot : name = Path.dot
    · exact .inl (by simp [hdot, descend])
    · exact .inr ⟨name, by simp, by simp [hdot, Ne.symm h.2], descend_singleton_of_ne hdot⟩

/-- The directory for a path that will stand is missing, or all of the way to it stands. -/
theorem Stands.locateEntry (h : Stands final q) (hk : Persists fs final) :
    let directory := descend (fs.origin q) q.names.dropLast
    (fs.locateEntry q = .error .notFound ∧
        ¬ ∀ other, OnWay (fs.origin q) directory other → fs.node? other = some .directory) ∨
      fs.locateEntry q =
          .ok (directory,
            q.names.getLast?.filter fun name => name ≠ Path.dot ∧ name ≠ Path.dotDot) ∧
        ∀ other, OnWay (fs.origin q) directory other → fs.node? other = some .directory := by
  intro directory
  have hdescends : Path.dotDot ∉ q.names.dropLast :=
    fun hmem => h.descends (List.dropLast_subset q.names hmem)
  have hshort : ∀ name ∈ q.names.dropLast, name.length ≤ nameLimit :=
    fun name hname => h.short name (List.dropLast_subset q.names hname)
  have hway := h.way
  rw [FileSystem.place, hk.origin] at hway
  obtain ⟨hwalk, hd⟩ := (walk_directory_iff hdescends).mpr ⟨rfl, hshort, fun other ho =>
    hway other ⟨ho.1, ho.2.trans (descend_dropLast_suffix _ _)⟩⟩
  have hstands : (∀ other, OnWay (fs.origin q) directory other → fs.node? other = some .directory) ↔
      fs.walk (fs.origin q) q.names.dropLast = .ok directory ∧
        fs.node? directory = some .directory := by
    rw [walk_directory_iff hdescends]
    exact ⟨fun hw => ⟨rfl, hshort, hw⟩, fun hw => hw.2.2⟩
  rw [hstands]
  rcases hk.walk_or hwalk with hwalk | hwalk
  · rcases hk.directory_or_none hd with hd | hd
    · exact .inr ⟨locateEntry_eq_ok_iff.mpr ⟨h.check, hwalk, hd, rfl⟩, hwalk, hd⟩
    · refine .inl ⟨?_, by simp [directory, hd]⟩
      simp [FileSystem.locateEntry, h.check, hwalk, enter, hd, bind, Except.bind]
  · refine .inl ⟨?_, by simp [hwalk]⟩
    simp [FileSystem.locateEntry, h.check, hwalk, bind, Except.bind]

/-- Making a directory that will stand misses something on the way to it, or finds it there,
or makes it. -/
theorem Stands.makeDirectory (h : Stands final q) (hk : Persists fs final) :
    (fs.makeDirectory q = .error .notFound ∧
        ¬ ∀ other, OnWay (fs.origin q) (descend (fs.origin q) q.names.dropLast) other →
          fs.node? other = some .directory) ∨
      (fs.makeDirectory q = .error .alreadyExists ∧ Stands fs q) ∨
      ∃ made, fs.makeDirectory q = .ok made ∧ Paves fs (fs.origin q) (fs.place q) made := by
  have hfinal := h.walk.2
  rw [hk.place_eq] at hfinal
  rcases h.locateEntry hk with ⟨hentry, hmissing⟩ | ⟨hentry, hway⟩
  · exact .inl ⟨makeDirectory_of_error hentry, hmissing⟩
  rcases place_of_getLast? fs h.descends with ⟨hname, hp⟩ | ⟨name, hmem, hname, hp⟩
  · rw [hname] at hentry
    exact .inr (.inl ⟨makeDirectory_of_none hentry, h.descends, h.check, h.short, hp ▸ hway⟩)
  · rw [hname] at hentry
    rw [hp] at hfinal ⊢
    have hl := suffix_descend (fs.origin q) q.names.dropLast
    rcases hk.directory_or_none hfinal with hd | hd
    · have hexists := makeDirectory_of_some hentry (h.short name hmem) hd
      refine .inr (.inl ⟨hexists, h.descends, h.check, h.short, ?_⟩)
      intro other ho
      rw [hp] at ho
      rcases (onWay_cons_iff hl).mp ho with rfl | ho
      · exact hd
      · exact hway other ho
    · refine .inr (.inr ⟨_, makeDirectory_eq_ok_iff.mpr
        ⟨_, name, hentry, h.short name hmem, hd, rfl⟩, paves_put hway hl⟩)

/-! ## Making all directories -/

theorem makeFirst_cons_of_ok {above : List Path} (h : fs.makeDirectory q = .ok made) :
    fs.makeFirst (q :: above) = (.ok (), made) := by
  rw [makeFirst, h]

theorem makeFirst_cons_of_exists {above : List Path}
    (h : fs.makeDirectory q = .error .alreadyExists) (hd : fs.isDirectory q = true) :
    fs.makeFirst (q :: above) = (.ok (), fs) := by
  rw [makeFirst, h]
  simp [hd]

/-- Where the directories above come out, a missing one makes no difference to them. -/
theorem makeFirst_cons_of_notFound {above : List Path}
    (h : fs.makeDirectory q = .error .notFound) (habove : fs.makeFirst above = (.ok (), mid)) :
    fs.makeFirst (q :: above) =
      match mid.makeDirectory q with
      | .ok made => (.ok (), made)
      | .error e => (if mid.isDirectory q then .ok () else .error e, mid) := by
  cases hmake : mid.makeDirectory q <;> simp [makeFirst, h, habove, hmake]

theorem Stands.makeFirst_cons {above : List Path} (h : Stands final q) (hk : Persists fs final)
    (habove : fs.makeFirst above = (.ok (), mid))
    (hmid : Paves fs (fs.origin q) (descend (fs.origin q) q.names.dropLast) mid) :
    ∃ made, fs.makeFirst (q :: above) = (.ok (), made) ∧
      Paves fs (fs.origin q) (fs.place q) made := by
  have hle := descend_dropLast_suffix (fs.origin q) q.names
  rcases h.makeDirectory hk with ⟨hmake, -⟩ | ⟨hmake, hstands⟩ | ⟨made, hmake, hmade⟩
  · have hway := h.way
    rw [FileSystem.place, hk.origin] at hway
    have hkeeps : Persists mid final :=
      hmid.persists hk fun other ho => hway other ⟨ho.1, ho.2.trans hle⟩
    have hsame : mid.origin q = fs.origin q := by
      simp [origin, hmid.current]
    have hplace : mid.place q = fs.place q := by
      rw [FileSystem.place, FileSystem.place, hsame]
    rw [makeFirst_cons_of_notFound hmake habove]
    rcases h.makeDirectory hkeeps with ⟨-, hmissing⟩ | ⟨hmake, hstands⟩ | ⟨made, hmake, hmade⟩
    · rw [hsame] at hmissing
      exact absurd (fun other => hmid.directory) hmissing
    · refine ⟨mid, by simp [hmake, hstands.isDirectory], ?_⟩
      have hpaved := paves_self hstands.way
      rw [hsame, hplace] at hpaved
      exact hmid.trans hpaved hle
    · refine ⟨made, by simp [hmake], ?_⟩
      rw [hsame, hplace] at hmade
      exact hmid.trans hmade hle
  · exact ⟨fs, makeFirst_cons_of_exists hmake hstands.isDirectory, paves_self hstands.way⟩
  · exact ⟨made, makeFirst_cons_of_ok hmake, hmade⟩

/-! ## Making the directory of a file -/

variable {front parts : List Bytes} {name : Bytes}

/-- Single dots make no difference to where names lead. -/
theorem descend_eq_of_filter {names names' : List Bytes}
    (h : names.filter (· ≠ Path.dot) = names'.filter (· ≠ Path.dot)) (l : Location) :
    descend l names = descend l names' := by
  rw [descend, descend, h]

/-- A path made of some first components of the directory of a file stands if the way to
the file does. -/
theorem Route.stands (h : Route final p front name) (hparts : parts.Sublist p.names)
    (hfront : descend (final.origin p) parts <:+ descend (final.origin p) front)
    (hne : p.isAbsolute = true ∨ parts ≠ []) :
    Stands final (.ofComponents p.isAbsolute parts) := by
  have hnames := Path.names_ofComponents hparts
  refine ⟨?_, ?_, ?_, ?_⟩
  · rw [Path.Descends, hnames]
    exact fun hmem => h.descends (hparts.subset hmem)
  · exact checkPath_of_sublist h.check (Path.bytes_ofComponents_sublist hparts)
      ((Path.bytes_ofComponents_ne_nil_iff hparts).mpr hne)
  · rw [hnames]
    exact fun name hname => h.short name (hparts.subset hname)
  · rw [place, origin_ofComponents hparts hne, hnames]
    exact fun other ho => h.way other ⟨ho.1, ho.2.trans hfront⟩

/-- Directories can be made from the top down to the one for a file. -/
theorem Route.makeFirst_upward (h : Route final p front name) (hk : Persists fs final)
    (horigin : fs.node? (fs.origin p) = some .directory) (hparts : parts.Sublist p.names)
    (hfront : descend (fs.origin p) parts = descend (fs.origin p) front) {n : Nat}
    (hn : n ≤ parts.length) :
    ∃ mid, fs.makeFirst (Path.upward p.isAbsolute parts n) = (.ok (), mid) ∧
      Paves fs (fs.origin p) (descend (fs.origin p) (parts.take n)) mid := by
  induction n with
  | zero =>
      refine ⟨fs, rfl, paves_self fun other ho => ?_⟩
      rw [List.take_zero, descend_nil, onWay_self_iff] at ho
      rw [ho, horigin]
  | succ n ih =>
      obtain ⟨mid, habove, hmid⟩ := ih (Nat.le_of_succ_le hn)
      have hsome : parts.take (n + 1) ≠ [] := by
        simp [List.take_eq_nil_iff, List.ne_nil_of_length_pos (Nat.zero_lt_of_lt hn)]
      have htake : (parts.take (n + 1)).Sublist p.names := (List.take_sublist _ _).trans hparts
      have hstands := h.stands htake
        (by rw [hk.origin, ← hfront]; exact descend_take_suffix _ _ _) (.inr hsome)
      have hup : (parts.take (n + 1)).dropLast = parts.take n := by
        simp [List.dropLast_eq_take, List.take_take, Nat.min_eq_left hn]
      rw [Path.upward_succ]
      have hmade := hstands.makeFirst_cons hk habove
      rw [place, origin_ofComponents htake (.inr hsome), Path.names_ofComponents htake,
        hup] at hmade
      exact hmade hmid

theorem Route.makeDirectories (h : Route final p front name) (hk : Persists fs final)
    (horigin : fs.node? (fs.origin p) = some .directory) (hparts : parts.Sublist p.names)
    (hfront : descend (fs.origin p) parts = descend (fs.origin p) front)
    (hare : Path.AreComponents p.isAbsolute parts) (hne : p.isAbsolute = true ∨ parts ≠ []) :
    ∃ mid, fs.makeDirectories (.ofComponents p.isAbsolute parts) = (.ok (), mid) ∧
      Paves fs (fs.origin p) (descend (fs.origin p) front) mid := by
  rw [FileSystem.makeDirectories]
  by_cases hroot : parts = []
  · subst hroot
    have hroot : Path.ofComponents p.isAbsolute [] = ⟨[Path.slash]⟩ := by
      simp [Path.ofComponents, Or.resolve_right hne (by simp), List.intercalate_nil]
    have hend : descend (final.origin p) [] <:+ descend (final.origin p) front := by
      simp only [hk.origin, hfront, List.suffix_refl]
    have hstands := h.stands hparts hend hne
    -- No directory leads to the root, so nothing is made before it.
    have hnone : fs.makeFirst [] = (.ok (), fs) := rfl
    have hmade := hstands.makeFirst_cons hk hnone
    rw [place, origin_ofComponents hparts hne, Path.names_ofComponents hparts, hfront] at hmade
    rw [hroot] at hmade ⊢
    apply hmade
    apply paves_self
    intro other ho
    rw [List.dropLast_nil, descend_nil, onWay_self_iff] at ho
    rw [ho, horigin]
  · rw [Path.ancestors_ofComponents hparts hare hroot]
    have hmade := h.makeFirst_upward hk horigin hparts hfront (Nat.le_refl _)
    rwa [List.take_length, hfront] at hmade

end EnumCodegen.FileSystem
