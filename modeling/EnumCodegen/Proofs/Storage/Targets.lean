import EnumCodegen.Proofs.Storage.Components
import EnumCodegen.Proofs.Storage.Growth

/-! # The targets of paths

Where a path leads is decided by its names alone, even if it goes up on the way. All that is
ever made for it are directories that it passes. -/

namespace EnumCodegen.FileSystem

variable {fs fs' : FileSystem} {p q : Path} {l place : Location} {names : List Bytes}

/-! ## Targets -/

/-- The place that names lead to from a location. -/
def follow (l : Location) (names : List Bytes) : Location := names.foldl next l

def target (fs : FileSystem) (p : Path) : Location := follow (fs.origin p) p.names

/-- A place that a path passes before its end. -/
def Passes (fs : FileSystem) (p : Path) (l : Location) : Prop :=
  ∃ front, front <+: p.names ∧ front ≠ p.names ∧ l = follow (fs.origin p) front

theorem follow_append (l : Location) (front back : List Bytes) :
    follow l (front ++ back) = follow (follow l front) back := List.foldl_append

theorem eq_follow_of_walk (h : fs.walk l names = .ok place) : place = follow l names := by
  induction names generalizing l with
  | nil => exact (Except.ok.inj h).symm
  | cons name names ih => exact ih (walk_cons_eq_ok_iff.mp h).2.2

theorem eq_target_of_locate (h : fs.locate p = .ok l) : l = fs.target p :=
  eq_follow_of_walk (locate_eq_ok_iff.mp h).2.1

/-- A file that can be read stands at the target of its path. -/
theorem read_eq_ok_iff_target {content : Bytes} :
    fs.read p = .ok content ↔
      fs.locate p = .ok (fs.target p) ∧ fs.file? (fs.target p) = some content := by
  rw [read_eq_ok_iff]
  constructor
  · rintro ⟨l, hl, hf⟩
    obtain rfl := eq_target_of_locate hl
    exact ⟨hl, hf⟩
  · rintro ⟨hl, hf⟩
    exact ⟨_, hl, hf⟩

/-- New directories do not get in the way of a file. -/
theorem AddsDirectories.read {content : Bytes} (h : AddsDirectories fs fs')
    (hread : fs.read p = .ok content) : fs'.read p = .ok content := by
  obtain ⟨l, hl, hf⟩ := read_eq_ok_iff.mp hread
  exact read_eq_ok_iff.mpr ⟨l, h.grows.locate hl, (h.file? l).trans hf⟩

theorem target_of_locateEntry {name : Bytes} (h : fs.locateEntry p = .ok (l, some name)) :
    fs.target p = name :: l := by
  obtain ⟨_, hwalk, _, hname⟩ := locateEntry_eq_ok_iff.mp h
  obtain ⟨hnames, hdot, hdotDot⟩ := eq_dropLast_append_of_getLast? hname
  rw [target, hnames, follow_append, ← eq_follow_of_walk hwalk]
  simp [follow, next, hdot, hdotDot]

theorem Grows.target_eq (h : Grows fs fs') (p : Path) : fs'.target p = fs.target p := by
  rw [target, target, h.origin]

theorem Grows.passes (h : Grows fs fs') (hp : fs'.Passes p l) : fs.Passes p l := by
  obtain ⟨front, hfront, hne, rfl⟩ := hp
  exact ⟨front, hfront, hne, by rw [h.origin]⟩

/-! ## Directories that lead to a target -/

theorem follow_cons (l : Location) (name : Bytes) (names : List Bytes) :
    follow l (name :: names) = follow (next l name) names := rfl

theorem follow_filter (l : Location) (names : List Bytes) :
    follow l (names.filter (· ≠ Path.dot)) = follow l names := by
  induction names generalizing l with
  | nil => rfl
  | cons name names ih =>
      by_cases hdot : name = Path.dot
      · have hnext : next l name = l := if_pos hdot
        rw [List.filter_cons_of_neg (by simp [hdot]), follow_cons, hnext, ih]
      · rw [List.filter_cons_of_pos (by simp [hdot]), follow_cons, follow_cons, ih]

theorem exists_prefix_of_components {parts : List Bytes} (h : parts <+: p.components)
    (hne : parts ≠ p.components) (l : Location) :
    ∃ front, front <+: p.names ∧ front ≠ p.names ∧ follow l parts = follow l front := by
  rw [Path.components] at h hne
  cases hnames : p.names with
  | nil =>
      rw [hnames] at h hne
      exact absurd (List.prefix_nil.mp h) hne
  | cons first rest =>
      rw [hnames] at h hne
      cases habsolute : p.isAbsolute with
      | true =>
          simp only [habsolute, if_true] at h hne
          obtain ⟨front, hfront, rfl⟩ := List.prefix_filter_iff.mp h
          refine ⟨front, hfront, ?_, follow_filter l front⟩
          rintro rfl
          exact hne rfl
      | false =>
          simp only [habsolute, Bool.false_eq_true, if_false] at h hne
          cases parts with
          | nil => exact ⟨[], List.nil_prefix, by simp, rfl⟩
          | cons part parts =>
              obtain ⟨rfl, hrest⟩ := List.cons_prefix_cons.mp h
              obtain ⟨front, hfront, rfl⟩ := List.prefix_filter_iff.mp hrest
              refine ⟨part :: front, List.cons_prefix_cons.mpr ⟨rfl, hfront⟩, ?_, ?_⟩
              · rintro he
                rw [(List.cons.inj he).2] at hne
                exact hne rfl
              · rw [follow_cons, follow_cons, follow_filter]

/-- The paths that lead to one made of components are made of the first of these. -/
theorem exists_take_of_mem_ancestors {parts : List Bytes} (hsub : parts.Sublist p.names)
    (hparts : Path.AreComponents p.isAbsolute parts)
    (hq : q ∈ (Path.ofComponents p.isAbsolute parts).ancestors) :
    ∃ n, q = .ofComponents p.isAbsolute (parts.take n) ∧
      (p.isAbsolute = true ∨ parts.take n ≠ []) := by
  by_cases hnone : parts = []
  · subst hnone
    rw [Path.ancestors, Path.components_ofComponents hsub hparts] at hq
    split at hq
    · cases hq
    · rename_i hbytes
      obtain rfl : q = .ofComponents p.isAbsolute [] := by simpa using hq
      exact ⟨0, rfl, (Path.bytes_ofComponents_ne_nil_iff hsub).mp hbytes⟩
  · rw [Path.ancestors_ofComponents hsub hparts hnone, Path.upward, List.mem_map] at hq
    obtain ⟨n, _, rfl⟩ := hq
    exact ⟨n + 1, rfl, .inr (by simp [List.take_eq_nil_iff, hnone])⟩

theorem origin_ofComponents {parts : List Bytes} (hparts : parts.Sublist p.names)
    (hne : p.isAbsolute = true ∨ parts ≠ []) :
    fs.origin (.ofComponents p.isAbsolute parts) = fs.origin p := by
  rw [origin, origin, Path.isAbsolute_ofComponents hparts hne]

theorem passes_of_mem_ancestors (fs : FileSystem) {parent : Path} (h : p.parent? = some parent)
    (hq : q ∈ parent.ancestors) : fs.Passes p (fs.target q) := by
  unfold Path.parent? at h
  split at h
  · cases h
  · rename_i hsome
    cases h
    have hprefix : p.components.dropLast <+: p.components := List.dropLast_prefix _
    have hsub : p.components.dropLast.Sublist p.names :=
      hprefix.sublist.trans p.components_sublist
    have hare : Path.AreComponents p.isAbsolute p.components.dropLast := by
      rw [List.dropLast_eq_take]
      exact p.areComponents_components.take _
    obtain ⟨n, rfl, hne⟩ := exists_take_of_mem_ancestors hsub hare hq
    have htake := (List.take_sublist n _).trans hsub
    have hshort : p.components.dropLast.take n ≠ p.components := by
      intro he
      have hlength := congrArg List.length he
      have hpos := List.length_pos_iff.mpr hsome
      simp only [List.length_take, List.length_dropLast] at hlength
      omega
    obtain ⟨front, hfront, hnames, hfollow⟩ := exists_prefix_of_components
      ((List.take_prefix n _).trans hprefix) hshort (fs.origin p)
    refine ⟨front, hfront, hnames, ?_⟩
    rw [target, Path.names_ofComponents htake, origin_ofComponents htake hne, hfollow]

/-- What was made stands at the target of one of the paths. -/
theorem Makes.exists_target {paths : List Path} (h : Makes paths fs fs')
    (hl : fs'.node? l ≠ fs.node? l) : ∃ q ∈ paths, l = fs.target q := by
  induction h with
  | refl => exact absurd rfl hl
  | @tail mid made hmade hmake ih =>
      have hgrows : Grows fs mid := (Makes.addsDirectories hmade).grows
      by_cases hmid : mid.node? l = fs.node? l
      · obtain ⟨q, hq, hmake⟩ := hmake
        obtain ⟨place, name, hentry, _, _, rfl⟩ := makeDirectory_eq_ok_iff.mp hmake
        refine ⟨q, hq, ?_⟩
        rw [← hgrows.target_eq, target_of_locateEntry hentry]
        by_contra hne
        rw [node?_put mid .directory l (by simp), if_neg hne, hmid] at hl
        exact hl rfl
      · exact ih hmid

/-- All that is made above a path are directories that the path passes. -/
theorem passes_of_makeDirectories {parent : Path} (h : p.parent? = some parent)
    (hl : (fs.makeDirectories parent).2.node? l ≠ fs.node? l) : fs.Passes p l := by
  obtain ⟨q, hq, rfl⟩ := (fs.makes_makeFirst parent.ancestors).exists_target hl
  exact passes_of_mem_ancestors fs h hq

end EnumCodegen.FileSystem
