import EnumCodegen.Proofs.Text.LineFeed
import EnumCodegen.Storage.FileSystem
import Mathlib.Data.List.Basic

/-! # Paths made of components

The components of a path are some of its names, and the path that is made of some of them
has just these names. Its bytes are some of the bytes of the path, so it passes all checks
that the path passes. -/

namespace EnumCodegen

/-! ## Pieces joined again -/

section Pieces

variable {α : Type} [DecidableEq α] {separator : α}

theorem pieces_intercalate {parts : List (List α)} (hne : parts ≠ [])
    (h : ∀ part ∈ parts, separator ∉ part) :
    pieces separator ([separator].intercalate parts) = parts := by
  induction parts with
  | nil => exact absurd rfl hne
  | cons part parts ih =>
      rw [List.forall_mem_cons] at h
      cases parts with
      | nil => rw [List.intercalate_singleton, pieces_of_not_mem h.1]
      | cons next parts =>
          rw [List.intercalate_cons_cons, List.append_assoc, List.singleton_append,
            pieces_append_cons h.1, ih (by simp) h.2]

theorem intercalate_pieces (xs : List α) :
    [separator].intercalate (pieces separator xs) = xs := by
  induction xs with
  | nil => rfl
  | cons x xs ih =>
      obtain ⟨first, rest, he⟩ := List.exists_cons_of_ne_nil (pieces_ne_nil separator xs)
      rw [he] at ih
      rw [pieces_cons, he]
      split
      · rename_i hx
        rw [List.intercalate_cons_cons, ih, hx]
        rfl
      · rw [← ih]
        cases rest with
        | nil => simp [List.intercalate_singleton]
        | cons next rest => simp [List.intercalate_cons_cons]

end Pieces

theorem intercalate_sublist {α : Type} {separator : α} {parts parts' : List (List α)}
    (h : parts.Sublist parts') :
    ([separator].intercalate parts).Sublist ([separator].intercalate parts') := by
  induction h with
  | slnil => exact List.Sublist.refl _
  | @cons parts parts' part h ih =>
      apply ih.trans
      cases parts' with
      | nil => exact List.nil_sublist _
      | cons next parts' =>
          rw [List.intercalate_cons_cons]
          exact List.sublist_append_right _ _
  | @cons_cons parts parts' part h ih =>
      cases parts' with
      | nil =>
          obtain rfl := List.sublist_nil.mp h
          exact List.Sublist.refl _
      | cons next' parts' =>
          cases parts with
          | nil =>
              rw [List.intercalate_singleton, List.intercalate_cons_cons, List.append_assoc]
              exact List.sublist_append_left _ _
          | cons next parts =>
              rw [List.intercalate_cons_cons, List.intercalate_cons_cons]
              exact (List.Sublist.refl _).append ih

/-! ## Checks -/

namespace FileSystem

variable {p q : Path}

theorem checkPath_eq_ok_iff :
    checkPath p = .ok () ↔ 0 ∉ p.bytes ∧ p.bytes ≠ [] ∧ p.bytes.length ≤ pathLimit := by
  by_cases hnul : 0 ∈ p.bytes
  · simp [checkPath, hnul]
  by_cases hempty : p.bytes = []
  · simp [checkPath, hempty]
  by_cases hlong : p.bytes.length > pathLimit
  · simp [checkPath, hnul, hempty, hlong]
  · simp [checkPath, hnul, hempty, hlong, Nat.not_lt.mp hlong]

theorem checkPath_of_sublist (h : checkPath p = .ok ()) (hq : q.bytes.Sublist p.bytes)
    (hne : q.bytes ≠ []) : checkPath q = .ok () := by
  obtain ⟨hnul, _, hshort⟩ := checkPath_eq_ok_iff.mp h
  have hlength := Nat.le_trans hq.length_le hshort
  exact checkPath_eq_ok_iff.mpr ⟨fun hmem => hnul (hq.subset hmem), hne, hlength⟩

end FileSystem

/-! ## Components -/

namespace Path

variable {p : Path}

theorem ne_nil_of_mem_names {name : Bytes} (h : name ∈ p.names) : name ≠ [] := by
  simpa using (List.mem_filter.mp h).2

theorem slash_not_mem_of_mem_names {name : Bytes} (h : name ∈ p.names) : slash ∉ name :=
  not_mem_of_mem_pieces (List.mem_filter.mp h).1

theorem isAbsolute_of_names_eq_nil (h : p.names = []) (hne : p.bytes ≠ []) :
    p.isAbsolute = true := by
  obtain ⟨byte, bytes, hbytes⟩ := List.exists_cons_of_ne_nil hne
  by_cases hslash : byte = slash
  · simp [isAbsolute, hbytes, hslash]
  · rw [names, hbytes, pieces_cons, if_neg hslash] at h
    simp at h

theorem components_sublist (p : Path) : p.components.Sublist p.names := by
  rw [components]
  split
  · exact List.nil_sublist _
  · rename_i first rest hnames
    rw [hnames]
    split
    · exact List.filter_sublist
    · exact List.filter_sublist.cons_cons first

/-- Components that a path may have: single dots stand at the front of a relative path alone. -/
def AreComponents (absolute : Bool) (parts : List Bytes) : Prop :=
  ∀ part ∈ (if absolute then parts else parts.tail), part ≠ dot

theorem areComponents_components (p : Path) : AreComponents p.isAbsolute p.components := by
  rw [AreComponents, components]
  cases p.names with
  | nil => simp
  | cons first rest => cases p.isAbsolute <;> simp +contextual [List.mem_filter]

theorem AreComponents.take {absolute : Bool} {parts : List Bytes}
    (h : AreComponents absolute parts) (n : Nat) : AreComponents absolute (parts.take n) := by
  intro part hpart
  apply h
  cases absolute with
  | true => exact List.mem_of_mem_take hpart
  | false =>
      simp only [Bool.false_eq_true, if_false] at hpart ⊢
      exact ((List.take_sublist n parts).tail).subset hpart

/-- The paths that lead to the last of some components, longest first. -/
def upward (absolute : Bool) (parts : List Bytes) (n : Nat) : List Path :=
  (List.range n).reverse.map fun i => ofComponents absolute (parts.take (i + 1))

theorem upward_succ (absolute : Bool) (parts : List Bytes) (n : Nat) :
    upward absolute parts (n + 1) =
      ofComponents absolute (parts.take (n + 1)) :: upward absolute parts n := by
  simp [upward, List.range_succ]

/-- A path that names something in a directory has that name as its last component. -/
theorem exists_components_of_names {front : List Bytes} {name : Bytes}
    (h : p.names = front ++ [name]) (hname : name ≠ dot) :
    ∃ parts, p.components = parts ++ [name] ∧
      parts.filter (· ≠ dot) = front.filter (· ≠ dot) := by
  cases front with
  | nil => exact ⟨[], by simp [components, h, hname], rfl⟩
  | cons first front =>
      rw [components, h, List.cons_append]
      cases p.isAbsolute with
      | true =>
          refine ⟨(first :: front).filter (· ≠ dot), ?_, by simp⟩
          simp only [if_true]
          rw [← List.cons_append, List.filter_append]
          simp [hname]
      | false =>
          exact ⟨first :: front.filter (· ≠ dot), by simp [hname], by simp [List.filter_cons]⟩

section OfComponents

variable {parts : List Bytes} (h : parts.Sublist p.names)

include h

theorem bytes_ofComponents_sublist : (ofComponents p.isAbsolute parts).bytes.Sublist p.bytes := by
  have hpieces : parts.Sublist (pieces slash p.bytes) := h.trans List.filter_sublist
  cases hp : p.isAbsolute with
  | false =>
      have hjoin : ([slash].intercalate parts).Sublist _ := intercalate_sublist hpieces
      rw [intercalate_pieces] at hjoin
      exact hjoin
  | true =>
      obtain ⟨rest, hbytes⟩ := List.head?_eq_some_iff.mp (of_decide_eq_true hp)
      have hrest : parts.Sublist (pieces slash rest) := by
        refine List.Sublist.trans ?_ (List.filter_sublist (p := (· ≠ [])))
        rw [names, hbytes, pieces_cons] at h
        simpa using h
      have hjoin : ([slash].intercalate parts).Sublist _ := intercalate_sublist hrest
      rw [intercalate_pieces] at hjoin
      rw [hbytes]
      exact hjoin.cons_cons slash

theorem names_ofComponents : (ofComponents p.isAbsolute parts).names = parts := by
  have hne : ∀ part ∈ parts, part ≠ [] := fun part hpart => ne_nil_of_mem_names (h.subset hpart)
  have hslash : ∀ part ∈ parts, slash ∉ part :=
    fun part hpart => slash_not_mem_of_mem_names (h.subset hpart)
  have hkept : parts.filter (· ≠ []) = parts := by
    simpa [List.filter_eq_self] using hne
  have hparts : (pieces slash ([slash].intercalate parts)).filter (· ≠ []) = parts := by
    cases hp : parts with
    | nil => rfl
    | cons part rest => rw [← hp, pieces_intercalate (by simp [hp]) hslash, hkept]
  cases p.isAbsolute with
  | false => exact hparts
  | true =>
      simp only [names, ofComponents, if_true, List.singleton_append, pieces_cons]
      simpa using hparts

/-- A relative path without components is no path at all. -/
theorem bytes_ofComponents_ne_nil_iff :
    (ofComponents p.isAbsolute parts).bytes ≠ [] ↔ p.isAbsolute = true ∨ parts ≠ [] := by
  cases p.isAbsolute with
  | true => simp [ofComponents]
  | false =>
      cases hp : parts with
      | nil => simp [ofComponents, List.intercalate_nil]
      | cons part rest =>
          have hpart : part ≠ [] := ne_nil_of_mem_names (h.subset (by simp [hp]))
          cases rest with
          | nil => simpa [ofComponents, List.intercalate_singleton] using hpart
          | cons next rest => simp [ofComponents, List.intercalate_cons_cons]

theorem isAbsolute_ofComponents (hparts : p.isAbsolute = true ∨ parts ≠ []) :
    (ofComponents p.isAbsolute parts).isAbsolute = p.isAbsolute := by
  cases hp : p.isAbsolute with
  | true => simp [isAbsolute, ofComponents]
  | false =>
      obtain ⟨part, rest, rfl⟩ := List.exists_cons_of_ne_nil (hparts.resolve_left (by simp [hp]))
      have hname : part ∈ p.names := h.subset List.mem_cons_self
      obtain ⟨byte, part, rfl⟩ := List.exists_cons_of_ne_nil (ne_nil_of_mem_names hname)
      have hbyte : byte ≠ slash := fun he =>
        slash_not_mem_of_mem_names hname (he ▸ List.mem_cons_self)
      cases rest with
      | nil => simp [isAbsolute, ofComponents, List.intercalate_singleton, hbyte]
      | cons next rest => simp [isAbsolute, ofComponents, List.intercalate_cons_cons, hbyte]

theorem components_ofComponents (hparts : AreComponents p.isAbsolute parts) :
    (ofComponents p.isAbsolute parts).components = parts := by
  rw [components, names_ofComponents h]
  cases hp : parts with
  | nil => rfl
  | cons first rest =>
      rw [← hp, isAbsolute_ofComponents h (.inr (by simp [hp]))]
      rw [AreComponents] at hparts
      cases habsolute : p.isAbsolute with
      | true =>
          simp only [habsolute, if_true, hp] at hparts ⊢
          simpa [List.filter_eq_self] using hparts
      | false =>
          simp only [habsolute, Bool.false_eq_true, if_false, hp, List.tail_cons] at hparts ⊢
          simpa [List.filter_eq_self] using hparts

/-- The directories that lead to a path are made of ever fewer of its components. -/
theorem ancestors_ofComponents (hparts : AreComponents p.isAbsolute parts) (hne : parts ≠ []) :
    (ofComponents p.isAbsolute parts).ancestors = upward p.isAbsolute parts parts.length := by
  have hlength : parts.length = parts.length - 1 + 1 :=
    (Nat.sub_add_cancel (List.length_pos_iff.mpr hne)).symm
  rw [ancestors, if_neg ((bytes_ofComponents_ne_nil_iff h).mpr (.inr hne)),
    components_ofComponents h hparts, isAbsolute_ofComponents h (.inr hne), hlength, upward_succ,
    ← hlength, List.take_length]
  rfl

end OfComponents

end Path

end EnumCodegen
