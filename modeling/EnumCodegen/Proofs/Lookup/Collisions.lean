import EnumCodegen.Proofs.Lookup.Matching
import Mathlib.Data.Finset.Card

/-! # Names that an earlier one hides

Two names are told apart in no case mode if they are the same up to letter case. Of the
names that are, only the first one can be found, and all others are reported with it. -/

namespace EnumCodegen

open Utf8

/-! ## Reports -/

theorem mem_collisions_iff {names : List Text} {c : Collision} :
    c ∈ collisions names ↔ ∃ name, names[c.index]? = some name ∧
      findName? true 0 names name = some c.shadowedBy ∧ c.shadowedBy ≠ c.index := by
  simp only [collisions, List.mem_filterMap, Prod.exists, List.mem_zipIdx_iff_getElem?]
  constructor
  · rintro ⟨name, i, hi, hc⟩
    cases hf : findName? true 0 names name with
    | none => simp [hf] at hc
    | some j =>
        simp only [hf, Option.ite_none_left_eq_some, Option.some.injEq] at hc
        obtain ⟨hne, rfl⟩ := hc
        exact ⟨name, hi, hf, hne⟩
  · rintro ⟨name, hi, hf, hne⟩
    exact ⟨name, c.index, hi, by simp [hf, hne]⟩

theorem pairwise_index_collisions (names : List Text) :
    ((collisions names).map Collision.index).Pairwise (· < ·) := by
  rw [List.pairwise_map, collisions, List.pairwise_filterMap]
  refine (pairwise_zipIdx names).imp fun {p q} hlt c hc c' hc' => ?_
  cases hf : findName? true 0 names p.1 with
  | none => simp [hf] at hc
  | some j =>
      cases hf' : findName? true 0 names q.1 with
      | none => simp [hf'] at hc'
      | some j' =>
          simp only [hf, Option.ite_none_left_eq_some, Option.some.injEq] at hc
          simp only [hf', Option.ite_none_left_eq_some, Option.some.injEq] at hc'
          rw [← hc.2, ← hc'.2]
          exact hlt

/-! ## Hidden names -/

/-- A name that is the same up to letter case stands earlier in the list. -/
def IsHidden (names : List Text) (i : Nat) : Prop :=
  ∃ name, names[i]? = some name ∧
    ∃ j < i, ∃ earlier, names[j]? = some earlier ∧ earlier.lowered = name.lowered

def IsFirstLike (names : List Text) (name : Text) (j : Nat) : Prop :=
  IsFirst (fun stored => stored.lowered = name.lowered) names j

section Hidden

variable {names : List Text} {name : Text} {i j : Nat}

theorem findName?_true_eq_some_iff :
    findName? true 0 names name = some j ↔ IsFirstLike names name j := by
  rw [findName?_eq_some_iff]
  refine IsFirst.congr fun stored => ?_
  rw [tail_zero, agree_true_iff, eq_comm]

theorem IsFirstLike.not_isHidden (h : IsFirstLike names name j) : ¬ IsHidden names j := by
  rintro ⟨first, hfirst, k, hk, earlier, hearlier, heq⟩
  obtain ⟨⟨x, hx, hlike⟩, hnone⟩ := h
  obtain rfl : first = x := Option.some.inj (hfirst.symm.trans hx)
  exact hnone k hk earlier hearlier (heq.trans hlike)

/-- A name is hidden just when the first one like it stands elsewhere. -/
theorem isHidden_iff (hi : names[i]? = some name) :
    IsHidden names i ↔ ∃ j, IsFirstLike names name j ∧ j ≠ i := by
  constructor
  · rintro ⟨name', hname', k, hk, earlier, hearlier, heq⟩
    obtain rfl : name = name' := Option.some.inj (hi.symm.trans hname')
    obtain ⟨j, hj, hfirst⟩ : ∃ j ≤ k, IsFirstLike names name j := exists_isFirst hearlier heq
    exact ⟨j, hfirst, by omega⟩
  · rintro ⟨j, hfirst, hne⟩
    by_contra hhidden
    refine hne (hfirst.eq ⟨⟨name, hi, rfl⟩, fun k hk earlier hearlier heq => hhidden ?_⟩)
    exact ⟨name, hi, k, hk, earlier, hearlier, heq⟩

theorem mem_index_collisions_iff :
    i ∈ (collisions names).map Collision.index ↔ IsHidden names i := by
  rw [List.mem_map]
  constructor
  · rintro ⟨c, hc, rfl⟩
    obtain ⟨name, hname, hfind, hne⟩ := mem_collisions_iff.mp hc
    exact (isHidden_iff hname).mpr ⟨c.shadowedBy, findName?_true_eq_some_iff.mp hfind, hne⟩
  · intro h
    have ⟨name, hname, _⟩ := h
    obtain ⟨j, hfirst, hne⟩ := (isHidden_iff hname).mp h
    refine ⟨⟨i, j⟩, mem_collisions_iff.mpr ⟨name, hname, ?_, hne⟩, rfl⟩
    exact findName?_true_eq_some_iff.mpr hfirst

/-- What is found whatever the case mode is, is what no other name hides. -/
theorem findName?_of_not_isHidden (ignoreCase : Bool) (hi : names[i]? = some name)
    (h : ¬ IsHidden names i) : findName? ignoreCase 0 names name = some i := by
  rw [findName?_eq_some_iff]
  refine ⟨⟨name, hi, ?_⟩, fun k hk earlier hearlier hagree => h ?_⟩
  · exact (nameMatches_iff ..).mp (nameMatches_self ignoreCase name)
  · refine ⟨name, hi, k, hk, earlier, hearlier, ?_⟩
    simp only [tail_zero] at hagree
    cases ignoreCase with
    | false => rw [encode_injective (agree_false_iff.mp hagree)]
    | true => exact ((agree_true_iff _ _).mp hagree).symm

end Hidden

/-! ## How many names are left -/

theorem countP_first {α : Type} [DecidableEq α] (xs : List α) :
    (List.range xs.length).countP (fun i => ∀ j < i, xs[j]? ≠ xs[i]?) = xs.toFinset.card := by
  induction xs using List.reverseRecOn with
  | nil => rfl
  | append_singleton xs x ih =>
      have hfront : (List.range xs.length).countP
            (fun i => ∀ j < i, (xs ++ [x])[j]? ≠ (xs ++ [x])[i]?) = xs.toFinset.card := by
        rw [← ih]
        refine List.countP_congr fun i hi => ?_
        have hlt := List.mem_range.mp hi
        simp only [decide_eq_true_eq]
        refine forall₂_congr fun j hj => ?_
        rw [List.getElem?_append_left hlt, List.getElem?_append_left (Nat.lt_trans hj hlt)]
      have hlast : (∀ j < xs.length, (xs ++ [x])[j]? ≠ (xs ++ [x])[xs.length]?) ↔ x ∉ xs := by
        rw [List.getElem?_concat_length]
        constructor
        · intro h hmem
          obtain ⟨j, hj⟩ := List.mem_iff_getElem?.mp hmem
          have hlt : j < xs.length := (List.getElem?_eq_some_iff.mp hj).1
          exact h j hlt (by rw [List.getElem?_append_left hlt, hj])
        · intro h j hlt heq
          rw [List.getElem?_append_left hlt] at heq
          exact h (List.mem_of_getElem? heq)
      rw [List.length_append, List.length_singleton, List.range_succ, List.countP_append, hfront,
        List.countP_singleton, List.toFinset_append]
      simp only [hlast, decide_eq_true_eq]
      by_cases hx : x ∈ xs
      · simp [hx]
      · simp [hx]

theorem not_isHidden_iff_of_lt {names : List Text} {i : Nat} (hi : i < names.length) :
    ¬ IsHidden names i ↔
      ∀ j < i, (names.map Text.lowered)[j]? ≠ (names.map Text.lowered)[i]? := by
  have hname : names[i]? = some names[i] := List.getElem?_eq_getElem hi
  simp only [List.getElem?_map, hname, Option.map_some]
  constructor
  · intro h j hj heq
    obtain ⟨earlier, hearlier, hlike⟩ := Option.map_eq_some_iff.mp heq
    exact h ⟨names[i], hname, j, hj, earlier, hearlier, hlike⟩
  · rintro h ⟨name, hi', j, hj, earlier, hearlier, hlike⟩
    obtain rfl : names[i] = name := Option.some.inj (hname.symm.trans hi')
    exact h j hj (by rw [hearlier, Option.map_some, hlike])

/-! ## What is reported -/

/-- A list of reports about the names that are hidden by an earlier one. -/
structure ReportsHidden (names : List Text) (found : List Collision) : Prop where
  mem_index_iff : ∀ i, i ∈ found.map Collision.index ↔ IsHidden names i
  increasing : (found.map Collision.index).Pairwise (· < ·)
  shadowedBy_first : ∀ c ∈ found, ∃ name, names[c.index]? = some name ∧
    IsFirstLike names name c.shadowedBy
  shadowedBy_not_mem : ∀ c ∈ found, c.shadowedBy ∉ found.map Collision.index
  /-- What is not reported is one name for each way to read the names up to letter case. -/
  count_eq : (List.range names.length).countP (· ∉ found.map Collision.index) =
    (names.map Text.lowered).toFinset.card
  /-- Without reports every name is found where it stands. -/
  find_eq : found = [] → ∀ (i : Nat) (name : Text), names[i]? = some name →
    ∀ ignoreCase, findName? ignoreCase 0 names name = some i

/-- The reports are exactly those about hidden names. -/
theorem reportsHidden_collisions (names : List Text) : ReportsHidden names (collisions names) := by
  have hfirst : ∀ c ∈ collisions names, ∃ name, names[c.index]? = some name ∧
      IsFirstLike names name c.shadowedBy := by
    intro c hc
    obtain ⟨name, hname, hfind, -⟩ := mem_collisions_iff.mp hc
    exact ⟨name, hname, findName?_true_eq_some_iff.mp hfind⟩
  refine ⟨fun i => mem_index_collisions_iff, pairwise_index_collisions names, hfirst, ?_, ?_, ?_⟩
  · intro c hc hmem
    obtain ⟨name, -, hlike⟩ := hfirst c hc
    exact hlike.not_isHidden (mem_index_collisions_iff.mp hmem)
  · rw [← countP_first, List.length_map]
    refine List.countP_congr fun i hi => ?_
    rw [decide_eq_true_eq, decide_eq_true_eq, mem_index_collisions_iff]
    exact not_isHidden_iff_of_lt (List.mem_range.mp hi)
  · intro hnil i name hi ignoreCase
    refine findName?_of_not_isHidden ignoreCase hi fun h => ?_
    rw [← mem_index_collisions_iff, hnil] at h
    cases h

example : (collisions ["Red", "GREEN", "RED", "Green"]) = [⟨2, 0⟩, ⟨3, 1⟩] := by decide +kernel

end EnumCodegen
