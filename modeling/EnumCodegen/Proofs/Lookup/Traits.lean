import EnumCodegen.Emission.Traits
import EnumCodegen.Proofs.Lookup.Matching
import Mathlib.Data.List.Basic

/-! # The rows of a traits table

Entries without a payload have no row, so rows and entries are counted apart: the row of an
entry stands as far down as there are payloads before it. The row that is found for a value is
that of the first entry with this name and a payload, and the rows that are never found are
those below another one of the same value. -/

namespace EnumCodegen

/-! ## Positions in a filtered list -/

section Filtered

variable {α β : Type} {f : α → Option β} {xs : List α} {x : α} {k : Nat}

theorem eq_take_append_cons (h : xs[k]? = some x) : xs = xs.take k ++ x :: xs.drop (k + 1) := by
  obtain ⟨hk, rfl⟩ := List.getElem?_eq_some_iff.mp h
  rw [← List.drop_eq_getElem_cons hk, List.take_append_drop]

theorem filterMap_eq_of_getElem? {b : β} (h : xs[k]? = some x) (hb : f x = some b) :
    xs.filterMap f = (xs.take k).filterMap f ++ b :: (xs.drop (k + 1)).filterMap f := by
  conv_lhs => rw [eq_take_append_cons h, List.filterMap_append, List.filterMap_cons_some hb]

theorem getElem?_filterMap_take {b : β} (h : xs[k]? = some x) (hb : f x = some b) :
    (xs.filterMap f)[((xs.take k).filterMap f).length]? = some b := by
  rw [filterMap_eq_of_getElem? h hb]
  simp

/-- The first entry that gives something with a property gives the first such thing. -/
theorem IsFirst.filterMap {P : β → Prop} (h : IsFirst (fun x => ∃ b, f x = some b ∧ P b) xs k) :
    IsFirst P (xs.filterMap f) ((xs.take k).filterMap f).length := by
  obtain ⟨⟨x, hx, b, hb, hp⟩, hfirst⟩ := h
  rw [filterMap_eq_of_getElem? hx hb]
  refine ⟨⟨b, by simp, hp⟩, fun i hi c hc hpc => ?_⟩
  rw [List.getElem?_append_left hi] at hc
  obtain ⟨y, hy, hfy⟩ := List.mem_filterMap.mp (List.mem_of_getElem? hc)
  obtain ⟨j, hj⟩ := List.mem_iff_getElem?.mp hy
  rw [List.getElem?_take] at hj
  split at hj
  · rename_i hlt
    exact hfirst j hlt y hj ⟨c, hfy, hpc⟩
  · cases hj

end Filtered

/-! ## Rows -/

/-- How many entries before a position have a payload. -/
def Enumeration.payloadsBefore (e : Enumeration) (k : Nat) : Nat :=
  (e.entries.take k).countP (·.payload? ≠ none)

/-- What a table of traits has to do with the entries of its enumeration. -/
structure TraitsTable.Covers (t : TraitsTable) (e : Enumeration) : Prop where
  typeName : e.traitsType? = some t.typeName
  condition : e.traitsCondition? = t.condition?
  /-- There is one row for each entry with a payload, in the order of the entries. -/
  rows : List.Forall₂ (fun entry row => entry.name = row.value ∧ entry.payload? = some row.payload)
    (e.entries.filter (·.payload? ≠ none)) t.rows
  /-- The row that is found is that of the first entry with the name and a payload. -/
  find_of_isFirst : ∀ (value : Text) (k : Nat),
    IsFirst (fun entry => entry.name = value ∧ entry.payload? ≠ none) e.entries k →
      ∃ entry payload, e.entries[k]? = some entry ∧ entry.payload? = some payload ∧
        t.find? value = some (e.payloadsBefore k) ∧
        t.rows[e.payloadsBefore k]? = some ⟨value, payload⟩
  find_eq_none_iff : ∀ value : Text,
    t.find? value = none ↔ ∀ entry ∈ e.entries, entry.name = value → entry.payload? = none
  /-- What is reported are the rows below another one of the same value, in their order. -/
  mem_shadowed_iff : ∀ (i : Nat) (row : TraitsRow), (i, row) ∈ t.shadowed ↔
    t.rows[i]? = some row ∧ ∃ j < i, ∃ earlier, t.rows[j]? = some earlier ∧
      earlier.value = row.value
  increasing : (t.shadowed.map Prod.fst).Pairwise (· < ·)
  /-- Every other row is found where it stands. -/
  find_of_not_shadowed : ∀ (i : Nat) (row : TraitsRow), t.rows[i]? = some row →
    (i, row) ∉ t.shadowed → t.find? row.value = some i

theorem Entry.traitsRow?_eq_some_iff {entry : Entry} {row : TraitsRow} :
    entry.traitsRow? = some row ↔ entry.name = row.value ∧ entry.payload? = some row.payload := by
  obtain ⟨value, payload⟩ := row
  simp [traitsRow?, and_comm]

theorem forall₂_filterMap {α β : Type} (f : α → Option β) (xs : List α) :
    List.Forall₂ (fun x b => f x = some b) (xs.filter (f · |>.isSome)) (xs.filterMap f) := by
  induction xs with
  | nil => exact .nil
  | cons x xs ih =>
      cases hf : f x with
      | none => simpa [hf] using ih
      | some b => simpa [hf] using ih

namespace TraitsTable

variable {t : TraitsTable}

theorem find?_eq_some_iff {value : Text} {i : Nat} :
    t.find? value = some i ↔ IsFirst (·.value = value) t.rows i := by
  rw [find?, findIdx?_eq_some_iff_isFirst]
  exact IsFirst.congr fun row => decide_eq_true_iff

theorem mem_shadowed_iff_find? {i : Nat} {row : TraitsRow} :
    (i, row) ∈ t.shadowed ↔ t.rows[i]? = some row ∧ t.find? row.value ≠ some i := by
  simp only [shadowed, List.mem_filterMap, Prod.exists, List.mem_zipIdx_iff_getElem?]
  constructor
  · rintro ⟨row', i', hi, h⟩
    split at h
    · cases h
    · rename_i hne
      cases h
      exact ⟨hi, hne⟩
  · rintro ⟨hi, hne⟩
    exact ⟨row, i, hi, if_neg hne⟩

theorem find?_ne_some_iff {i : Nat} {row : TraitsRow} (hi : t.rows[i]? = some row) :
    t.find? row.value ≠ some i ↔
      ∃ j < i, ∃ earlier, t.rows[j]? = some earlier ∧ earlier.value = row.value := by
  constructor
  · intro hne
    obtain ⟨j, hle, hfirst⟩ := exists_isFirst (P := (·.value = row.value)) hi rfl
    have hji : j ≠ i := by
      rintro rfl
      exact hne (find?_eq_some_iff.mpr hfirst)
    obtain ⟨earlier, hj, hvalue⟩ := hfirst.1
    exact ⟨j, Nat.lt_of_le_of_ne hle hji, earlier, hj, hvalue⟩
  · rintro ⟨j, hlt, earlier, hj, hvalue⟩ hfind
    exact (find?_eq_some_iff.mp hfind).2 j hlt earlier hj hvalue

theorem find?_eq_none_iff {value : Text} :
    t.find? value = none ↔ ∀ row ∈ t.rows, row.value ≠ value := by
  simp [find?]

theorem pairwise_shadowed (t : TraitsTable) : (t.shadowed.map Prod.fst).Pairwise (· < ·) := by
  have hposition : ∀ (p : TraitsRow × Nat) (q : Nat × TraitsRow),
      (if t.find? p.1.value = some p.2 then none else some (p.2, p.1)) = some q → q.1 = p.2 := by
    intro p q hq
    split at hq
    · cases hq
    · cases hq
      rfl
  rw [List.pairwise_map, shadowed, List.pairwise_filterMap]
  refine (pairwise_zipIdx t.rows).imp fun {p p'} hlt q hq q' hq' => ?_
  rw [hposition p q hq, hposition p' q' hq']
  exact hlt

end TraitsTable

namespace Enumeration

variable {e : Enumeration} {t : TraitsTable}

theorem isSome_traitsRow? (entry : Entry) :
    entry.traitsRow?.isSome = decide (entry.payload? ≠ none) := by
  unfold Entry.traitsRow?
  cases entry.payload? <;> simp

theorem length_filterMap_traitsRow? (e : Enumeration) (k : Nat) :
    ((e.entries.take k).filterMap Entry.traitsRow?).length = e.payloadsBefore k := by
  rw [List.length_filterMap_eq_countP, payloadsBefore]
  simp only [isSome_traitsRow?]

theorem isFirst_row {value : Text} {k : Nat}
    (h : IsFirst (fun entry => entry.name = value ∧ entry.payload? ≠ none) e.entries k) :
    IsFirst (·.value = value) (e.entries.filterMap Entry.traitsRow?) (e.payloadsBefore k) := by
  rw [← length_filterMap_traitsRow?]
  apply IsFirst.filterMap
  refine (IsFirst.congr fun entry => ?_).mp h
  simp only [Entry.traitsRow?_eq_some_iff]
  constructor
  · rintro ⟨rfl, hpayload⟩
    obtain ⟨payload, hpayload⟩ := Option.ne_none_iff_exists'.mp hpayload
    exact ⟨⟨entry.name, payload⟩, ⟨rfl, hpayload⟩, rfl⟩
  · rintro ⟨row, ⟨hname, hpayload⟩, rfl⟩
    exact ⟨hname, by simp [hpayload]⟩

theorem covers_traitsTable? (h : e.traitsTable? = some t) : t.Covers e := by
  obtain ⟨typeName, htype, rfl⟩ := Option.map_eq_some_iff.mp h
  exact {
    typeName := htype
    condition := rfl
    rows := by
      have hrows := forall₂_filterMap Entry.traitsRow? e.entries
      simp only [isSome_traitsRow?] at hrows
      exact hrows.imp fun entry row => Entry.traitsRow?_eq_some_iff.mp
    find_of_isFirst := by
      intro value k hfirst
      obtain ⟨⟨entry, hk, hname, hpayload⟩, -⟩ := id hfirst
      obtain ⟨payload, hpayload⟩ := Option.ne_none_iff_exists'.mp hpayload
      refine ⟨entry, payload, hk, hpayload, TraitsTable.find?_eq_some_iff.mpr (isFirst_row hfirst),
        ?_⟩
      rw [← length_filterMap_traitsRow?]
      exact getElem?_filterMap_take hk (Entry.traitsRow?_eq_some_iff.mpr ⟨hname, hpayload⟩)
    find_eq_none_iff := by
      intro value
      rw [TraitsTable.find?_eq_none_iff]
      constructor
      · intro hnone entry hentry hname
        cases hpayload : entry.payload? with
        | none => rfl
        | some payload =>
            have hrow : entry.traitsRow? = some ⟨value, payload⟩ :=
              Entry.traitsRow?_eq_some_iff.mpr ⟨hname, hpayload⟩
            exact absurd rfl (hnone _ (List.mem_filterMap.mpr ⟨entry, hentry, hrow⟩))
      · rintro hnone row hrow rfl
        obtain ⟨entry, hentry, hrow⟩ := List.mem_filterMap.mp hrow
        obtain ⟨hname, hpayload⟩ := Entry.traitsRow?_eq_some_iff.mp hrow
        simp [hnone entry hentry hname] at hpayload
    mem_shadowed_iff := by
      intro i row
      rw [TraitsTable.mem_shadowed_iff_find?]
      exact and_congr_right TraitsTable.find?_ne_some_iff
    increasing := TraitsTable.pairwise_shadowed _
    find_of_not_shadowed := by
      intro i row hi hnot
      rw [TraitsTable.mem_shadowed_iff_find?, not_and, not_not] at hnot
      exact hnot hi }

example :
    let e : Enumeration :=
      { name := "E", traitsType? := some "T"
        entries := [.ofText "A", .ofText "B(1)", .ofText "A(2)", .ofText "A = 7 (3)"] }
    e.traitsTable?.map (fun t => (t.find? "A", t.shadowed)) =
      some (some 1, [(2, ⟨"A", "(3)"⟩)]) := by decide +kernel

end Enumeration

end EnumCodegen
