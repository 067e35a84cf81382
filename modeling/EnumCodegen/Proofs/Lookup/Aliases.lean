import EnumCodegen.Log.Event
import EnumCodegen.Proofs.Lookup.Collisions

/-! # What generated lookups find

A generated lookup goes from an index to its value, from the value to the first index
that has it, and only then to a name. The warnings compare names alone. The two agree
as long as no two entries share a value: an entry whose value stands earlier in the
table is not found by its own name, and nothing warns about it. -/

namespace EnumCodegen

/-! ## The tables of generated code -/

/-- The two tables of an enumeration while generated code runs, position by position. -/
structure Tables where
  strings : List Text
  values : List Int
  deriving DecidableEq, Repr

/-- The tables of an enumeration under an assignment of values to names. -/
def Enumeration.tables (e : Enumeration) (value : Text → Int) : Tables :=
  ⟨e.names, e.names.map value⟩

namespace Tables

def toIndex? (t : Tables) (v : Int) : Option Nat := t.values.findIdx? (· = v)

def toString? (t : Tables) (v : Int) : Option Text := (t.toIndex? v).bind (t.strings[·]?)

/-- The value of the first index whose value has a name that matches. -/
def fromString? (t : Tables) (ignoreCase : Bool) (skip : Nat) (text : Text) : Option Int :=
  t.values.find? fun v => (t.toString? v).any (nameMatches ignoreCase skip text)

end Tables

/-! ## Names that no warning is about -/

namespace Enumeration

variable {e : Enumeration} {i : Nat} {name : Text}

theorem unreachable_mem_warnings {c : Collision} (hc : c ∈ collisions e.names) :
    .unreachable e.name (e.names.getD c.index []) (e.names.getD c.shadowedBy []) ∈ e.warnings := by
  have hne : e.entries ≠ [] := by
    rintro he
    simp [names, he, collisions] at hc
  rw [warnings, if_neg hne]
  exact List.mem_append_left _ (List.mem_map_of_mem hc)

/-- Without a warning about a name, no name before it matches it. -/
theorem not_nameMatches_of_not_warned (hi : e.names[i]? = some name)
    (hw : ∀ first, .unreachable e.name name first ∉ e.warnings) :
    ∀ j < i, ∀ other, e.names[j]? = some other → nameMatches true 0 name other = false := by
  intro j hj other hother
  by_contra hm
  rw [Bool.not_eq_false] at hm
  obtain ⟨k, hk⟩ : ∃ k, findName? true 0 e.names name = some k := by
    rw [findName?, ← Option.isSome_iff_exists, List.findIdx?_isSome, List.any_eq_true]
    exact ⟨other, List.mem_of_getElem? hother, hm⟩
  have hkj : k ≤ j := by
    obtain ⟨hlt, _, hfirst⟩ := List.findIdx?_eq_some_iff_getElem.mp hk
    obtain ⟨hjlt, rfl⟩ := List.getElem?_eq_some_iff.mp hother
    by_contra hlt
    exact hfirst j (by omega) hm
  have hc : (⟨i, k⟩ : Collision) ∈ collisions e.names :=
    mem_collisions_iff.mpr ⟨name, hi, hk, by simp; omega⟩
  have hwarned := unreachable_mem_warnings hc
  simp only [List.getD_eq_getElem?_getD, hi, Option.getD_some] at hwarned
  exact hw _ hwarned

end Enumeration

/-! ## Finding a name -/

namespace Enumeration

variable {e : Enumeration} {value : Text → Int} {i : Nat} {name : Text}

/-- The name that generated code gives a value is that of the first entry with it. -/
theorem toString?_eq_some_iff {v : Int} :
    (e.tables value).toString? v = some name ↔
      ∃ k : Nat, e.names[k]? = some name ∧ value name = v ∧
        ∀ j < k, ∀ other, e.names[j]? = some other → value other ≠ v := by
  simp only [Tables.toString?, Tables.toIndex?, tables, Option.bind_eq_some_iff,
    List.findIdx?_eq_some_iff_getElem]
  constructor
  · rintro ⟨k, ⟨hk, hv, hfirst⟩, hname⟩
    obtain ⟨hlt, rfl⟩ := List.getElem?_eq_some_iff.mp hname
    refine ⟨k, hname, by simpa using hv, fun j hj other hother => ?_⟩
    obtain ⟨_, rfl⟩ := List.getElem?_eq_some_iff.mp hother
    simpa using hfirst j hj
  · rintro ⟨k, hname, rfl, hfirst⟩
    obtain ⟨hlt, rfl⟩ := List.getElem?_eq_some_iff.mp hname
    refine ⟨k, ⟨by simpa using hlt, by simp, fun j hj => ?_⟩, hname⟩
    simpa using hfirst j hj _ (List.getElem?_eq_getElem (Nat.lt_trans hj hlt))

/-- A name that no warning is about is found, with the value of its entry, just when no
entry before it has that value. -/
theorem fromString?_eq_value_iff (value : Text → Int) (hi : e.names[i]? = some name)
    (hw : ∀ first, .unreachable e.name name first ∉ e.warnings) :
    (e.tables value).fromString? true 0 name = some (value name) ↔
      ∀ j < i, ∀ other, e.names[j]? = some other → value other ≠ value name := by
  have hbefore := not_nameMatches_of_not_warned hi hw
  obtain ⟨hlt, hget⟩ := List.getElem?_eq_some_iff.mp hi
  constructor
  · intro hf
    have hmatch := List.find?_some hf
    rw [Option.any_eq_true] at hmatch
    obtain ⟨stored, hstored, hm⟩ := hmatch
    obtain ⟨k, hk, hv, hfirst⟩ := toString?_eq_some_iff.mp hstored
    rcases Nat.lt_trichotomy k i with hki | rfl | hki
    · rw [hbefore k hki stored hk] at hm
      cases hm
    · exact hfirst
    · exact absurd rfl (hfirst i hki name hi)
  · intro hfirst
    rw [Tables.fromString?, List.find?_eq_some_iff_getElem]
    refine ⟨?_, i, by simpa [tables] using hlt, by simp [tables, hget], fun j hj => ?_⟩
    · rw [toString?_eq_some_iff.mpr ⟨i, hi, rfl, hfirst⟩, Option.any_some]
      exact nameMatches_self true name
    · -- the name at hand for an earlier value stands before the entry, too
      rw [Bool.not_eq_true', ← Bool.not_eq_true, Option.any_eq_true]
      rintro ⟨stored, hstored, hm⟩
      obtain ⟨k, hk, _, hleast⟩ := toString?_eq_some_iff.mp hstored
      have hkj : k ≤ j := by
        by_contra hjk
        have hget : e.names[j]? = some e.names[j] := List.getElem?_eq_getElem (Nat.lt_trans hj hlt)
        exact hleast j (by omega) _ hget (by simp [tables])
      rw [hbefore k (by omega) stored hk] at hm
      cases hm

/-- Two names with different values, which are found although one is a front of the other. -/
theorem fromString?_eq_value_apart :
    let e : Enumeration := { name := "E", entries := [.ofText "ON = 1", .ofText "ONE = 2"] }
    let value : Text → Int := fun name => if name = "ON" then 1 else 2
    (e.tables value).fromString? true 0 "ONE" = some (value "ONE") := by
  intro e value
  have hi : e.names[1]? = some ("ONE" : Text) := by decide +kernel
  have hw : ∀ first, .unreachable e.name "ONE" first ∉ e.warnings := by
    rw [show e.warnings = [] by decide +kernel]
    simp
  refine (fromString?_eq_value_iff value hi hw).mpr fun j hj other hother => ?_
  obtain rfl : j = 0 := by omega
  obtain rfl : ("ON" : Text) = other := Option.some.inj (.trans (by decide +kernel) hother)
  decide +kernel

/-- The second of two names for one value is not found, and no warning says so. -/
theorem fromString?_misses_alias :
    ¬ ∀ (e : Enumeration) (value : Text → Int) (i : Nat) (name : Text),
      e.names.Nodup → (∀ stored ∈ e.names, '\x00' ∉ stored) → e.names[i]? = some name →
        (∀ first, .unreachable e.name name first ∉ e.warnings) →
          (e.tables value).fromString? true 0 name = some (value name) := by
  intro h
  let e : Enumeration := { name := "E", entries := [.ofText "A=0", .ofText "B=0"] }
  have hw : ∀ first, .unreachable e.name "B" first ∉ e.warnings := by
    rw [show e.warnings = [] by decide +kernel]
    simp
  have hf := h e (fun _ => 0) 1 "B" (by decide +kernel) (by decide +kernel) (by decide +kernel) hw
  exact absurd hf (by decide +kernel)

end Enumeration

end EnumCodegen
