import EnumCodegen.Description.Builder
import Mathlib.Data.List.Basic

/-! # The steps of building a description

What one setting can do to a builder, and that a run does this with each of its settings. -/

namespace EnumCodegen

theorem Description.updateLast?_eq_some_iff {d d' : Description} {f : Enumeration → Enumeration} :
    d.updateLast? f = some d' ↔
      ∃ front e, d.enumerations = front ++ [e] ∧
        d' = { d with enumerations := front ++ [f e] } := by
  rw [updateLast?]
  rcases List.eq_nil_or_concat' d.enumerations with hnil | ⟨front, e, he⟩
  · simp [hnil]
  · simp only [he, List.getLast?_concat, List.dropLast_concat, Option.some.injEq]
    constructor
    · rintro rfl
      exact ⟨front, e, rfl, rfl⟩
    · rintro ⟨front', e', hlast, rfl⟩
      obtain ⟨rfl, he'⟩ := List.append_inj' hlast rfl
      obtain rfl := List.singleton_inj.mp he'
      rfl

namespace Builder

variable {b b' : Builder} {t : Triple} {triples : List Triple}

/-- A setting that is taken opens its section. If its key is known, then it also sets it. -/
theorem apply_eq_ok_iff :
    b.apply t = (.ok (), b') ↔
      Key.ofSpelling? t.key = none ∧ b' = b.enter t.sectionName ∨
      ∃ key d, Key.ofSpelling? t.key = some key ∧
        (b.enter t.sectionName).description.set? key t.value = some d ∧
        b' = { b.enter t.sectionName with description := d } := by
  simp only [apply]
  cases hk : Key.ofSpelling? t.key with
  | none => simp [eq_comm]
  | some key =>
      cases hd : (b.enter t.sectionName).description.set? key t.value with
      | none => simp [hd]
      | some d => simp [hd, eq_comm]

theorem run_cons_eq_ok_iff :
    b.run (t :: triples) = .ok b' ↔
      ∃ mid, b.apply t = (.ok (), mid) ∧ mid.run triples = .ok b' := by
  rw [run]
  cases hstep : b.apply t with
  | mk answer mid => cases answer <;> simp

end Builder

theorem Description.ofTriples_eq_ok_iff {triples : List Triple} {d : Description} :
    ofTriples triples = .ok d ↔ ∃ b, Builder.start.run triples = .ok b ∧ b.description = d := by
  rw [ofTriples]
  cases Builder.start.run triples with
  | error e => simp [Except.map]
  | ok b => simp [Except.map]

end EnumCodegen
