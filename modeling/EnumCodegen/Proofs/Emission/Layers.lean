import EnumCodegen.Proofs.Emission.Parts

/-! # The layers of a part

The lines of a part stand outside of all conditions, or under the condition of the files, or
under that of the traits. Between them stand the directives of these conditions, and since a
condition can be any text, a line that closes one can read like any other. -/

namespace EnumCodegen

open Text Code

/-- Lines outside of all conditions, lines under the condition of the files, and lines under
that of the traits. -/
structure Layers where
  outside : List Text
  shared : List Text
  traits : List Text

/-- All lines one after another, with the directives of the conditions. A blank line stands
before the traits, if there are any. -/
def Layers.lines (condition? traitsCondition? : Option Text) (l : Layers) : List Text :=
  l.outside ++ wrapped id condition? l.shared ++
    if l.traits = [] then [] else [] :: wrapped id traitsCondition? l.traits

/-- The line that closes a condition, if it tests a macro. -/
def closing (condition? : Option Text) : List Text := ((tested? condition?).map endLine).toList

/-- The lines that close the conditions of a part. -/
def Enumeration.closings (e : Enumeration) (condition? : Option Text) : List Text :=
  closing condition? ++ e.traitsTable?.toList.flatMap fun table => closing table.condition?

theorem exists_of_mem_closings {e : Enumeration} {condition? : Option Text} {line : Text}
    (h : line ∈ e.closings condition?) : ∃ c, line = endLine c := by
  have hclosing : ∀ condition?, line ∈ closing condition? → ∃ c, line = endLine c := by
    intro condition? hmem
    obtain ⟨c, _, rfl⟩ := Option.map_eq_some_iff.mp (Option.mem_toList.mp hmem)
    exact ⟨c, rfl⟩
  rcases List.mem_append.mp h with hmem | hmem
  · exact hclosing _ hmem
  · obtain ⟨table, _, hmem⟩ := List.mem_flatMap.mp hmem
    exact hclosing _ hmem

/-! ## Counting lines -/

section Counting

variable {e : Enumeration} {condition? : Option Text} {line : Text}

theorem count_wrapped (h : ∀ c, line ≠ ifLine c) (condition? : Option Text) (lines : List Text) :
    (wrapped id condition? lines).count line =
      lines.count line + (closing condition?).count line := by
  unfold wrapped closing
  cases tested? condition? with
  | none => simp
  | some c => simp [List.count_append, List.count_cons, (h c).symm]

/-- Where the traits have a layer just if there are any, a line is counted layer by layer, and
where it closes a condition. -/
theorem Layers.count_lines {l : Layers} (hl : l.traits = [] ↔ e.traitsTable? = none)
    (hne : line ≠ []) (hif : ∀ c, line ≠ ifLine c) :
    (l.lines condition? e.traitsCondition?).count line =
      l.outside.count line + l.shared.count line + l.traits.count line +
        (e.closings condition?).count line := by
  have hclosings : (e.closings condition?).count line =
      (closing condition?).count line +
        if l.traits = [] then 0 else (closing e.traitsCondition?).count line := by
    rw [Enumeration.closings, List.count_append]
    simp only [hl, Enumeration.traitsTable?]
    cases e.traitsType? <;> simp
  rw [hclosings, Layers.lines, List.count_append, List.count_append, count_wrapped hif]
  split
  · rename_i hnone
    rw [hnone]
    simp only [List.count_nil]
    omega
  · rw [List.count_cons_of_ne hne.symm, count_wrapped hif]
    omega

end Counting

/-! ## The layers of the two parts -/

namespace Declaration

variable (e : Enumeration) (unit : Text)

def layers : Layers where
  outside := (.blank ++ body e ++ .blank : Code).indentedAt unit 0
  shared := (prototypes e).indentedAt unit 0
  traits := e.traitsTable?.toList.map fun _ => traitsPrototype e ++ ";"

theorem lines_layers (condition? : Option Text) :
    (layers e unit).lines condition? e.traitsCondition? =
      (chunk condition? e).indentedAt unit 0 := by
  rw [indentedAt_chunk, Layers.lines, layers]
  congr 1
  cases ht : e.traitsType? with
  | none => simp [Enumeration.traitsTable?, ht]
  | some typeName => simp [Enumeration.traitsTable?, ht]

theorem traits_layers_eq_nil_iff : (layers e unit).traits = [] ↔ e.traitsTable? = none := by
  simp [layers]

end Declaration

namespace Definition

variable (e : Enumeration) (unit : Text)

def layers : Layers where
  outside := [[]]
  shared := (helpers e).indentedAt unit 0
  traits := e.traitsTable?.toList.flatMap fun table => (traitsBody e table).indentedAt unit 0

theorem indentedAt_traitsBody_ne_nil (table : TraitsTable) :
    (traitsBody e table).indentedAt unit 0 ≠ [] := by
  unfold traitsBody
  split <;> simp [indentedAt, forEachIndex]

theorem lines_layers (condition? : Option Text) :
    (layers e unit).lines condition? e.traitsCondition? =
      (chunk condition? e).indentedAt unit 0 := by
  rw [indentedAt_chunk, Layers.lines, layers]
  cases ht : e.traitsType? with
  | none => simp [Enumeration.traitsTable?, ht]
  | some typeName =>
      simp [Enumeration.traitsTable?, ht, indentedAt_traits, indentedAt_traitsBody_ne_nil]

theorem traits_layers_eq_nil_iff : (layers e unit).traits = [] ↔ e.traitsTable? = none := by
  cases ht : e.traitsTable? with
  | none => simp [layers, ht]
  | some table => simp [layers, ht, indentedAt_traitsBody_ne_nil]

end Definition

end EnumCodegen
