import EnumCodegen.Code.Writer
import EnumCodegen.Proofs.Emission.Parts

/-! # Each enumeration by itself

A writer leaves the code of an enumeration at the depth it came with and has appended one
text, which neither the other enumerations nor the settings of the other file go into. -/

namespace EnumCodegen

/-! ## Writers -/

namespace Writer

/-- Code that ends at the depth it starts at appends its text and leaves the rest of a
writer alone. -/
theorem run_of_balanced {code : Code} (h : code.Balanced) (buffer unit : Text) :
    Writer.run { buffer := buffer, unit := unit } code =
      { buffer := buffer ++ code.render unit, unit := unit } := by
  rw [run_eq, h 0]
  rfl

theorem run_all_map {α : Type} {piece : α → Code} (h : ∀ item, (piece item).Steady)
    (items : List α) (buffer unit : Text) :
    Writer.run { buffer := buffer, unit := unit } (.all (items.map piece)) =
      { buffer := buffer ++ (items.map fun item => (piece item).render unit).flatten
        unit := unit } := by
  have hall : (Code.all (items.map piece)).Steady := by
    simpa using fun item _ => h item
  rw [run_of_balanced hall.balanced, Code.render_all_map unit h]

end Writer

/-! ## Files -/

/-- A text that is made of a list of enumerations piece by piece: a head, a part for each of
them in their order, and a tail. -/
structure PieceByPiece (text : List Enumeration → Text) (head : Text)
    (part : Enumeration → Text) (tail : Text) : Prop where
  parts : ∀ es, text es = head ++ (es.map part).flatten ++ tail
  /-- One enumeration more is one part more, between what was there before. -/
  insert : ∀ above e below, ∃ front back,
    front = head ++ (above.map part).flatten ∧ back = (below.map part).flatten ++ tail ∧
      text (above ++ below) = front ++ back ∧
      text (above ++ e :: below) = front ++ part e ++ back
  /-- The same enumerations in another order are the same parts in that order. -/
  permute : ∀ es es' : List Enumeration, es.Perm es' → (es.map part).Perm (es'.map part) ∧
    text es' = head ++ (es'.map part).flatten ++ tail

theorem pieceByPiece_of_parts {text : List Enumeration → Text} {head tail : Text}
    {part : Enumeration → Text}
    (h : ∀ es, text es = head ++ (es.map part).flatten ++ tail) :
    PieceByPiece text head part tail where
  parts := h
  insert above e below := by
    refine ⟨_, _, rfl, rfl, ?_, ?_⟩
    · rw [h]
      simp
    · rw [h]
      simp
  permute es es' hperm := ⟨hperm.map part, h es'⟩

def Declaration.part (condition? : Option Text) (unit : Text) (e : Enumeration) : Text :=
  (chunk condition? e).render unit

def Definition.part (condition? : Option Text) (unit : Text) (e : Enumeration) : Text :=
  (chunk condition? e).render unit

namespace Emission

variable (g : Emission)

def withEnumerations (es : List Enumeration) : Emission :=
  { g with description := { g.description with enumerations := es } }

def declarationHead : Text := (Declaration.head g.description g.token g.command?).render g.unit

def declarationTail : Text := (Declaration.tail g.description g.token).render g.unit

def definitionHead : Text :=
  (Definition.head g.description.condition? g.declarationFile g.command?).render g.unit

/-- Both files are made piece by piece. A writer that goes through enumerations appends their
parts, whatever it has written before, and is left with nothing open; and no file depends on
a setting that is not in it. -/
theorem pieceByPiece :
    PieceByPiece (fun es => (g.withEnumerations es).declaration) g.declarationHead
      (Declaration.part g.description.condition? g.unit) g.declarationTail ∧
    PieceByPiece (fun es => (g.withEnumerations es).definition) g.definitionHead
      (Definition.part g.description.condition? g.unit) [] ∧
    (∀ (condition? : Option Text) (es : List Enumeration) (buffer unit : Text),
      Writer.run { buffer := buffer, unit := unit }
            (.all (es.map (Declaration.chunk condition?))) =
          { buffer := buffer ++ (es.map (Declaration.part condition? unit)).flatten
            unit := unit } ∧
        Writer.run { buffer := buffer, unit := unit }
            (.all (es.map (Definition.chunk condition?))) =
          { buffer := buffer ++ (es.map (Definition.part condition? unit)).flatten
            unit := unit }) ∧
    (∀ token guardToken? top bottom includes sourceDir? includeDir? definitionSuffix?,
      definition
          { g with
            token := token
            description :=
              { g.description with
                guardToken? := guardToken?, top := top, bottom := bottom, includes := includes
                sourceDir? := sourceDir?, includeDir? := includeDir?
                definitionSuffix? := definitionSuffix? } } = g.definition) ∧
    ∀ title declarationSuffix? definitionSuffix? sourceDir? includeDir?,
      declaration
          { g with
            title := title
            description :=
              { g.description with
                declarationSuffix? := declarationSuffix?
                definitionSuffix? := definitionSuffix?
                sourceDir? := sourceDir?, includeDir? := includeDir? } } = g.declaration := by
  refine ⟨pieceByPiece_of_parts fun es => declaration_eq_parts (g.withEnumerations es),
    pieceByPiece_of_parts fun es => ?_, fun condition? es buffer unit => ⟨?_, ?_⟩, ?_, ?_⟩
  · rw [List.append_nil]
    exact definition_eq_parts (g.withEnumerations es)
  · exact Writer.run_all_map (Declaration.steady_chunk condition?) es buffer unit
  · exact Writer.run_all_map (Definition.steady_chunk condition?) es buffer unit
  · intros
    rfl
  · intros
    rfl

end Emission

end EnumCodegen
