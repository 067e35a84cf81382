import EnumCodegen.Proofs.Code.Literals
import EnumCodegen.Proofs.Emission.Tables
import EnumCodegen.Run.Generate

/-! # The literals of a table of names

A row of a table of names holds one literal. It ends where the row goes on, and it spells the
name of its entry and no other text. So rows differ where names differ. -/

namespace EnumCodegen

namespace StringLiteral

/-- A literal has a quote at either end. Between them stands what spells its text and nothing
that ends it, whatever is written behind it. -/
structure Quotes (literal text : Text) : Prop where
  opens : literal.head? = some '"'
  ends : literal.getLast? = some '"'
  closes : ∀ rest i, ClosesAt (literal ++ rest) i ↔ i + 1 = literal.length
  spells : ∀ read, Spells literal.tail.dropLast read ↔ read = text

theorem quotes_encode (text : Text) : Quotes (encode text) text where
  opens := rfl
  ends := List.getLast?_concat
  closes := closesAt_encode_append_iff text
  spells read := by
    have hbody : (encode text).tail.dropLast = text.flatMap escape := by
      simp [encode]
    rw [hbody]
    constructor
    · exact fun h => h.unique (spells_escape text)
    · rintro rfl
      exact spells_escape read

end StringLiteral

def nameRow (unit name : Text) : Text := unit ++ (StringLiteral.encode name ++ ",")

theorem nameRow_injective (unit : Text) : Function.Injective (nameRow unit) := by
  intro name other h
  exact StringLiteral.encode_injective (List.append_cancel_right (List.append_cancel_left h))

theorem Code.render_eq_flatMap (code : Code) (unit : Text) :
    code.render unit = (code.indentedAt unit 0).flatMap (· ++ ['\n']) := by
  rw [render_eq, indentedAt, List.flatMap_map]
  rfl

theorem Indent.brace_not_mem_unit (indent : Indent) : '\x7b' ∉ indent.unit := by
  cases indent with
  | tab => decide
  | spaces width =>
      intro h
      exact absurd (List.eq_of_mem_replicate h) (by decide)

/-- A literal ends at its own last quote and decodes to the name it was written for, and to no
other. So different names have different rows, and the table of names of an enumeration has
these rows for its entries. -/
theorem names_quoted :
    (∀ name, StringLiteral.Quotes (StringLiteral.encode name) name) ∧
    (∀ literal name,
      StringLiteral.decode? literal = some name ↔ literal = StringLiteral.encode name) ∧
    (∀ unit name other, nameRow unit name = nameRow unit other ↔ name = other) ∧
    ∀ (c : Config) (d : Description) (title token : Text) (k : Nat) (e : Enumeration),
      d.enumerations[k]? = some e →
        ∃ lines,
          (c.emission d title token).definitionParts[k]? = some (lines.flatMap (· ++ ['\n'])) ∧
          blocksOf e.stringTableHeader "\x7d;" lines =
            if e.entries = [] then []
            else [e.entries.map fun entry => nameRow c.indent.unit entry.name] := by
  refine ⟨StringLiteral.quotes_encode, fun literal name => StringLiteral.decode?_eq_some_iff,
    fun unit name other => (nameRow_injective unit).eq_iff, fun c d title token k e he => ?_⟩
  refine ⟨(Definition.chunk d.condition? e).indentedAt c.indent.unit 0, ?_, ?_⟩
  · rw [← Code.render_eq_flatMap]
    simp [Emission.definitionParts, Config.emission, he]
  · exact (tabulated_chunk c.indent.brace_not_mem_unit).names

/-- Names that end in a backslash, in a quote, and in both. -/
theorem names_quoted_backslashes :
    let e : Enumeration :=
      { name := "E", entries := [.ofText "A\\", .ofText "A\"", .ofText "A\\\""] }
    let d : Description := { enumerations := [e] }
    let literal : Text := "\"A\\\\\\\"\""
    StringLiteral.ClosesAt (literal ++ ", // \"B\"") 6 ∧
      StringLiteral.decode? literal = some ("A\\\"" : Text) ∧
      ∃ lines,
        (({} : Config).emission d "e" "e").definitionParts[0]? =
          some (lines.flatMap (· ++ ['\n'])) ∧
        blocksOf e.stringTableHeader "\x7d;" lines =
          [[("\t\"A\\\\\"," : Text), "\t\"A\\\"\",", "\t" ++ literal ++ ","]] := by
  intro e d literal
  obtain ⟨hquotes, hdecode, -, hrows⟩ := names_quoted
  obtain ⟨lines, hpart, hblocks⟩ := hrows {} d "e" "e" 0 e rfl
  have hliteral : StringLiteral.encode "A\\\"" = literal := by decide +kernel
  have hcloses := ((hquotes "A\\\"").closes ", // \"B\"" 6).mpr (by decide +kernel)
  rw [hliteral] at hcloses
  refine ⟨hcloses, (hdecode _ _).mpr hliteral.symm, lines, hpart, ?_⟩
  rw [hblocks]
  decide +kernel

end EnumCodegen
