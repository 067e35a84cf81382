import EnumCodegen.Proofs.Emission.Helpers
import EnumCodegen.Proofs.Emission.Tables
import EnumCodegen.Proofs.Lookup.Traits

/-! # The table of traits in the definition file

The lines that are generated for an enumeration with a type of traits hold one table, with the
rows that the entries give. Without rows there is neither the table nor its record type, and
the lookup answers with its default. -/

namespace EnumCodegen

open Text Code

/-! ## Headers -/

namespace Enumeration

variable (e : Enumeration)

def traitsTableHeader : Text :=
  "static const " ++ traitsEntryTypeName e.name ++ " " ++ traitsTableName e.name ++ "[] ="

def traitsEntryClose : Text := "\x7d " ++ traitsEntryTypeName e.name ++ ";"

theorem traitsTableHeader_suffix :
    ("TraitsTable[] =" : Text) <:+ e.traitsTableHeader := by
  refine ⟨"static const " ++ traitsEntryTypeName e.name ++ " " ++ ("g_" ++ e.name), ?_⟩
  rw [Enumeration.traitsTableHeader, traitsTableName,
    show ("TraitsTable[] =" : Text) = "TraitsTable" ++ "[] =" by decide +kernel]
  simp

end Enumeration

namespace Definition

variable {e : Enumeration} {table : TraitsTable} {unit : Text}

/-! ## Lines without traits -/

/-- How the headers of the table and of the record type end. -/
def traitsEndings : List String := ["TraitsTable[] =", "typedef struct"]

theorem ne_nil_of_traitsEnding {s : String} (hs : s ∈ traitsEndings) {header : Text}
    (hheader : ofString s <:+ header) : header ≠ [] := by
  rintro rfl
  rw [List.suffix_nil] at hheader
  have hall : ∀ s ∈ traitsEndings, ofString s ≠ [] := by decide +kernel
  exact hall s hs hheader

theorem endsUnlike_tables {s : String} (hs : s ∈ traitsEndings) (front owner : Text) :
    EndsUnlike s (front ++ ("g_" ++ owner ++ "StringArray") ++ "[] =") ∧
      EndsUnlike s (front ++ ("g_" ++ owner ++ "ValueArray") ++ "[] =") := by
  have hends : ∀ s ∈ traitsEndings, EndsUnlike (ofString s) ("StringArray" ++ "[] =") ∧
      EndsUnlike (ofString s) ("ValueArray" ++ "[] =") := by
    decide +kernel
  have happend : ∀ kind : Text, front ++ ("g_" ++ owner ++ kind) ++ "[] =" =
      (front ++ "g_" ++ owner) ++ (kind ++ "[] =") := by
    simp
  rw [happend, happend]
  exact ⟨(hends s hs).1.append _, (hends s hs).2.append _⟩

theorem each_helpers_endsUnlike {s : String} (hs : s ∈ traitsEndings) (e : Enumeration) :
    (helpers e).Each fun text => text = [] ∨ EndsUnlike s text := by
  have htables := endsUnlike_tables hs
  have hvalues := fun front owner => (htables front owner).2
  have hstrings := fun front owner => (htables front owner).1
  simp only [traitsEndings, List.mem_cons, List.not_mem_nil, or_false] at hs
  unfold helpers
  split
  · rcases hs with rfl | rfl <;>
      simp (disch := decide) only [emptyHelpers, returnNotFound, Enumeration.signature,
        each_append_iff, each_blank_iff, each_braces_iff, each_line_iff, endsUnlike_literal,
        endsUnlike_append_literal, or_true, true_or, and_self]
  · rcases hs with rfl | rfl <;>
      simp (disch := decide) only [fullHelpers, stringTable, valueTable, toStringBody,
        toIndexBody, fromIndexBody, valueCountBody, fromStringBody, comparison, forEachIndex,
        countLine, returnNotFound, Enumeration.signature, stringTableName, valueTableName,
        each_append_iff, each_blank_iff, each_braces_iff, each_block_iff, each_line_iff,
        each_all_iff, List.forall_mem_map, hstrings, hvalues, endsUnlike_literal,
        endsUnlike_append_literal, or_true, true_or, and_self, implies_true]

theorem each_stub_endsUnlike {s : String} (hs : s ∈ traitsEndings) (h : table.rows = []) :
    (traitsBody e table).Each fun text => text = [] ∨ EndsUnlike s text := by
  simp only [traitsEndings, List.mem_cons, List.not_mem_nil, or_false] at hs
  rw [traitsBody, if_pos h]
  rcases hs with rfl | rfl <;>
    simp (disch := decide) only [Enumeration.signature, each_append_iff, each_braces_iff,
      each_line_iff, endsUnlike_literal, endsUnlike_append_literal, or_true, and_self]

/-- Without rows no line starts the table or its record type. -/
theorem header_not_mem_chunk {s : String} (hs : s ∈ traitsEndings) {header : Text}
    (hheader : ofString s <:+ header) (hhead : header.head? ≠ some '#')
    (h : ∀ table ∈ e.traitsTable?, table.rows = []) (condition? : Option Text) :
    header ∉ (chunk condition? e).indentedAt unit 0 := by
  have hne := ne_nil_of_traitsEnding hs hheader
  intro hmem
  rcases mem_chunk_cases hmem with hnil | hmem | ⟨table, ht, hmem⟩ | ⟨c, hc⟩
  · exact hne hnil
  · exact not_mem_indentedAt hheader hne (each_helpers_endsUnlike hs e) (eachRow_helpers e) 0 hmem
  · exact not_mem_indentedAt hheader hne (each_stub_endsUnlike hs (h table ht))
      (eachRow_traitsBody e table) 0 hmem
  · rcases hc with rfl | rfl <;> exact hhead (by simp [ifLine, endLine, ofString_eq])

/-! ## Blocks -/

/-- The helpers that all enumerations have come without a block of traits. -/
theorem blocksAt_helpers_of_ending {s : String} (hs : s ∈ traitsEndings) {header : Text}
    (hheader : ofString s <:+ header) : (helpers e).blocksAt unit header 0 = [] :=
  blocksAt_of_endsUnlike hheader (ne_nil_of_traitsEnding hs hheader)
    (each_helpers_endsUnlike hs e) 0

theorem blocksAt_traits_of_ending {s : String} (hs : s ∈ traitsEndings) {header : Text}
    (hheader : ofString s <:+ header) (h : table.rows = []) :
    (traits e table).blocksAt unit header 0 = [] := by
  rw [traits, blocksAt_append, blocksAt_blank, blocksAt_conditional, List.nil_append]
  exact blocksAt_of_endsUnlike hheader (ne_nil_of_traitsEnding hs hheader)
    (each_stub_endsUnlike hs h) 0

theorem blocksAt_traits_stub (h : table.rows = []) :
    (traits e table).blocksAt unit (e.signature .getTraits) 0 =
      [(("\x7d" : Text), [unit ++ "(void)value;", unit ++ "return defaultTraits;"])] := by
  simp [traits, traitsBody, h, blocksAt_braces, indentedAt]

/-- The blocks of traits with rows: the record type, the table and the lookup, which starts
with the count. -/
theorem blocksAt_traits_rows (e : Enumeration) (unit : Text) (h : table.rows ≠ []) :
    (traits e table).blocksAt unit e.traitsTableHeader 0 =
        [(("\x7d;" : Text), table.rows.map fun row => unit ++ traitsRow table row)] ∧
      (traits e table).blocksAt unit "typedef struct" 0 =
        [(e.traitsEntryClose,
          [unit ++ (e.name ++ " value;"), unit ++ (table.typeName ++ " traits;")])] ∧
      ∃ rest, (traits e table).blocksAt unit (e.signature .getTraits) 0 =
        [(("\x7d" : Text),
          (unit ++ ("unsigned count = " ++ .ofNat table.rows.length ++ ";")) :: rest)] := by
  have hmembers : ∀ first second : Text,
      indentedAt unit 1 (.line first ++ .line second) = [unit ++ first, unit ++ second] := by
    intro first second
    rw [(steady_line first).indentedAt_append]
    simp
  have hfirst : ∀ (text : Text) (middle last : Code), ∃ rest,
      indentedAt unit 1 (.line text ++ middle ++ last) = (unit ++ text) :: rest := by
    intro text middle last
    rw [← Line.indented_one]
    exact ⟨_, rfl⟩
  refine ⟨?_, ?_, ?_⟩
  · simp (disch := decide) only [traits, traitsBody, h, if_false, forEachIndex,
      Enumeration.signature, Enumeration.traitsTableHeader, blocksAt_append, blocksAt_blank,
      blocksAt_conditional, blocksAt_line, blocksAt_block, blocksAt_braces, blocksAt_all_map_line,
      literal_ne_append, append_ne_append, false_and, true_and, indentedAt_all_map_line,
      Line.indented_one, Nat.zero_add, if_true, List.replicate_zero, List.flatten_nil,
      List.append_nil, List.nil_append]
  · simp (disch := decide) only [traits, traitsBody, h, if_false, forEachIndex,
      Enumeration.signature, Enumeration.traitsEntryClose, blocksAt_append, blocksAt_blank,
      blocksAt_conditional, blocksAt_line, blocksAt_block, blocksAt_braces, blocksAt_all_map_line,
      literal_ne_literal, append_ne_literal, false_and, true_and, hmembers, Nat.zero_add, if_true,
      List.replicate_zero, List.flatten_nil, List.append_nil, List.nil_append]
  · obtain ⟨rest, hrest⟩ := hfirst ("unsigned count = " ++ .ofNat table.rows.length ++ ";")
      (forEachIndex (.braces ("if (" ++ traitsTableName e.name ++ "[i].value == value)")
        (.line ("return &" ++ traitsTableName e.name ++ "[i].traits;"))))
      (.line "return defaultTraits;")
    refine ⟨rest, ?_⟩
    rw [← hrest]
    simp (disch := decide) only [traits, traitsBody, h, if_false, forEachIndex,
      blocksAt_append, blocksAt_line, blocksAt_blank, blocksAt_all_map_line, blocksAt_conditional,
      blocksAt_block, blocksAt_braces, Enumeration.literal_ne_signature,
      Enumeration.append_ne_signature, Enumeration.if_ne_signature, false_and, true_and,
      if_true, List.replicate_zero, List.flatten_nil, List.append_nil, List.nil_append]

end Definition

/-! ## Lines -/

/-- What the lines generated for an enumeration with a type of traits have to do with its table.
The table stands there once, with a record type, and not at all without rows. -/
structure Enumeration.TraitsWritten (e : Enumeration) (table : TraitsTable) (unit : Text)
    (definition : List Text) : Prop where
  rows : blocksOf e.traitsTableHeader "\x7d;" definition =
    if table.rows = [] then []
    else [table.rows.map fun row =>
      unit ++ ("\x7b " ++ row.value ++ ", " ++ table.typeName ++ row.payload ++ " \x7d,")]
  record : blocksOf "typedef struct" e.traitsEntryClose definition =
    if table.rows = [] then []
    else [[unit ++ (e.name ++ " value;"), unit ++ (table.typeName ++ " traits;")]]
  /-- The lookup starts with the number of rows. -/
  count : table.rows ≠ [] →
    (blocksOf (e.signature .getTraits) "\x7d" definition).map List.head? =
      [some (unit ++ ("unsigned count = " ++ .ofNat table.rows.length ++ ";"))]
  stub : table.rows = [] →
    blocksOf (e.signature .getTraits) "\x7d" definition =
      [[unit ++ "(void)value;", unit ++ "return defaultTraits;"]]
  noTable : table.rows = [] → e.traitsTableHeader ∉ definition
  noRecord : table.rows = [] → ("typedef struct" : Text) ∉ definition

section Lines

variable {e : Enumeration} {table : TraitsTable} {unit : Text} {condition? : Option Text}

/-- The blocks of a part of the definition file are those of the traits, unless the helpers
have one of the same header. -/
theorem blocksOf_traits {header close : Text} (found : List (List Text))
    (ht : e.traitsTable? = some table) (h : (Definition.helpers e).blocksAt unit header 0 = [])
    (htraits : (Definition.traits e table).blocksAt unit header 0 = found.map (close, ·)) :
    blocksOf header close ((Definition.chunk condition? e).indentedAt unit 0) =
      found.map (·.takeWhile (· ≠ close)) := by
  refine (shows_blocksAt (.inr (Definition.eachRow_chunk condition? e))
    (Definition.steady_chunk condition? e) (Definition.opens_chunk condition? e) ?_).blocksOf_eq
  simp [Definition.chunk, h, ht, htraits]

theorem close_not_mem_traitsRows (table : TraitsTable) (unit : Text) :
    ("\x7d;" : Text) ∉ table.rows.map fun row => unit ++ Definition.traitsRow table row := by
  intro hmem
  obtain ⟨row, -, he⟩ := List.mem_map.mp hmem
  rw [Definition.traitsRow, ← List.append_assoc] at he
  exact append_ne_literal _ (by decide) he

theorem close_not_mem_record (e : Enumeration) (typeName unit : Text) :
    e.traitsEntryClose ∉ [unit ++ (e.name ++ " value;"), unit ++ (typeName ++ " traits;")] := by
  have hclose : e.traitsEntryClose = ("\x7d " ++ e.name) ++ "TraitsEntry;" := by
    rw [Enumeration.traitsEntryClose, traitsEntryTypeName,
      show ("TraitsEntry;" : Text) = "TraitsEntry" ++ ";" by decide +kernel]
    simp
  rw [hclose]
  intro hmem
  simp only [List.mem_cons, List.not_mem_nil, or_false, ← List.append_assoc unit] at hmem
  rcases hmem with he | he
  · exact append_ne_append _ _ (by decide) he
  · exact append_ne_append _ _ (by decide) he

theorem traitsWritten_chunk (ht : e.traitsTable? = some table) :
    e.TraitsWritten table unit ((Definition.chunk condition? e).indentedAt unit 0) := by
  have htable : (Definition.helpers e).blocksAt unit e.traitsTableHeader 0 = [] :=
    Definition.blocksAt_helpers_of_ending (s := "TraitsTable[] =") (by decide)
      e.traitsTableHeader_suffix
  have hrecord : (Definition.helpers e).blocksAt unit "typedef struct" 0 = [] :=
    Definition.blocksAt_helpers_of_ending (s := "typedef struct") (by decide) List.suffix_rfl
  have hlookup : (Definition.helpers e).blocksAt unit (e.signature .getTraits) 0 = [] :=
    List.length_eq_zero_iff.mp (Definition.length_blocksAt_helpers e unit .getTraits)
  by_cases h : table.rows = []
  · have hnoTable : (Definition.traits e table).blocksAt unit e.traitsTableHeader 0 = [] :=
      Definition.blocksAt_traits_of_ending (s := "TraitsTable[] =") (by decide)
        e.traitsTableHeader_suffix h
    have hnoRecord : (Definition.traits e table).blocksAt unit "typedef struct" 0 = [] :=
      Definition.blocksAt_traits_of_ending (s := "typedef struct") (by decide) List.suffix_rfl h
    have hall : ∀ table ∈ e.traitsTable?, table.rows = [] := by
      intro table' ht'
      rw [ht] at ht'
      obtain rfl := Option.some.inj ht'
      exact h
    have hclose : ("\x7d" : Text) ∉ [unit ++ "(void)value;", unit ++ "return defaultTraits;"] := by
      intro hmem
      simp only [List.mem_cons, List.not_mem_nil, or_false] at hmem
      rcases hmem with he | he
      · exact literal_ne_append _ (by decide) he
      · exact literal_ne_append _ (by decide) he
    exact {
      rows := by
        rw [if_pos h]
        exact blocksOf_traits [] ht htable hnoTable
      record := by
        rw [if_pos h]
        exact blocksOf_traits [] ht hrecord hnoRecord
      count hne := absurd h hne
      stub _ := by
        rw [blocksOf_traits [_] ht hlookup (Definition.blocksAt_traits_stub h), List.map_singleton,
          takeWhile_ne_of_not_mem hclose]
      noTable _ := Definition.header_not_mem_chunk (s := "TraitsTable[] =") (by decide)
        e.traitsTableHeader_suffix (by simp [Enumeration.traitsTableHeader, ofString_eq]) hall
        condition?
      noRecord _ := Definition.header_not_mem_chunk (s := "typedef struct") (by decide)
        List.suffix_rfl (by simp [ofString_eq]) hall condition? }
  · obtain ⟨hrows, hmembers, rest, hcount⟩ := Definition.blocksAt_traits_rows e unit h
    have hclose : unit ++ ("unsigned count = " ++ .ofNat table.rows.length ++ ";") ≠
        ("\x7d" : Text) := by
      rw [← List.append_assoc]
      exact append_ne_literal _ (by decide)
    exact {
      rows := by
        rw [if_neg h, blocksOf_traits [_] ht htable hrows, List.map_singleton,
          takeWhile_ne_of_not_mem (close_not_mem_traitsRows table unit)]
        rfl
      record := by
        rw [if_neg h, blocksOf_traits [_] ht hrecord hmembers, List.map_singleton,
          takeWhile_ne_of_not_mem (close_not_mem_record e table.typeName unit)]
      count _ := by
        rw [blocksOf_traits [_] ht hlookup hcount, List.map_singleton,
          List.takeWhile_cons_of_pos (by simpa using hclose)]
        rfl
      stub hnil := absurd hnil h
      noTable hnil := absurd hnil h
      noRecord hnil := absurd hnil h }

end Lines

/-- An enumeration with a type of traits has one table of them. It covers the entries with a
payload, and wherever the enumeration stands in a description, its part of the definition file
holds just this table. -/
theorem Emission.traits_follow_entries {e : Enumeration} {typeName : Text}
    (htype : e.traitsType? = some typeName) :
    ∃ table, e.traitsTable? = some table ∧ table.typeName = typeName ∧ table.Covers e ∧
      ∀ (g : Emission) (k : Nat), g.description.SingleLine → '\n' ∉ g.unit →
        g.description.enumerations[k]? = some e →
          g.definition =
              (Definition.head g.description.condition? g.declarationFile g.command?).render
                g.unit ++ g.definitionParts.flatten ∧
            ∃ definition, g.definitionParts[k]? = some definition ∧
              e.TraitsWritten table g.unit (Text.lines definition) := by
  have ht : e.traitsTable? = some ⟨typeName, e.traitsCondition?,
      e.entries.filterMap Entry.traitsRow?⟩ := by
    rw [Enumeration.traitsTable?, htype, Option.map_some]
  refine ⟨_, ht, rfl, Enumeration.covers_traitsTable? ht, fun g k hd hu he => ?_⟩
  obtain ⟨definition, hdefinition, hlines⟩ := lines_definitionPart hd hu he
  refine ⟨g.definition_eq_parts, definition, hdefinition, ?_⟩
  rw [hlines]
  exact traitsWritten_chunk ht

/-- Entries of one name with and without payloads, and a unit that looks like a block. -/
theorem Emission.traits_follow_entries_twice :
    let e : Enumeration :=
      { name := "E", traitsType? := some "T"
        entries := [.ofText "A", .ofText "B(1)", .ofText "A(2)", .ofText "A = 7 (3)"] }
    let g : Emission :=
      { description := { condition? := some "M", enumerations := [{ name := "E" }, e] }
        token := "e", title := "e", unit := "\x7b" }
    e.traitsType? = some "T" ∧ g.description.SingleLine ∧ '\n' ∉ g.unit ∧
      ∃ table, e.traitsTable? = some table ∧ table.Covers e ∧
        ∃ definition, g.definitionParts[1]? = some definition ∧
          e.TraitsWritten table g.unit (Text.lines definition) := by
  intro e g
  have hd : g.description.SingleLine := by decide +kernel
  have hu : '\n' ∉ g.unit := not_mem_literal (by decide)
  obtain ⟨table, ht, -, hcovers, hparts⟩ := @traits_follow_entries e "T" rfl
  obtain ⟨-, definition, hdefinition, hwritten⟩ := hparts g 1 hd hu rfl
  exact ⟨rfl, hd, hu, table, ht, hcovers, definition, hdefinition, hwritten⟩

end EnumCodegen
