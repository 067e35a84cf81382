import EnumCodegen.Proofs.Description.Values
import EnumCodegen.Proofs.Emission.Layers
import EnumCodegen.Proofs.Emission.Signatures

/-! # The tables of an enumeration

The enumeration itself, the table of names and the table of values have one row for each
entry, in the order of the entries, and the count is their number. Without entries there
are no tables, and every lookup fails. -/

namespace EnumCodegen

open Text Code

/-! ## Headers -/

namespace Enumeration

variable (e : Enumeration)

def stringTableHeader : Text := "const char *" ++ stringTableName e.name ++ "[] ="

def valueTableHeader : Text := e.name ++ " " ++ valueTableName e.name ++ "[] ="

theorem stringTableHeader_ne_endLine (c : Text) : e.stringTableHeader ≠ endLine c := by
  intro he
  have hhead := congrArg List.head? he
  simp [stringTableHeader, endLine, ofString_eq] at hhead

end Enumeration

/-- Tables of different kinds start with different lines. -/
theorem table_ne_table {kind kind' : String} (h : EndsUnlike kind.toList kind'.toList)
    (front front' owner owner' : Text) :
    front ++ ("g_" ++ owner ++ kind) ++ "[] =" ≠ front' ++ ("g_" ++ owner' ++ kind') ++ "[] =" := by
  intro he
  simp only [List.append_cancel_right_eq, ← List.append_assoc] at he
  exact append_ne_append _ _ h he

/-! ## Blocks -/

namespace Declaration

variable {condition? : Option Text} {e : Enumeration} {unit : Text}

theorem blocksAt_chunk :
    (chunk condition? e).blocksAt unit (e.storageType ++ " " ++ e.name) 0 =
      [(("\x7d;" : Text), e.entries.map fun entry => unit ++ (entry.declarator ++ ","))] := by
  simp [chunk, body, prototypes, traits, blocksAt_block, List.flatMap_map]

end Declaration

namespace Definition

variable {condition? : Option Text} {e : Enumeration} {unit : Text}

/-- The tables and the count of an enumeration with entries. -/
theorem blocksAt_fullHelpers (e : Enumeration) (unit : Text) :
    (fullHelpers e).blocksAt unit e.stringTableHeader 0 =
        [(("\x7d;" : Text),
          e.entries.map fun entry => unit ++ (StringLiteral.encode entry.name ++ ","))] ∧
      (fullHelpers e).blocksAt unit e.valueTableHeader 0 =
        [(("\x7d;" : Text), e.entries.map fun entry => unit ++ (entry.name ++ ","))] ∧
      (fullHelpers e).blocksAt unit (e.signature .valueCount) 0 =
        [(("\x7d" : Text), [unit ++ ("return " ++ .ofNat e.entries.length ++ ";")])] := by
  refine ⟨?_, ?_, ?_⟩ <;>
    simp (disch := decide +kernel) only [fullHelpers, stringTable, valueTable, toStringBody,
      toIndexBody, fromIndexBody, valueCountBody, fromStringBody, comparison, forEachIndex,
      countLine, returnNotFound, Enumeration.signature, Enumeration.stringTableHeader,
      Enumeration.valueTableHeader, stringTableName, valueTableName, blocksAt_append,
      blocksAt_line, blocksAt_blank, blocksAt_all_map_line, blocksAt_block, blocksAt_braces,
      literal_ne_append, append_ne_append, table_ne_table, indentedAt_line,
      indentedAt_all_map_line, Line.indented_one, Nat.zero_add, false_and, true_and, if_false,
      if_true, List.replicate_zero, List.flatten_nil, List.append_nil, List.nil_append]

theorem blocksAt_emptyHelpers (e : Enumeration) (unit : Text) :
    (emptyHelpers e).blocksAt unit (e.signature .toString) 0 =
        [(("\x7d" : Text), [unit ++ "(void)value;", unit ++ "return NULL;"])] ∧
      (emptyHelpers e).blocksAt unit (e.signature .toIndex) 0 =
        [(("\x7d" : Text), [unit ++ "(void)value;", unit ++ "return -1;"])] ∧
      (emptyHelpers e).blocksAt unit (e.signature .fromString) 0 =
        [(("\x7d" : Text),
          [unit ++ "(void)str;", unit ++ "(void)presult;", unit ++ "(void)ignoreCase;",
            unit ++ "(void)ignorePrefixLen;", unit ++ "return -1;"])] ∧
      (emptyHelpers e).blocksAt unit (e.signature .valueCount) 0 =
        [(("\x7d" : Text), [unit ++ "return 0;"])] ∧
      (emptyHelpers e).blocksAt unit (e.signature .fromIndex) 0 =
        [(("\x7d" : Text),
          [unit ++ "(void)index;", unit ++ ("return (" ++ e.name ++ ")0;")])] := by
  have hreturn : returnNotFound = .line "return -1;" := by
    decide +kernel
  refine ⟨?_, ?_, ?_, ?_, ?_⟩ <;>
    simp [emptyHelpers, hreturn, blocksAt_braces, Enumeration.signature_inj, indentedAt]

theorem blocksAt_traits (e : Enumeration) (unit : Text) (table : TraitsTable) :
    (traits e table).blocksAt unit e.stringTableHeader 0 = [] ∧
      (traits e table).blocksAt unit e.valueTableHeader 0 = [] ∧
      (traits e table).blocksAt unit (e.signature .valueCount) 0 = [] := by
  refine ⟨?_, ?_, ?_⟩ <;> unfold traits traitsBody <;> split <;>
    simp (disch := decide) only [forEachIndex, Enumeration.signature,
      Enumeration.stringTableHeader, Enumeration.valueTableHeader, stringTableName, valueTableName,
      traitsTableName, blocksAt_append, blocksAt_line, blocksAt_blank, blocksAt_all_map_line,
      blocksAt_conditional, blocksAt_block, blocksAt_braces, literal_ne_append, append_ne_append,
      table_ne_table, false_and, if_false, List.append_nil]

theorem ne_nil_of_tableEnding {header : Text} (h : ("[] =" : Text) <:+ header) : header ≠ [] := by
  rintro rfl
  rw [List.suffix_nil, ofString_eq] at h
  cases h

theorem each_emptyHelpers_endsUnlike (e : Enumeration) :
    (emptyHelpers e).Each fun text => text = [] ∨ EndsUnlike "[] =" text := by
  simp (disch := decide) only [emptyHelpers, returnNotFound, Enumeration.signature,
    each_append_iff, each_blank_iff, each_braces_iff, each_line_iff, endsUnlike_literal,
    endsUnlike_append_literal, or_true, true_or, and_self]

theorem blocksAt_emptyHelpers_of_ending {header : Text} (h : ("[] =" : Text) <:+ header) :
    (emptyHelpers e).blocksAt unit header 0 = [] :=
  blocksAt_of_endsUnlike h (ne_nil_of_tableEnding h) (each_emptyHelpers_endsUnlike e) 0

theorem traitsRows_eq_nil {table : TraitsTable} (he : e.entries = [])
    (ht : table ∈ e.traitsTable?) : table.rows = [] := by
  obtain ⟨typeName, _, rfl⟩ := Option.map_eq_some_iff.mp ht
  simp [he]

theorem blocksAt_traits_of_rows_eq_nil {table : TraitsTable} (h : table.rows = []) {helper : Helper}
    (hne : helper ≠ .getTraits) : (traits e table).blocksAt unit (e.signature helper) 0 = [] := by
  simp [traits, traitsBody, h, blocksAt_braces, Enumeration.signature_inj, hne.symm]

/-- Without entries a line reads like the start of a table only where it closes a condition. -/
theorem count_header_chunk {header : Text} (hheader : ("[] =" : Text) <:+ header)
    (he : e.entries = []) :
    ((chunk condition? e).indentedAt unit 0).count header =
      (e.closings condition?).count header := by
  have hne := ne_nil_of_tableEnding hheader
  have hif : ∀ c, header ≠ ifLine c := by
    rintro c rfl
    exact absurd hheader (endsUnlike_append_literal _ (by decide)).1
  have hhelpers : (helpers e).Each fun text => text = [] ∨ EndsUnlike "[] =" text := by
    rw [helpers, if_pos he]
    exact each_emptyHelpers_endsUnlike e
  have htraits : ∀ table ∈ e.traitsTable?,
      (traitsBody e table).Each fun text => text = [] ∨ EndsUnlike "[] =" text := by
    intro table ht
    rw [traitsBody, if_pos (traitsRows_eq_nil he ht)]
    simp (disch := decide) only [Enumeration.signature, each_append_iff, each_braces_iff,
      each_line_iff, endsUnlike_literal, endsUnlike_append_literal, or_true, and_self]
  have hshared : header ∉ (layers e unit).shared :=
    not_mem_indentedAt hheader hne hhelpers (eachRow_helpers e) 0
  have hlookup : header ∉ (layers e unit).traits := by
    intro hmem
    obtain ⟨table, ht, hmem⟩ := List.mem_flatMap.mp hmem
    exact not_mem_indentedAt hheader hne (htraits table (Option.mem_toList.mp ht))
      (eachRow_traitsBody e table) 0 hmem
  have houtside : header ∉ (layers e unit).outside := by
    simp [layers, hne]
  rw [← lines_layers, Layers.count_lines (traits_layers_eq_nil_iff e unit) hne hif,
    List.count_eq_zero.mpr houtside, List.count_eq_zero.mpr hshared,
    List.count_eq_zero.mpr hlookup, Nat.zero_add]

end Definition

/-! ## Lines -/

section Lines

variable {e : Enumeration} {unit : Text} {condition? : Option Text}

/-- What the lines generated for an enumeration have to do with its entries. The table of
names and the table of values stand there once, and not at all without entries. -/
structure Enumeration.Tabulated (e : Enumeration) (unit : Text)
    (declaration definition : List Text) : Prop where
  enumerators : blocksOf (e.storageType ++ " " ++ e.name) "\x7d;" declaration =
    [e.entries.map fun entry => unit ++ (entry.declarator ++ ",")]
  names : blocksOf e.stringTableHeader "\x7d;" definition =
    if e.entries = [] then []
    else [e.entries.map fun entry => unit ++ (StringLiteral.encode entry.name ++ ",")]
  values : blocksOf e.valueTableHeader "\x7d;" definition =
    if e.entries = [] then [] else [e.entries.map fun entry => unit ++ (entry.name ++ ",")]
  count : blocksOf (e.signature .valueCount) "\x7d" definition =
    [[unit ++ ("return " ++ .ofNat e.entries.length ++ ";")]]

/-- What the lines generated for an enumeration without entries do instead. None of them reads
like the start of the table of names, and only those that close a condition can read like the
start of the table of values. -/
structure Enumeration.Stubbed (e : Enumeration) (condition? : Option Text) (unit : Text)
    (definition : List Text) : Prop where
  noNames : e.stringTableHeader ∉ definition
  noValues : definition.count e.valueTableHeader =
    (e.closings condition?).count e.valueTableHeader
  toText : blocksOf (e.signature .toString) "\x7d" definition =
    [[unit ++ "(void)value;", unit ++ "return NULL;"]]
  toIndex : blocksOf (e.signature .toIndex) "\x7d" definition =
    [[unit ++ "(void)value;", unit ++ "return -1;"]]
  fromIndex : blocksOf (e.signature .fromIndex) "\x7d" definition =
    [[unit ++ "(void)index;", unit ++ ("return (" ++ e.name ++ ")0;")]]
  valueCount : blocksOf (e.signature .valueCount) "\x7d" definition = [[unit ++ "return 0;"]]
  fromText : blocksOf (e.signature .fromString) "\x7d" definition =
    [[unit ++ "(void)str;", unit ++ "(void)presult;", unit ++ "(void)ignoreCase;",
      unit ++ "(void)ignorePrefixLen;", unit ++ "return -1;"]]

theorem blocksOf_declaration {header close : Text} {found : List (List Text)}
    (hu : '\x7b' ∉ unit)
    (h : (Declaration.chunk condition? e).blocksAt unit header 0 = found.map (close, ·))
    (hclose : ∀ rows ∈ found, close ∉ rows) :
    blocksOf header close ((Declaration.chunk condition? e).indentedAt unit 0) = found :=
  (shows_indentedAt hu (Declaration.steady_chunk condition? e)
    (Declaration.opens_chunk condition? e) h hclose).blocksOf_eq

/-- The blocks of a part of the definition file are those of the helpers, unless the traits
have one of the same header. -/
theorem blocksOf_definition {header close : Text} {found : List (List Text)} (hu : '\x7b' ∉ unit)
    (h : (Definition.helpers e).blocksAt unit header 0 = found.map (close, ·))
    (htraits : ∀ table ∈ e.traitsTable?, (Definition.traits e table).blocksAt unit header 0 = [])
    (hclose : ∀ rows ∈ found, close ∉ rows) :
    blocksOf header close ((Definition.chunk condition? e).indentedAt unit 0) = found := by
  refine (shows_indentedAt hu (Definition.steady_chunk condition? e)
    (Definition.opens_chunk condition? e) ?_ hclose).blocksOf_eq
  have hnone : e.traitsTable?.toList.flatMap
      (fun table => (Definition.traits e table).blocksAt unit header 0) = [] := by
    rw [List.flatMap_eq_nil_iff]
    exact fun table ht => htraits table (Option.mem_toList.mp ht)
  simp [Definition.chunk, List.flatMap_map, h, hnone]

theorem close_not_mem_rows {α : Type} (items : List α) (text : α → Text) :
    ∀ rows ∈ [items.map fun item => unit ++ (text item ++ ",")], ("\x7d;" : Text) ∉ rows := by
  intro rows hrows hmem
  rw [List.mem_singleton.mp hrows] at hmem
  obtain ⟨item, _, he⟩ := List.mem_map.mp hmem
  rw [← List.append_assoc] at he
  exact append_ne_literal _ (by decide) he

theorem close_not_mem_return (n : Nat) :
    ∀ rows ∈ [[unit ++ ("return " ++ .ofNat n ++ ";")]], ("\x7d" : Text) ∉ rows := by
  intro rows hrows hmem
  rw [List.mem_singleton.mp hrows, List.mem_singleton, ← List.append_assoc] at hmem
  exact literal_ne_append _ (by decide) hmem

theorem tabulated_chunk (hu : '\x7b' ∉ unit) :
    e.Tabulated unit ((Declaration.chunk condition? e).indentedAt unit 0)
      ((Definition.chunk condition? e).indentedAt unit 0) := by
  have htraits := fun table (_ : table ∈ e.traitsTable?) =>
    Definition.blocksAt_traits e unit table
  have hnames := fun table ht => (htraits table ht).1
  have hvalues := fun table ht => (htraits table ht).2.1
  have hcount := fun table ht => (htraits table ht).2.2
  by_cases he : e.entries = []
  · have hhelpers : Definition.helpers e = Definition.emptyHelpers e := if_pos he
    have hnone : ∀ {header : Text}, ("[] =" : Text) <:+ header →
        (Definition.helpers e).blocksAt unit header 0 = [] := by
      rw [hhelpers]
      exact Definition.blocksAt_emptyHelpers_of_ending
    obtain ⟨-, -, -, hzero, -⟩ := Definition.blocksAt_emptyHelpers e unit
    have hreturn : (unit ++ "return 0;" : Text) =
        unit ++ ("return " ++ .ofNat e.entries.length ++ ";") := by
      rw [he, show ("return 0;" : Text) = "return " ++ .ofNat 0 ++ ";" by decide +kernel]
      rfl
    rw [← hhelpers, hreturn] at hzero
    exact {
      enumerators := blocksOf_declaration hu Declaration.blocksAt_chunk (close_not_mem_rows _ _)
      names := by
        rw [if_pos he]
        exact blocksOf_definition hu (hnone (List.suffix_append _ _)) hnames
          (List.forall_mem_nil _)
      values := by
        rw [if_pos he]
        exact blocksOf_definition hu (hnone (List.suffix_append _ _)) hvalues
          (List.forall_mem_nil _)
      count := blocksOf_definition hu hzero hcount (close_not_mem_return _) }
  · have hhelpers : Definition.helpers e = Definition.fullHelpers e := if_neg he
    obtain ⟨hstrings, hrows, hnumber⟩ := Definition.blocksAt_fullHelpers e unit
    rw [← hhelpers] at hstrings hrows hnumber
    exact {
      enumerators := blocksOf_declaration hu Declaration.blocksAt_chunk (close_not_mem_rows _ _)
      names := by
        rw [if_neg he]
        exact blocksOf_definition hu hstrings hnames (close_not_mem_rows _ _)
      values := by
        rw [if_neg he]
        exact blocksOf_definition hu hrows hvalues (close_not_mem_rows _ _)
      count := blocksOf_definition hu hnumber hcount (close_not_mem_return _) }

/-- A stub has lines that end in a semicolon, and so none of them closes it. -/
theorem close_not_mem_stub (rows : List Text) (h : ∀ row ∈ rows, EndsUnlike "\x7d" row) :
    ∀ lines ∈ [rows.map (unit ++ ·)], ("\x7d" : Text) ∉ lines := by
  intro lines hlines hmem
  rw [List.mem_singleton.mp hlines] at hmem
  obtain ⟨row, hrow, he⟩ := List.mem_map.mp hmem
  exact ((h row hrow).append unit).1 (he ▸ List.suffix_rfl)

theorem stubbed_chunk (hu : ∀ c ∈ unit, c = ' ' ∨ c = '\t') (he : e.entries = []) :
    e.Stubbed condition? unit ((Definition.chunk condition? e).indentedAt unit 0) := by
  have hbrace : '\x7b' ∉ unit := fun h => absurd (hu _ h) (by decide)
  have htraits : ∀ helper, helper ≠ .getTraits → ∀ table ∈ e.traitsTable?,
      (Definition.traits e table).blocksAt unit (e.signature helper) 0 = [] := by
    intro helper hne table ht
    exact Definition.blocksAt_traits_of_rows_eq_nil (Definition.traitsRows_eq_nil he ht) hne
  have hhelpers : Definition.helpers e = Definition.emptyHelpers e := if_pos he
  obtain ⟨htext, hindex, hvalue, hcount, hat⟩ := Definition.blocksAt_emptyHelpers e unit
  rw [← hhelpers] at htext hindex hvalue hcount hat
  have hstub : ∀ (helper : Helper) (rows : List Text), helper ≠ .getTraits →
      (∀ row ∈ rows, EndsUnlike "\x7d" row) →
      (Definition.helpers e).blocksAt unit (e.signature helper) 0 =
        [(("\x7d" : Text), rows.map (unit ++ ·))] →
      blocksOf (e.signature helper) "\x7d" ((Definition.chunk condition? e).indentedAt unit 0) =
        [rows.map (unit ++ ·)] := fun helper rows hne hrows h =>
    blocksOf_definition hbrace h (htraits helper hne) (close_not_mem_stub rows hrows)
  have hnames : ((Definition.chunk condition? e).indentedAt unit 0).count e.stringTableHeader =
      (e.closings condition?).count e.stringTableHeader :=
    Definition.count_header_chunk (List.suffix_append _ _) he
  exact {
    noNames := by
      rw [← List.count_eq_zero, hnames, List.count_eq_zero]
      intro hmem
      obtain ⟨c, hc⟩ := exists_of_mem_closings hmem
      exact e.stringTableHeader_ne_endLine c hc
    noValues := Definition.count_header_chunk (List.suffix_append _ _) he
    toText := hstub .toString ["(void)value;", "return NULL;"] (by decide)
      (by simp (disch := decide) [endsUnlike_literal]) htext
    toIndex := hstub .toIndex ["(void)value;", "return -1;"] (by decide)
      (by simp (disch := decide) [endsUnlike_literal]) hindex
    fromIndex := hstub .fromIndex ["(void)index;", "return (" ++ e.name ++ ")0;"] (by decide)
      (by simp (disch := decide) only [List.forall_mem_cons, endsUnlike_literal,
        endsUnlike_append_literal, List.not_mem_nil, false_implies, implies_true, and_self]) hat
    valueCount := hstub .valueCount ["return 0;"] (by decide)
      (by simp (disch := decide) [endsUnlike_literal]) hcount
    fromText := hstub .fromString ["(void)str;", "(void)presult;", "(void)ignoreCase;",
        "(void)ignorePrefixLen;", "return -1;"] (by decide)
      (by simp (disch := decide) [endsUnlike_literal]) hvalue }

end Lines

/-! ## Files -/

namespace Emission

/-- The parts of the two files for an enumeration, which have its tables or its stubs. -/
theorem exists_parts {g : Emission} (hd : g.description.SingleLine)
    (hu : ∀ c ∈ g.unit, c = ' ' ∨ c = '\t') {k : Nat} {e : Enumeration}
    (he : g.description.enumerations[k]? = some e) :
    ∃ declaration definition,
      g.declarationParts[k]? = some declaration ∧ g.definitionParts[k]? = some definition ∧
      e.Tabulated g.unit (Text.lines declaration) (Text.lines definition) ∧
      (e.entries = [] →
        e.Stubbed g.description.condition? g.unit (Text.lines definition)) := by
  have hnewline : '\n' ∉ g.unit := fun h => absurd (hu _ h) (by decide)
  have hbrace : '\x7b' ∉ g.unit := fun h => absurd (hu _ h) (by decide)
  obtain ⟨declaration, hdeclaration, hlines⟩ := lines_declarationPart hd hnewline he
  obtain ⟨definition, hdefinition, hlines'⟩ := lines_definitionPart hd hnewline he
  refine ⟨declaration, definition, hdeclaration, hdefinition, ?_, fun hnone => ?_⟩
  · rw [hlines, hlines']
    exact tabulated_chunk hbrace
  · rw [hlines']
    exact stubbed_chunk hu hnone

/-- The two files hold one part for each enumeration, in order, and the tables of each part
follow the entries of its enumeration. -/
theorem tables_follow_entries {g : Emission} (hd : g.description.SingleLine)
    (hu : ∀ c ∈ g.unit, c = ' ' ∨ c = '\t') :
    g.declaration =
        (Declaration.head g.description g.token g.command?).render g.unit ++
          g.declarationParts.flatten ++ (Declaration.tail g.description g.token).render g.unit ∧
      g.definition =
        (Definition.head g.description.condition? g.declarationFile g.command?).render g.unit ++
          g.definitionParts.flatten ∧
      g.declarationParts.length = g.description.enumerations.length ∧
      g.definitionParts.length = g.description.enumerations.length ∧
      ∀ (k : Nat) (e : Enumeration), g.description.enumerations[k]? = some e →
        ∃ declaration definition,
          g.declarationParts[k]? = some declaration ∧ g.definitionParts[k]? = some definition ∧
          e.Tabulated g.unit (Text.lines declaration) (Text.lines definition) ∧
          (e.entries = [] →
            e.Stubbed g.description.condition? g.unit (Text.lines definition)) :=
  ⟨g.declaration_eq_parts, g.definition_eq_parts, by simp [declarationParts],
    by simp [definitionParts], fun _ _ he => exists_parts hd hu he⟩

/-- Two enumerations of one name, the second of them without entries. -/
theorem tables_follow_entries_shared_name :
    let e : Enumeration :=
      { name := "E", traitsType? := some "T", entries := [.ofText "A = 1 (x)", .ofText "\"B\""] }
    let e' : Enumeration := { name := "E", storageType? := some "enum class" }
    let g : Emission :=
      { description := { condition? := some "M", enumerations := [e, e'] }
        token := "e", title := "e", unit := [' ', ' '] }
    g.description.SingleLine ∧ (∀ c ∈ g.unit, c = ' ' ∨ c = '\t') ∧
      (∃ declaration definition,
        g.declarationParts[0]? = some declaration ∧ g.definitionParts[0]? = some definition ∧
          e.Tabulated g.unit (Text.lines declaration) (Text.lines definition)) ∧
      ∃ definition, g.definitionParts[1]? = some definition ∧
        e'.Stubbed (some "M") g.unit (Text.lines definition) := by
  intro e e' g
  have hd : g.description.SingleLine := by decide +kernel
  have hu : ∀ c ∈ g.unit, c = ' ' ∨ c = '\t' := by simp [g]
  obtain ⟨-, -, -, -, hparts⟩ := tables_follow_entries hd hu
  obtain ⟨declaration, definition, hdeclaration, hdefinition, htables, -⟩ := hparts 0 e rfl
  obtain ⟨-, definition', -, hdefinition', -, hstubs⟩ := hparts 1 e' rfl
  exact ⟨hd, hu, ⟨declaration, definition, hdeclaration, hdefinition, htables⟩, definition',
    hdefinition', hstubs rfl⟩

/-- The name and the condition of a description can be such that a part without entries has
the line that starts a table of values, where it closes the condition. -/
theorem closing_reads_like_table :
    let e : Enumeration := { name := "#endif //" }
    let g : Emission :=
      { description := { condition? := some "g_#endif //ValueArray[] =", enumerations := [e] }
        token := "e", title := "e" }
    Description.ofText "stringify-define=g_#endif //ValueArray[] =\n[#endif //]\nx=1\n" =
        .ok g.description ∧
      g.description.SingleLine ∧ (∀ c ∈ g.unit, c = ' ' ∨ c = '\t') ∧ e.entries = [] ∧
      ∃ definition, g.definitionParts[0]? = some definition ∧
        e.valueTableHeader ∈ Text.lines definition := by
  intro e g
  have hd : g.description.SingleLine := by decide +kernel
  have hu : ∀ c ∈ g.unit, c = ' ' ∨ c = '\t' := by simp [g]
  obtain ⟨-, definition, -, hdefinition, -, hstubs⟩ := exists_parts hd hu (k := 0) rfl
  refine ⟨by decide +kernel, hd, hu, rfl, definition, hdefinition, ?_⟩
  rw [← List.count_pos_iff, (hstubs rfl).noValues]
  decide +kernel

end Emission

end EnumCodegen
