import EnumCodegen.Emission
import EnumCodegen.Proofs.Code.Blocks
import EnumCodegen.Proofs.Text.Ending

/-! # The parts of the generated files

Every enumeration has its own part of the two files. A part is made from its enumeration
and the condition alone, and the parts stand one after another. Where no text of the
description goes over a line, a part is read back line by line. -/

namespace EnumCodegen

open Text Code

/-! ## Texts on one line -/

def Entry.texts (entry : Entry) : List Text :=
  entry.name :: entry.declarator :: entry.payload?.toList

def Enumeration.texts (e : Enumeration) : List Text :=
  e.name :: (e.storageType?.toList ++ e.traitsType?.toList ++ e.traitsCondition?.toList ++
    e.entries.flatMap Entry.texts)

def Description.texts (d : Description) : List Text :=
  [d.declarationSuffix?, d.definitionSuffix?, d.guardToken?, d.condition?, d.sourceDir?,
    d.includeDir?].flatMap Option.toList ++ d.top ++ d.bottom ++ d.includes ++
  d.enumerations.flatMap Enumeration.texts

def Enumeration.SingleLine (e : Enumeration) : Prop := ∀ text ∈ e.texts, '\n' ∉ text

def Description.SingleLine (d : Description) : Prop := ∀ text ∈ d.texts, '\n' ∉ text

instance (d : Description) : Decidable d.SingleLine :=
  inferInstanceAs (Decidable (∀ text ∈ d.texts, '\n' ∉ text))

namespace Description.SingleLine

variable {d : Description}

theorem condition (h : d.SingleLine) : ∀ c ∈ d.condition?, '\n' ∉ c := by
  intro c hc
  exact h c (by simp [texts, Option.mem_def.mp hc])

theorem declarationSuffix (h : d.SingleLine) : '\n' ∉ d.declarationSuffix := by
  unfold Description.declarationSuffix
  cases hs : d.declarationSuffix? with
  | none => exact not_mem_literal (by decide)
  | some suffix => exact h suffix (by simp [texts, hs])

theorem verbatim (h : d.SingleLine) : ∀ line ∈ d.top ++ d.bottom ++ d.includes, '\n' ∉ line := by
  intro line hl
  simp only [List.mem_append] at hl
  exact h line (by simp only [texts, List.mem_append]; tauto)

theorem enumeration (h : d.SingleLine) {e : Enumeration} (he : e ∈ d.enumerations) :
    e.SingleLine := by
  intro text ht
  exact h text (List.mem_append_right _ (List.mem_flatMap.mpr ⟨e, he, ht⟩))

end Description.SingleLine

/-! ## Characters that come from the description alone -/

/-- A character stands in no text of an enumeration, its condition left aside. -/
structure Enumeration.Avoids (e : Enumeration) (c : Char) : Prop where
  name : c ∉ e.name
  storageType? : ∀ text ∈ e.storageType?, c ∉ text
  traitsType? : ∀ text ∈ e.traitsType?, c ∉ text
  entries : ∀ entry ∈ e.entries, ∀ text ∈ entry.texts, c ∉ text

theorem Enumeration.SingleLine.avoids {e : Enumeration} (h : e.SingleLine) : e.Avoids '\n' where
  name := h _ (by simp [texts])
  storageType? text ht := h text (by simp [texts, Option.mem_def.mp ht])
  traitsType? text ht := h text (by simp [texts, Option.mem_def.mp ht])
  entries entry he text ht := by
    refine h text (List.mem_cons_of_mem _ (List.mem_append_right _ ?_))
    exact List.mem_flatMap.mpr ⟨entry, he, ht⟩

/-- A line feed and the sign of a directive are no part of the fixed wording of the code for
an enumeration. -/
def Foreign (c : Char) : Prop := c = '\n' ∨ c = '#'

namespace Enumeration.Avoids

variable {e : Enumeration} {c : Char}

theorem storageType (h : e.Avoids c) (hc : Foreign c) : c ∉ e.storageType := by
  unfold Enumeration.storageType
  cases hs : e.storageType? with
  | none => rcases hc with rfl | rfl <;> exact not_mem_literal (by decide)
  | some text => exact h.storageType? text hs

theorem traitsType_getD (h : e.Avoids c) (hc : Foreign c) : c ∉ e.traitsType?.getD "void" := by
  cases ht : e.traitsType? with
  | none => rcases hc with rfl | rfl <;> exact not_mem_literal (by decide)
  | some typeName => exact h.traitsType? typeName ht

theorem entry_name (h : e.Avoids c) {entry : Entry} (he : entry ∈ e.entries) : c ∉ entry.name :=
  h.entries entry he _ (by simp [Entry.texts])

theorem entry_declarator (h : e.Avoids c) {entry : Entry} (he : entry ∈ e.entries) :
    c ∉ entry.declarator := h.entries entry he _ (by simp [Entry.texts])

/-- The rows of a traits table are made from texts of the entries. -/
theorem row (h : e.Avoids c) {table : TraitsTable} (ht : table ∈ e.traitsTable?)
    {row : TraitsRow} (hr : row ∈ table.rows) : c ∉ row.value ∧ c ∉ row.payload := by
  obtain ⟨typeName, _, rfl⟩ := Option.map_eq_some_iff.mp ht
  obtain ⟨entry, he, hrow⟩ := List.mem_filterMap.mp hr
  obtain ⟨payload, hp, rfl⟩ := Option.map_eq_some_iff.mp hrow
  exact ⟨h.entry_name he, h.entries entry he _ (by simp [Entry.texts, hp])⟩

theorem table_typeName (h : e.Avoids c) {table : TraitsTable} (ht : table ∈ e.traitsTable?) :
    c ∉ table.typeName := by
  obtain ⟨typeName, htype, rfl⟩ := Option.map_eq_some_iff.mp ht
  exact h.traitsType? typeName htype

theorem signature (h : e.Avoids c) (hc : Foreign c) (helper : Helper) :
    c ∉ e.signature helper := by
  have htype := h.traitsType_getD hc
  rcases hc with rfl | rfl <;> cases helper <;>
    simp (disch := decide) [Enumeration.signature, Helper.name, Helper.suffix, h.name, htype,
      not_mem_literal]

end Enumeration.Avoids

theorem Enumeration.SingleLine.table_condition {e : Enumeration} (h : e.SingleLine)
    {table : TraitsTable} (ht : table ∈ e.traitsTable?) : ∀ c ∈ table.condition?, '\n' ∉ c := by
  obtain ⟨typeName, _, rfl⟩ := Option.map_eq_some_iff.mp ht
  intro c hc
  have hcondition : e.traitsCondition? = some c := hc
  exact h c (by simp [texts, hcondition])

theorem Foreign.not_mem_ofNat {c : Char} (hc : Foreign c) (n : Nat) : c ∉ Text.ofNat n := by
  intro h
  have hdigit := Nat.isDigit_of_mem_toDigits (by decide) (by decide) h
  rcases hc with rfl | rfl <;> exact absurd hdigit (by decide)

theorem Foreign.not_mem_encode {c : Char} (hc : Foreign c) {text : Text} (h : c ∉ text) :
    c ∉ StringLiteral.encode text := by
  have hescape : ∀ c' ∈ text, c ∉ StringLiteral.escape c' := by
    intro c' hc'
    have hne : c ≠ c' := fun he => h (he ▸ hc')
    unfold StringLiteral.escape
    rcases hc with rfl | rfl <;> split <;> simp [hne]
  rcases hc with rfl | rfl <;> simpa [StringLiteral.encode] using hescape

namespace Code

theorem newline_not_mem_directives {condition? : Option Text} (h : ∀ c ∈ condition?, '\n' ∉ c) :
    ∀ c ∈ tested? condition?, '\n' ∉ ifLine c ∧ '\n' ∉ endLine c := by
  intro c hc
  have hline := h c (Option.filter_eq_some_iff.mp hc).1
  simp (disch := decide) [ifLine, endLine, hline, not_mem_literal]

/-- A line that no text of a tree ends like is none of its lines, whatever the unit. -/
theorem not_mem_indentedAt {header s : Text} (hs : s <:+ header) (hheader : header ≠ [])
    {code : Code} (h : code.Each fun text => text = [] ∨ EndsUnlike s text)
    (hrows : code.EachRow (· ≠ [])) (n : Nat) : header ∉ code.indentedAt unit n := by
  intro hmem
  obtain ⟨l, hl, rfl⟩ := List.mem_map.mp hmem
  have htext : l.text ∈ code.texts := by
    rw [← map_text_layOut code n]
    exact List.mem_map_of_mem hl
  obtain ⟨w, hw, hon⟩ := exists_written_of_mem hl
  rcases h l.text htext with hnil | hends
  · -- an empty text is written as it is
    cases hverbatim : w.verbatim with
    | true => exact hheader (by simp [Line.indented, hon.2 hverbatim, hnil])
    | false => exact hrows w hw hverbatim (hon.1 ▸ hnil)
  · exact (hends.append _).1 hs

theorem blocksAt_of_endsUnlike {header s : Text} (hs : s <:+ header) (hheader : header ≠ [])
    {code : Code} (h : code.Each fun text => text = [] ∨ EndsUnlike s text) (n : Nat) :
    blocksAt unit header n code = [] := by
  refine blocksAt_of_each (fun text hmem he => ?_) n
  rcases h text hmem with hnil | hends
  · exact hheader (he ▸ hnil)
  · exact hends.1 (he ▸ hs)

end Code

/-! ## Parts -/

namespace Declaration

theorem steady_chunk (condition? : Option Text) (e : Enumeration) :
    (chunk condition? e).Steady := by
  simp [chunk, body, prototypes, traits]

theorem steady_head (d : Description) (token : Text) (command? : Option Text) :
    (head d token command?).Steady := by
  simp [head, banner]

section Avoids

variable {e : Enumeration} {c : Char} (he : e.Avoids c) (hc : Foreign c)

include he hc

theorem not_mem_body : (body e).Each (c ∉ ·) := by
  have hstorage := he.storageType hc
  have hrows : ∀ entry ∈ e.entries, c ∉ entry.declarator := fun entry => he.entry_declarator
  rcases hc with rfl | rfl <;>
    simpa (disch := decide) [body, hstorage, he.name, not_mem_literal] using hrows

theorem not_mem_prototypes : (prototypes e).Each (c ∉ ·) := by
  have hsignature := he.signature hc
  rcases hc with rfl | rfl <;>
    simp (disch := decide) [prototypes, hsignature, not_mem_literal]

theorem not_mem_traitsPrototype : c ∉ traitsPrototype e ++ ";" := by
  have htype := he.traitsType_getD hc
  rcases hc with rfl | rfl <;>
    simp (disch := decide) [traitsPrototype, Helper.name, Helper.suffix, he.name, htype,
      not_mem_literal]

end Avoids

theorem newline_not_mem_chunk {condition? : Option Text} {e : Enumeration}
    (hcondition : ∀ c ∈ condition?, '\n' ∉ c) (he : e.SingleLine) :
    (chunk condition? e).Each ('\n' ∉ ·) := by
  have hbody := not_mem_body he.avoids (.inl rfl)
  have hprototypes := not_mem_prototypes he.avoids (.inl rfl)
  have htraits : ∀ table ∈ e.traitsTable?, (traits e table).Each ('\n' ∉ ·) := by
    intro table ht
    have hc := newline_not_mem_directives (he.table_condition ht)
    simp only [traits, each_append_iff, each_blank_iff, each_conditional_iff, each_line_iff,
      List.not_mem_nil, not_false_eq_true, true_and]
    exact ⟨hc, not_mem_traitsPrototype he.avoids (.inl rfl)⟩
  have hc := newline_not_mem_directives hcondition
  simp only [chunk, each_append_iff, each_blank_iff, each_conditional_iff, each_all_iff,
    List.forall_mem_map, List.not_mem_nil, not_false_eq_true, and_true, true_and]
  exact ⟨⟨hbody, hc, hprototypes⟩, fun table ht => htraits table (Option.mem_toList.mp ht)⟩

theorem enumHeader_ne_brace (e : Enumeration) : e.storageType ++ " " ++ e.name ≠ "\x7b" := by
  intro he
  have hblank : ' ' ∈ ("\x7b" : Text) := by
    rw [← he, ofString_eq]
    simp
  exact not_mem_literal (by decide) hblank

theorem opens_chunk (condition? : Option Text) (e : Enumeration) : (chunk condition? e).Opens := by
  simp (disch := decide) only [chunk, body, prototypes, traits, opens_append_iff,
    opens_line_iff, opens_block_iff, opens_conditional_iff, opens_blank, opens_all_iff,
    List.forall_mem_map, literal_ne_literal, append_ne_literal, enumHeader_ne_brace, ne_eq,
    not_false_eq_true, and_self, implies_true]

theorem indentedAt_chunk (condition? : Option Text) (e : Enumeration) (unit : Text) :
    (chunk condition? e).indentedAt unit 0 =
      (.blank ++ body e ++ .blank : Code).indentedAt unit 0 ++
        wrapped id condition? ((prototypes e).indentedAt unit 0) ++
        e.traitsTable?.toList.flatMap fun table =>
          [] :: wrapped id table.condition? [traitsPrototype e ++ ";"] := by
  have houtside : (.blank ++ body e ++ .blank : Code).Steady := by
    simp [body]
  have hfront : (.blank ++ body e ++ .blank ++
      .conditional condition? (prototypes e) : Code).Steady := by
    simp [body, prototypes]
  have htraits : ∀ table, (traits e table).Steady := by
    simp [traits]
  have hlines : ∀ table : TraitsTable, (traits e table).indentedAt unit 0 =
      [] :: wrapped id table.condition? [traitsPrototype e ++ ";"] := by
    intro table
    rw [traits, steady_blank.indentedAt_append, indentedAt_conditional]
    rfl
  rw [chunk, hfront.indentedAt_append, houtside.indentedAt_append, indentedAt_conditional,
    indentedAt_all_map _ _ htraits]
  simp only [hlines]

end Declaration

namespace Definition

theorem steady_helpers (e : Enumeration) : (helpers e).Steady := by
  unfold helpers
  split
  · simp [emptyHelpers, returnNotFound]
  · simp [fullHelpers, stringTable, valueTable, toStringBody, toIndexBody, fromIndexBody,
      valueCountBody, fromStringBody, comparison, forEachIndex, countLine, returnNotFound]

theorem steady_traitsBody (e : Enumeration) (table : TraitsTable) :
    (traitsBody e table).Steady := by
  unfold traitsBody
  split <;> simp [forEachIndex]

theorem steady_traits (e : Enumeration) (table : TraitsTable) : (traits e table).Steady :=
  ⟨steady_blank, steady_traitsBody e table⟩

theorem steady_chunk (condition? : Option Text) (e : Enumeration) :
    (chunk condition? e).Steady := by
  simp [chunk, steady_helpers, steady_traits]

section Avoids

variable {e : Enumeration} {c : Char} (he : e.Avoids c) (hc : Foreign c)

include he hc

theorem not_mem_helpers : (helpers e).Each (c ∉ ·) := by
  have hreturn : returnNotFound.Each (c ∉ ·) := by
    rw [returnNotFound, each_line_iff]
    rcases hc with rfl | rfl <;> decide +kernel
  have hsignature := he.signature hc
  have hcount := hc.not_mem_ofNat e.entries.length
  have hnames : ∀ entry ∈ e.entries, c ∉ entry.name := fun entry => he.entry_name
  have hliterals : ∀ entry ∈ e.entries, c ∉ StringLiteral.encode entry.name :=
    fun entry h => hc.not_mem_encode (hnames entry h)
  unfold helpers
  split
  · rcases hc with rfl | rfl <;>
      simp (disch := decide) [emptyHelpers, hreturn, hsignature, he.name, not_mem_literal]
  · rcases hc with rfl | rfl <;>
      simp (disch := decide) [fullHelpers, stringTable, valueTable, toStringBody, toIndexBody,
        fromIndexBody, valueCountBody, fromStringBody, comparison, forEachIndex, countLine,
        stringTableName, valueTableName, Helper.name, Helper.suffix, hreturn, hsignature, he.name,
        hcount, not_mem_literal] <;>
      exact ⟨hliterals, hnames⟩

theorem not_mem_traitsBody {table : TraitsTable} (ht : table ∈ e.traitsTable?) :
    (traitsBody e table).Each (c ∉ ·) := by
  have htype := he.table_typeName ht
  have hsignature := he.signature hc
  have hcount := hc.not_mem_ofNat table.rows.length
  have hrows : ∀ row ∈ table.rows, c ∉ row.value ∧ c ∉ row.payload := fun row => he.row ht
  unfold traitsBody
  split
  · rcases hc with rfl | rfl <;> simp (disch := decide) [hsignature, not_mem_literal]
  · rcases hc with rfl | rfl <;>
      simpa (disch := decide) [forEachIndex, traitsEntryTypeName, traitsTableName, traitsRow,
        hsignature, he.name, htype, hcount, not_mem_literal] using hrows

end Avoids

theorem newline_not_mem_chunk {condition? : Option Text} {e : Enumeration}
    (hcondition : ∀ c ∈ condition?, '\n' ∉ c) (he : e.SingleLine) :
    (chunk condition? e).Each ('\n' ∉ ·) := by
  have htraits : ∀ table ∈ e.traitsTable?, (traits e table).Each ('\n' ∉ ·) := by
    intro table ht
    simp only [traits, each_append_iff, each_blank_iff, each_conditional_iff, List.not_mem_nil,
      not_false_eq_true, true_and]
    exact ⟨newline_not_mem_directives (he.table_condition ht),
      not_mem_traitsBody he.avoids (.inl rfl) ht⟩
  simp only [chunk, each_append_iff, each_blank_iff, each_conditional_iff,
    each_all_iff, List.forall_mem_map, List.not_mem_nil, not_false_eq_true, true_and]
  exact ⟨⟨newline_not_mem_directives hcondition, not_mem_helpers he.avoids (.inl rfl)⟩,
    fun table ht => htraits table (Option.mem_toList.mp ht)⟩

theorem opens_helpers (e : Enumeration) : (helpers e).Opens := by
  unfold helpers
  split
  · simp (disch := decide) only [emptyHelpers, returnNotFound, Enumeration.signature,
      opens_append_iff, opens_line_iff, opens_braces_iff, opens_blank, literal_ne_literal,
      append_ne_literal, ne_eq, not_false_eq_true, and_self]
  · simp (disch := decide) only [fullHelpers, stringTable, valueTable, toStringBody,
      toIndexBody, fromIndexBody, valueCountBody, fromStringBody, comparison, forEachIndex,
      countLine, returnNotFound, Enumeration.signature, opens_append_iff, opens_line_iff,
      opens_braces_iff, opens_block_iff, opens_blank, opens_all_iff, List.forall_mem_map,
      literal_ne_literal, append_ne_literal, ne_eq, not_false_eq_true, and_self, implies_true]

theorem opens_traitsBody (e : Enumeration) (table : TraitsTable) :
    (traitsBody e table).Opens := by
  unfold traitsBody
  split <;>
    simp (disch := decide) only [forEachIndex, traitsRow, Enumeration.signature,
      opens_append_iff, opens_line_iff, opens_braces_iff, opens_block_iff, opens_blank,
      opens_all_iff, List.forall_mem_map, literal_ne_literal, append_ne_literal, ne_eq,
      not_false_eq_true, and_self, implies_true]

theorem opens_traits (e : Enumeration) (table : TraitsTable) : (traits e table).Opens :=
  ⟨opens_blank, opens_traitsBody e table⟩

theorem opens_chunk (condition? : Option Text) (e : Enumeration) : (chunk condition? e).Opens := by
  simp only [chunk, opens_append_iff, opens_blank, opens_conditional_iff, opens_all_iff,
    List.forall_mem_map, opens_helpers, opens_traits, and_self, implies_true]

theorem indentedAt_traits (e : Enumeration) (table : TraitsTable) (unit : Text) :
    (traits e table).indentedAt unit 0 =
      [] :: wrapped id table.condition? ((traitsBody e table).indentedAt unit 0) := by
  rw [traits, steady_blank.indentedAt_append, indentedAt_conditional]
  rfl

theorem indentedAt_chunk (condition? : Option Text) (e : Enumeration) (unit : Text) :
    (chunk condition? e).indentedAt unit 0 =
      [] :: (wrapped id condition? ((helpers e).indentedAt unit 0) ++
        e.traitsTable?.toList.flatMap fun table => (traits e table).indentedAt unit 0) := by
  have hfront : (.blank ++ .conditional condition? (helpers e) : Code).Steady :=
    ⟨steady_blank, steady_helpers e⟩
  rw [chunk, hfront.indentedAt_append, steady_blank.indentedAt_append, indentedAt_conditional,
    indentedAt_all_map _ _ (steady_traits e)]
  rfl

/-- The lines of a part are blank, or they come from the helpers or from traits, or they are the
directives of a condition. -/
theorem mem_chunk_cases {condition? : Option Text} {e : Enumeration} {unit line : Text}
    (h : line ∈ (chunk condition? e).indentedAt unit 0) :
    line = [] ∨ line ∈ (helpers e).indentedAt unit 0 ∨
      (∃ table ∈ e.traitsTable?, line ∈ (traitsBody e table).indentedAt unit 0) ∨
      ∃ c, line = ifLine c ∨ line = endLine c := by
  rw [indentedAt_chunk, List.mem_cons, List.mem_append, List.mem_flatMap] at h
  rcases h with hnil | hmem | ⟨table, ht, hmem⟩
  · exact .inl hnil
  · rcases mem_wrapped hmem with hmem | hdirective
    · exact .inr (.inl hmem)
    · exact .inr (.inr (.inr hdirective))
  · rw [indentedAt_traits, List.mem_cons] at hmem
    rcases hmem with hnil | hmem
    · exact .inl hnil
    · rcases mem_wrapped hmem with hmem | hdirective
      · exact .inr (.inr (.inl ⟨table, Option.mem_toList.mp ht, hmem⟩))
      · exact .inr (.inr (.inr hdirective))

theorem eachRow_helpers (e : Enumeration) : (helpers e).EachRow (· ≠ []) := by
  unfold helpers
  split
  · simp (disch := decide) only [emptyHelpers, returnNotFound, Enumeration.signature,
      eachRow_append_iff, eachRow_line_iff, eachRow_braces_iff, eachRow_blank, literal_ne_nil,
      append_literal_ne_nil, ne_eq, not_false_eq_true, and_self]
  · simp (disch := decide) only [fullHelpers, stringTable, valueTable, toStringBody,
      toIndexBody, fromIndexBody, valueCountBody, fromStringBody, comparison, forEachIndex,
      countLine, returnNotFound, Enumeration.signature, eachRow_append_iff, eachRow_line_iff,
      eachRow_braces_iff, eachRow_block_iff, eachRow_blank, eachRow_all_iff, List.forall_mem_map,
      literal_ne_nil, append_literal_ne_nil, ne_eq, not_false_eq_true, and_self, implies_true]

theorem eachRow_traitsBody (e : Enumeration) (table : TraitsTable) :
    (traitsBody e table).EachRow (· ≠ []) := by
  unfold traitsBody
  split <;>
    simp (disch := decide) only [forEachIndex, traitsRow, Enumeration.signature,
      eachRow_append_iff, eachRow_line_iff, eachRow_braces_iff, eachRow_block_iff,
      eachRow_blank, eachRow_all_iff, List.forall_mem_map, literal_ne_nil, append_literal_ne_nil,
      ne_eq, not_false_eq_true, and_self, implies_true]

theorem eachRow_chunk (condition? : Option Text) (e : Enumeration) :
    (chunk condition? e).EachRow (· ≠ []) := by
  simp only [chunk, traits, eachRow_append_iff, eachRow_blank, eachRow_conditional_iff,
    eachRow_all_iff, List.forall_mem_map, eachRow_helpers, eachRow_traitsBody, and_self,
    implies_true]

theorem balanced_head (condition? : Option Text) (declarationFile : Text)
    (command? : Option Text) : (head condition? declarationFile command?).Balanced := by
  -- the standard includes are indented by hand, and taken back by hand
  have hincludes : standardIncludes.Balanced := by
    intro n
    simp [standardIncludes, layOut_seq, layOut]
  have hbanner : (banner command? ++
      .verbatim ("#include \"" ++ declarationFile ++ "\"")).Steady := by
    simp [banner]
  exact hbanner.balanced.append (hincludes.conditional condition?)

end Definition

structure Emission.SingleLine (g : Emission) : Prop where
  description : g.description.SingleLine
  token : '\n' ∉ g.token
  title : '\n' ∉ g.title
  command : ∀ c ∈ g.command?, '\n' ∉ c

namespace Emission

section Lines

variable {g : Emission}

theorem SingleLine.banner (h : g.SingleLine) : (banner g.command?).Each ('\n' ∉ ·) := by
  simp (disch := decide) [EnumCodegen.banner, toolName, not_mem_literal]
  exact h.command

theorem SingleLine.declaration (h : g.SingleLine) :
    (Declaration.code g.description g.token g.command?).Each ('\n' ∉ ·) := by
  have hbanner := h.banner
  have hverbatim := h.description.verbatim
  simp only [List.mem_append, or_imp, forall_and] at hverbatim
  have hchunk : ∀ e ∈ g.description.enumerations,
      (Declaration.chunk g.description.condition? e).Each ('\n' ∉ ·) := fun e he =>
    Declaration.newline_not_mem_chunk h.description.condition (h.description.enumeration he)
  simp (disch := decide) [Declaration.code, Declaration.head, Declaration.tail, markerLead,
    includeGuard, hbanner, h.token, not_mem_literal]
  exact ⟨⟨⟨hverbatim.1.1, hverbatim.2⟩, hchunk⟩, hverbatim.1.2⟩

theorem SingleLine.definition (h : g.SingleLine) :
    (Definition.code g.description g.declarationFile g.command?).Each ('\n' ∉ ·) := by
  have hbanner := h.banner
  have hc := newline_not_mem_directives h.description.condition
  have hincludes : Definition.standardIncludes.Each ('\n' ∉ ·) := by
    simp (disch := decide) [Definition.standardIncludes, not_mem_literal]
  have hchunk : ∀ e ∈ g.description.enumerations,
      (Definition.chunk g.description.condition? e).Each ('\n' ∉ ·) := fun e he =>
    Definition.newline_not_mem_chunk h.description.condition (h.description.enumeration he)
  simp (disch := decide) [Definition.code, Definition.head, declarationFile, hbanner, hincludes,
    h.title, h.description.declarationSuffix, not_mem_literal]
  exact ⟨hc, hchunk⟩

theorem lines_declaration (h : g.SingleLine) (hu : '\n' ∉ g.unit) :
    Text.lines g.declaration =
      (Declaration.head g.description g.token g.command?).indentedAt g.unit 0 ++
        (g.description.enumerations.flatMap fun e =>
          (Declaration.chunk g.description.condition? e).indentedAt g.unit 0) ++
        (Declaration.tail g.description g.token).indentedAt g.unit 0 := by
  have hhead := Declaration.steady_head g.description g.token g.command?
  have hchunk := Declaration.steady_chunk g.description.condition?
  have hfront : (Declaration.head g.description g.token g.command? ++
      .all (g.description.enumerations.map
        (Declaration.chunk g.description.condition?))).Steady := by
    simp [hhead, hchunk]
  rw [declaration, lines_render hu h.declaration, Declaration.code, hfront.indentedAt_append,
    hhead.indentedAt_append, indentedAt_all_map _ _ hchunk]

theorem lines_definition (h : g.SingleLine) (hu : '\n' ∉ g.unit) :
    Text.lines g.definition =
      (Definition.head g.description.condition? g.declarationFile g.command?).indentedAt g.unit 0 ++
        g.description.enumerations.flatMap fun e =>
          (Definition.chunk g.description.condition? e).indentedAt g.unit 0 := by
  have hhead := Definition.balanced_head g.description.condition? g.declarationFile g.command?
  have hchunk := Definition.steady_chunk g.description.condition?
  rw [definition, lines_render hu h.definition, Definition.code, hhead.indentedAt_append,
    indentedAt_all_map _ _ hchunk]

end Lines

variable (g : Emission)

def declarationParts : List Text :=
  g.description.enumerations.map fun e =>
    (Declaration.chunk g.description.condition? e).render g.unit

def definitionParts : List Text :=
  g.description.enumerations.map fun e =>
    (Definition.chunk g.description.condition? e).render g.unit

theorem declaration_eq_parts :
    g.declaration =
      (Declaration.head g.description g.token g.command?).render g.unit ++
        g.declarationParts.flatten ++ (Declaration.tail g.description g.token).render g.unit := by
  have hhead := Declaration.steady_head g.description g.token g.command?
  have hchunk := Declaration.steady_chunk g.description.condition?
  have hfront : (Declaration.head g.description g.token g.command? ++
      .all (g.description.enumerations.map
        (Declaration.chunk g.description.condition?))).Steady := by
    simp [hhead, hchunk]
  rw [declaration, Declaration.code, render_append _ _ hfront.balanced,
    render_append _ _ hhead.balanced, render_all_map _ hchunk]
  rfl

theorem definition_eq_parts :
    g.definition =
      (Definition.head g.description.condition? g.declarationFile g.command?).render g.unit ++
        g.definitionParts.flatten := by
  have hhead := Definition.balanced_head g.description.condition? g.declarationFile g.command?
  have hchunk := Definition.steady_chunk g.description.condition?
  rw [definition, Definition.code, render_append _ _ hhead, render_all_map _ hchunk]
  rfl

variable {g} {k : Nat} {e : Enumeration}

theorem lines_declarationPart (hd : g.description.SingleLine) (hu : '\n' ∉ g.unit)
    (he : g.description.enumerations[k]? = some e) :
    ∃ part, g.declarationParts[k]? = some part ∧
      Text.lines part = (Declaration.chunk g.description.condition? e).indentedAt g.unit 0 := by
  refine ⟨_, by simp [declarationParts, he], lines_render hu ?_⟩
  exact Declaration.newline_not_mem_chunk hd.condition (hd.enumeration (List.mem_of_getElem? he))

theorem lines_definitionPart (hd : g.description.SingleLine) (hu : '\n' ∉ g.unit)
    (he : g.description.enumerations[k]? = some e) :
    ∃ part, g.definitionParts[k]? = some part ∧
      Text.lines part = (Definition.chunk g.description.condition? e).indentedAt g.unit 0 := by
  refine ⟨_, by simp [definitionParts, he], lines_render hu ?_⟩
  exact Definition.newline_not_mem_chunk hd.condition (hd.enumeration (List.mem_of_getElem? he))

end Emission

end EnumCodegen
