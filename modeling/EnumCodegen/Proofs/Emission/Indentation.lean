import EnumCodegen.Proofs.Code.Indentation
import EnumCodegen.Proofs.Emission.Parts

/-! # The indentation of the generated files

The unit of indentation is seen in neither file but at the start of lines that are indented.
No directive is one of them, the standard includes left aside, unless a text of the
description makes one: a name that starts with the sign of directives stands in rows, and is
indented like all other rows. -/

namespace EnumCodegen

open Text Code

/-! ## Directives from the description -/

/-- If a row starts like a directive, it starts with one of the texts that does so itself. -/
def DirectiveFrom (texts : List Text) (row : Text) : Prop :=
  row.IsDirective → ∃ text ∈ texts, text.IsDirective ∧ text.unindented <+: row.unindented

section DirectiveFrom

variable {texts texts' : List Text} {text row front back : Text}

theorem directiveFrom_of_mem (h : text ∈ texts) : DirectiveFrom texts text :=
  fun hd => ⟨text, h, hd, List.prefix_rfl⟩

theorem DirectiveFrom.mono (h : DirectiveFrom texts row) (hsub : texts ⊆ texts') :
    DirectiveFrom texts' row := by
  intro hd
  obtain ⟨text, ht, hrow⟩ := h hd
  exact ⟨text, hsub ht, hrow⟩

theorem DirectiveFrom.append (h : DirectiveFrom texts front) (h' : DirectiveFrom texts back) :
    DirectiveFrom texts (front ++ back) := by
  intro hd
  by_cases hfront : front.unindented = []
  · rw [unindented_append_of_eq_nil hfront]
    exact h' ((isDirective_append_of_eq_nil hfront back).mp hd)
  · obtain ⟨text, ht, htext, hprefix⟩ := h ((isDirective_append_of_ne_nil hfront back).mp hd)
    refine ⟨text, ht, htext, ?_⟩
    rw [unindented_append_of_ne_nil hfront]
    exact hprefix.trans (List.prefix_append _ _)

theorem directiveFrom_literal {s : String} (h : ¬ IsDirective s.toList) :
    DirectiveFrom texts (ofString s) := by
  rw [ofString_eq]
  exact fun hd => absurd hd h

theorem DirectiveFrom.append_literal {s : String} (h : DirectiveFrom texts front)
    (hs : ¬ IsDirective s.toList) : DirectiveFrom texts (front ++ ofString s) :=
  h.append (directiveFrom_literal hs)

theorem directiveFrom_literal_append {s : String}
    (h : unindented s.toList ≠ [] ∧ ¬ IsDirective s.toList) :
    DirectiveFrom texts (ofString s ++ back) := by
  rw [ofString_eq]
  exact fun hd => absurd ((isDirective_append_of_ne_nil h.1 back).mp hd) h.2

theorem directiveFrom_encode_append : DirectiveFrom texts (StringLiteral.encode text ++ back) :=
  fun hd => absurd (Option.some.inj hd) (by decide)

end DirectiveFrom

namespace Enumeration

variable (e : Enumeration)

/-- The texts of an enumeration that rows start with. -/
def leads : List Text :=
  e.name :: (e.storageType?.toList ++ e.traitsType?.toList ++
    e.entries.flatMap fun entry => [entry.name, entry.declarator])

theorem directiveFrom_name : DirectiveFrom e.leads e.name :=
  directiveFrom_of_mem (by simp [leads])

theorem directiveFrom_storageType : DirectiveFrom e.leads e.storageType := by
  unfold storageType
  cases hs : e.storageType? with
  | none => exact directiveFrom_literal (by decide)
  | some text => exact directiveFrom_of_mem (by simp [leads, hs])

variable {e}

theorem directiveFrom_entry {entry : Entry} (he : entry ∈ e.entries) :
    DirectiveFrom e.leads entry.name ∧ DirectiveFrom e.leads entry.declarator := by
  have hsub : [entry.name, entry.declarator] ⊆ e.leads := by
    intro text ht
    exact List.mem_cons_of_mem _ (List.mem_append_right _ (List.mem_flatMap.mpr ⟨entry, he, ht⟩))
  exact ⟨directiveFrom_of_mem (hsub (by simp)), directiveFrom_of_mem (hsub (by simp))⟩

theorem directiveFrom_typeName {table : TraitsTable} (ht : table ∈ e.traitsTable?) :
    DirectiveFrom e.leads table.typeName := by
  obtain ⟨typeName, htype, rfl⟩ := Option.map_eq_some_iff.mp ht
  exact directiveFrom_of_mem (by simp [leads, htype])

variable (e)

theorem directiveFrom_signature (h : Helper) : DirectiveFrom e.leads (e.signature h) := by
  cases h with
  | fromIndex =>
      have hname := e.directiveFrom_name
      simp only [signature, Helper.name, Helper.suffix]
      exact ((hname.append_literal (by decide)).append
        (hname.append_literal (by decide))).append_literal (by decide)
  | toString | fromString | valueCount | toIndex | getTraits =>
      simp (disch := decide) [signature, directiveFrom_literal_append]

end Enumeration

/-! ## Rows -/

namespace Declaration

theorem directiveFrom_chunk (condition? : Option Text) (e : Enumeration) :
    (chunk condition? e).EachRow (DirectiveFrom e.leads) := by
  have hheader : DirectiveFrom e.leads (e.storageType ++ " " ++ e.name) :=
    (e.directiveFrom_storageType.append_literal (by decide)).append e.directiveFrom_name
  have hbody : (body e).EachRow (DirectiveFrom e.leads) := by
    simp only [body, eachRow_block_iff, eachRow_all_iff, List.forall_mem_map, eachRow_line_iff]
    refine ⟨hheader, directiveFrom_literal (by decide), fun entry he => ?_,
      directiveFrom_literal (by decide)⟩
    exact (Enumeration.directiveFrom_entry he).2.append_literal (by decide)
  have hprototypes : (prototypes e).EachRow (DirectiveFrom e.leads) := by
    simp only [prototypes, eachRow_all_iff, List.forall_mem_map, eachRow_line_iff]
    exact fun h _ => (e.directiveFrom_signature h).append_literal (by decide)
  have htraits : ∀ table, (traits e table).EachRow (DirectiveFrom e.leads) := by
    simp (disch := decide) [traits, traitsPrototype, directiveFrom_literal_append]
  simp [chunk, hbody, hprototypes, htraits]

end Declaration

namespace Definition

theorem directiveFrom_helpers (e : Enumeration) :
    (helpers e).EachRow (DirectiveFrom e.leads) := by
  -- the rows that start with a text of the enumeration
  have hvalues : DirectiveFrom e.leads (e.name ++ (" " ++ (valueTableName e.name ++ "[] ="))) := by
    refine e.directiveFrom_name.append ((directiveFrom_literal (by decide)).append ?_)
    simp (disch := decide) [valueTableName, directiveFrom_literal_append]
  have hlookup : DirectiveFrom e.leads
      (e.name ++ (" value = " ++ (Helper.name .fromIndex e.name ++ "(i);"))) :=
    e.directiveFrom_name.append (directiveFrom_literal_append (by decide))
  have hentries : ∀ entry ∈ e.entries, DirectiveFrom e.leads (entry.name ++ ",") :=
    fun entry he => (Enumeration.directiveFrom_entry he).1.append_literal (by decide)
  unfold helpers
  split
  · simp (disch := decide) [emptyHelpers, returnNotFound, e.directiveFrom_signature,
      directiveFrom_literal_append, directiveFrom_literal]
  · simpa (disch := decide) [fullHelpers, stringTable, valueTable, toStringBody, toIndexBody,
      fromIndexBody, valueCountBody, fromStringBody, comparison, forEachIndex, countLine,
      returnNotFound, hvalues, hlookup, e.directiveFrom_signature, directiveFrom_encode_append,
      directiveFrom_literal_append, directiveFrom_literal] using hentries

theorem directiveFrom_traits {e : Enumeration} {table : TraitsTable} (ht : table ∈ e.traitsTable?) :
    (traits e table).EachRow (DirectiveFrom e.leads) := by
  have hvalue : DirectiveFrom e.leads (e.name ++ " value;") :=
    e.directiveFrom_name.append_literal (by decide)
  have htype : DirectiveFrom e.leads (table.typeName ++ " traits;") :=
    (Enumeration.directiveFrom_typeName ht).append_literal (by decide)
  unfold traits traitsBody
  split
  · simp (disch := decide) [e.directiveFrom_signature, directiveFrom_literal]
  · simp (disch := decide) [forEachIndex, traitsRow, hvalue, htype, e.directiveFrom_signature,
      directiveFrom_literal_append, directiveFrom_literal]

theorem directiveFrom_chunk (condition? : Option Text) (e : Enumeration) :
    (chunk condition? e).EachRow (DirectiveFrom e.leads) := by
  simp only [chunk, eachRow_append_iff, eachRow_blank, eachRow_conditional_iff, eachRow_all_iff,
    List.forall_mem_map, true_and]
  exact ⟨directiveFrom_helpers e, fun table ht => directiveFrom_traits (Option.mem_toList.mp ht)⟩

/-- The includes that stand indented at the head of a definition file. -/
def includeLines : List Text :=
  ["#include <cstring>", "#include <cctype>", "#include <string.h>", "#include <ctype.h>"]

theorem mem_includeLines_of_head {condition? : Option Text} {declarationFile : Text}
    {command? : Option Text} {w : Written}
    (hw : w ∈ (head condition? declarationFile command?).writtenLines)
    (hrow : w.verbatim = false) : w.text.unindented ∈ includeLines := by
  have hincludes : standardIncludes.EachRow (·.firstLine.unindented ∈ includeLines) := by
    simp only [standardIncludes, eachRow_append_iff, eachRow_verbatim, eachRow_line_iff,
      eachRow_indent, eachRow_dedent]
    decide +kernel
  have hrows : (head condition? declarationFile command?).EachRow
      (·.firstLine.unindented ∈ includeLines) := by
    simp [head, banner, hincludes]
  obtain ⟨row, hinclude, htext⟩ := hrows.of_mem_writtenLines hw hrow
  rw [htext]
  exact hinclude

end Definition

/-! ## Two units -/

def Description.leads (d : Description) : List Text :=
  d.enumerations.flatMap Enumeration.leads

/-- A line starts with a text of the description that starts like a directive itself. -/
def Description.StartsDirective (d : Description) (line : Text) : Prop :=
  ∃ text ∈ d.leads, text.IsDirective ∧ text.firstLine.unindented <+: line

theorem directiveFrom_chunks {d : Description} {chunk : Enumeration → Code}
    (hchunk : ∀ e, (chunk e).EachRow (DirectiveFrom e.leads)) :
    (all (d.enumerations.map chunk)).EachRow (DirectiveFrom d.leads) := by
  simp only [eachRow_all_iff, List.forall_mem_map]
  intro e he w hw hrow
  exact (hchunk e w hw hrow).mono fun text ht => List.mem_flatMap.mpr ⟨e, he, ht⟩

/-- The first line of a row starts like a directive only where the row does. -/
theorem DirectiveFrom.startsDirective {d : Description} {row : Text}
    (h : DirectiveFrom d.leads row) (hd : row.firstLine.IsDirective) :
    d.StartsDirective row.firstLine.unindented := by
  obtain ⟨text, ht, htext, rest, hrest⟩ := h ((isDirective_firstLine_iff row).mp hd)
  refine ⟨text, ht, htext, ?_⟩
  rw [unindented_firstLine, unindented_firstLine, ← hrest]
  exact firstLine_append_prefix _ _

theorem startsDirective_of_mem_writtenLines {d : Description} {code : Code}
    (h : code.EachRow (DirectiveFrom d.leads)) {w : Written}
    (hw : w ∈ code.writtenLines) (hrow : w.verbatim = false) (hd : w.text.IsDirective) :
    d.StartsDirective w.text.unindented := by
  obtain ⟨row, hfrom, htext⟩ := h.of_mem_writtenLines hw hrow
  rw [htext] at hd ⊢
  exact hfrom.startsDirective hd

namespace Emission

variable (g : Emission) {unit unit' : Text}

def withUnit (unit : Text) : Emission := { g with unit := unit }

/-- Both files are the same for two units but for the spaces and tabs at the start of lines
that are not written as they are. Directives stand alike, save the standard includes at the
head of the definition file and those among some lines. -/
def SameForUnits (among : Text → Prop) (unit unit' : Text) : Prop :=
  SameButIndentation (Declaration.code g.description g.token g.command?).writtenLines
    (fun _ line => among line) (g.withUnit unit).declaration (g.withUnit unit').declaration ∧
  SameButIndentation (Definition.code g.description g.declarationFile g.command?).writtenLines
    (fun i line =>
      line ∈ Definition.includeLines ∧
        i < (Definition.head g.description.condition? g.declarationFile
          g.command?).writtenLines.length ∨
      among line)
    (g.withUnit unit).definition (g.withUnit unit').definition

/-- Two units of spaces and tabs make the same files but for indentation. Only a text that a
row starts with can bring in a directive that is indented. -/
theorem sameForUnits (hu : ∀ c ∈ unit, c = ' ' ∨ c = '\t') (hu' : ∀ c ∈ unit', c = ' ' ∨ c = '\t') :
    g.SameForUnits g.description.StartsDirective unit unit' := by
  refine ⟨sameButIndentation hu hu' ?_, sameButIndentation hu hu' ?_⟩
  · have hrows : (Declaration.code g.description g.token g.command?).EachRow
        (DirectiveFrom g.description.leads) := by
      have hchunks := directiveFrom_chunks (d := g.description)
        (Declaration.directiveFrom_chunk g.description.condition?)
      simp [Declaration.code, Declaration.head, Declaration.tail, banner, hchunks]
    exact fun i w hw => startsDirective_of_mem_writtenLines hrows (List.mem_of_getElem? hw)
  · have hchunks := directiveFrom_chunks (d := g.description)
      (Definition.directiveFrom_chunk g.description.condition?)
    intro i w hw hrow hd
    rw [Definition.code, writtenLines_append, List.getElem?_append] at hw
    split at hw
    · rename_i hi
      have hmem := List.mem_of_getElem? hw
      exact .inl ⟨Definition.mem_includeLines_of_head hmem hrow, hi⟩
    · exact .inr (startsDirective_of_mem_writtenLines hchunks (List.mem_of_getElem? hw) hrow hd)

/-- An enumeration with one entry, whose text starts like a directive. -/
def directiveEntry : Emission where
  description := { enumerations := [{ name := "E", entries := [.ofText "#else"] }] }
  token := "e_tok"
  title := "e"

theorem sameForUnits_directiveEntry :
    (∀ c ∈ (['\t'] : Text), c = ' ' ∨ c = '\t') ∧ (∀ c ∈ ([] : Text), c = ' ' ∨ c = '\t') ∧
      directiveEntry.SameForUnits directiveEntry.description.StartsDirective ['\t'] [] :=
  ⟨by simp, by simp, directiveEntry.sameForUnits (by simp) (by simp)⟩

/-- The directive in an entry is indented with the row that it stands in. -/
theorem not_sameForUnits_directives :
    ¬ ∀ (g : Emission) (unit unit' : Text), (∀ c ∈ unit, c = ' ' ∨ c = '\t') →
      (∀ c ∈ unit', c = ' ' ∨ c = '\t') → g.SameForUnits (fun _ => False) unit unit' := by
  intro h
  have hsame := h directiveEntry ['\t'] [] (by simp) (by simp)
  have hline : (Text.lines (directiveEntry.withUnit ['\t']).declaration)[8]? =
      some ('\t' :: '#' :: "else,".toList) := by decide +kernel
  have hline' : (Text.lines (directiveEntry.withUnit []).declaration)[8]? ≠
      some ('\t' :: '#' :: "else,".toList) := by decide +kernel
  rcases hsame.1.directive_eq 8 _ hline (by decide) with heq | hfalse
  · exact hline' heq
  · exact hfalse

end Emission

end EnumCodegen
