import EnumCodegen.Proofs.Code.Counts
import EnumCodegen.Proofs.Description.Values
import EnumCodegen.Proofs.Emission.Layers
import EnumCodegen.Proofs.Emission.Signatures
import Mathlib.Data.List.Nodup

/-! # The helpers of an enumeration

Every helper is declared once in the declaration file and defined once in the definition
file, in the same layer of the two: the helpers that all enumerations have stand under the
condition of the files, and the traits lookup under that of the traits. -/

namespace EnumCodegen

open Text Code

/-- The lines of a part of the declaration file that can read like any other, a declaration
among them: the one that starts the enumeration and those that close a condition. -/
def Enumeration.lookalikes (e : Enumeration) (condition? : Option Text) : List Text :=
  (e.storageType ++ " " ++ e.name) :: e.closings condition?

/-- How often a line stands under the condition of the files and under that of the traits. It
stands nowhere else in the part, but where a line of other origin reads like it. -/
structure Enumeration.Declares (e : Enumeration) (condition? : Option Text) (l : Layers)
    (line : Text) (n m : Nat) : Prop where
  shared : l.shared.count line = n
  traits : l.traits.count line = m
  lines : (l.lines condition? e.traitsCondition?).count line =
    n + m + (e.lookalikes condition?).count line

/-- How often something is defined under the condition of the files and under that of the
traits. It is defined nowhere else in the part. -/
structure Enumeration.Defines (e : Enumeration) (condition? : Option Text) (l : Layers)
    (header : Text) (n m : Nat) : Prop where
  shared : timesDefined header l.shared = n
  traits : timesDefined header l.traits = m
  lines : timesDefined header (l.lines condition? e.traitsCondition?) = n + m

/-- What the lines of a declaration and those of a definition have in common: which helpers
they are about, and in which layer. Without a type of traits nothing stands in the layer of
the traits, and no traits lookup in another, whatever type it returned. -/
structure Enumeration.Agreement (e : Enumeration) (condition? : Option Text)
    (declared defined : Layers) : Prop where
  shared : ∀ h : Helper, h ≠ .getTraits →
    e.Declares condition? declared (e.signature h ++ ";") 1 0 ∧
      e.Defines condition? defined (e.signature h) 1 0
  traits : e.traitsType? ≠ none →
    e.Declares condition? declared (Declaration.traitsPrototype e ++ ";") 0 1 ∧
      e.Defines condition? defined (e.signature .getTraits) 0 1
  noTraits : e.traitsType? = none → declared.traits = [] ∧ defined.traits = [] ∧
    ∀ typeName : Text, let e' := { e with traitsType? := some typeName }
      e.Declares condition? declared (Declaration.traitsPrototype e' ++ ";") 0 0 ∧
        e.Defines condition? defined (e'.signature .getTraits) 0 0

/-- Where no layer starts with a brace, what is defined is counted layer by layer. -/
theorem Layers.timesDefined_lines {l : Layers} {header : Text}
    (hshared : l.shared.head? ≠ some ("\x7b" : Text))
    (htraits : l.traits.head? ≠ some ("\x7b" : Text)) (condition? traitsCondition? : Option Text) :
    timesDefined header (l.lines condition? traitsCondition?) =
      timesDefined header l.outside + timesDefined header l.shared +
        timesDefined header l.traits := by
  have hwrapped := head?_wrapped_ne htraits traitsCondition?
  rw [Layers.lines]
  split
  · rename_i hnone
    rw [List.append_nil, timesDefined_append (head?_wrapped_ne hshared condition?),
      timesDefined_wrapped hshared, hnone]
    rfl
  · rw [timesDefined_append (by simp [ofString_eq]),
      timesDefined_append (head?_wrapped_ne hshared condition?), timesDefined_wrapped hshared,
      timesDefined_cons [] hwrapped, timesDefined_wrapped htraits]

/-! ## Declarations -/

namespace Declaration

variable (e : Enumeration) (unit : Text)

/-- Outside of the conditions only the first line of the enumeration can read like a
declaration. -/
theorem count_outside {line : Text} (h : (");" : Text) <:+ line) :
    (layers e unit).outside.count line = [(e.storageType ++ " " ++ e.name : Text)].count line := by
  have hne : ∀ text, EndsUnlike ");" text → line ≠ text := by
    rintro text hends rfl
    exact hends.1 h
  have hrow : ∀ entry : Entry, line ≠ unit ++ (entry.declarator ++ ",") := by
    intro entry
    exact hne _ (((endsUnlike_literal (by decide)).append _).append _)
  have hopen : line ≠ "\x7b" := hne _ (endsUnlike_literal (by decide))
  have hclose : line ≠ "\x7d;" := hne _ (endsUnlike_literal (by decide))
  have hnil : line ≠ [] := by
    rintro rfl
    rw [List.suffix_nil, ofString_eq] at h
    cases h
  have hrows : (e.entries.map fun entry => unit ++ (entry.declarator ++ ",")).count line = 0 := by
    rw [List.count_eq_zero, List.mem_map]
    rintro ⟨entry, -, he⟩
    exact hrow entry he.symm
  have hlines : (layers e unit).outside =
      [] :: (e.storageType ++ " " ++ e.name : Text) :: ("\x7b" : Text) ::
        (e.entries.map (fun entry => unit ++ (entry.declarator ++ ",")) ++
          [("\x7d;" : Text), []]) := by
    simp [layers, body, indentedAt, Function.comp_def]
  rw [hlines, List.count_cons_of_ne hnil.symm, List.count_cons, List.count_cons_of_ne hopen.symm,
    List.count_append, hrows, List.count_cons_of_ne hclose.symm, List.count_cons_of_ne hnil.symm,
    List.count_cons]
  rfl

theorem shared_layers :
    (layers e unit).shared =
      [Helper.toString, .fromString, .valueCount, .fromIndex, .toIndex].map
        fun h => e.signature h ++ ";" := by
  simp only [layers, prototypes, indentedAt_all_map_line, Line.indented_zero]

/-- Every helper but the traits lookup is declared once. -/
theorem count_shared {h : Helper} (hne : h ≠ .getTraits) :
    (layers e unit).shared.count (e.signature h ++ ";") = 1 := by
  have hinjective : Function.Injective fun h => e.signature h ++ ";" := by
    intro h h' he
    exact e.signature_inj.mp (List.append_cancel_right he)
  rw [shared_layers]
  refine List.count_eq_one_of_mem (List.Nodup.map hinjective (by decide)) ?_
  refine List.mem_map_of_mem ?_
  cases h with
  | getTraits => exact absurd rfl hne
  | toString | fromString | valueCount | fromIndex | toIndex => decide

theorem count_traits (h : Helper) : (layers e unit).traits.count (e.signature h ++ ";") = 0 := by
  rw [List.count_eq_zero]
  intro hmem
  obtain ⟨_, -, he⟩ := List.mem_map.mp hmem
  exact e.traitsPrototype_ne_signature h (List.append_cancel_right he)

theorem count_shared_traitsPrototype :
    (layers e unit).shared.count (traitsPrototype e ++ ";") = 0 := by
  rw [List.count_eq_zero, shared_layers, List.mem_map]
  rintro ⟨h, -, he⟩
  exact e.traitsPrototype_ne_signature h (List.append_cancel_right he).symm

theorem count_traits_traitsPrototype :
    (layers e unit).traits.count (traitsPrototype e ++ ";") = e.traitsTable?.toList.length := by
  cases ht : e.traitsTable? with
  | none => simp [layers, ht]
  | some table => simp [layers, ht]

/-- What the layers of a part declare is all that it declares. -/
theorem declares {line : Text} {n m : Nat} (condition? : Option Text) (h : (")" : Text) <:+ line)
    (hshared : (layers e unit).shared.count (line ++ ";") = n)
    (htraits : (layers e unit).traits.count (line ++ ";") = m) :
    e.Declares condition? (layers e unit) (line ++ ";") n m := by
  have hend : (");" : Text) <:+ line ++ ";" := by
    obtain ⟨front, rfl⟩ := h
    exact ⟨front, by simp [ofString_eq]⟩
  have hne : (line ++ ";" : Text) ≠ [] := append_literal_ne_nil _ (by decide)
  have hif : ∀ c, (line ++ ";" : Text) ≠ ifLine c := fun c => append_ne_append _ _ (by decide)
  refine ⟨hshared, htraits, ?_⟩
  rw [Layers.count_lines (traits_layers_eq_nil_iff e unit) hne hif, count_outside e unit hend,
    hshared, htraits, Enumeration.lookalikes]
  simp only [List.count_cons, List.count_nil]
  omega

end Declaration

/-! ## Definitions -/

namespace Definition

variable (e : Enumeration) (unit : Text) (h : Helper)

theorem length_blocksAt_helpers :
    ((helpers e).blocksAt unit (e.signature h) 0).length = if h = .getTraits then 0 else 1 := by
  unfold helpers
  split
  · simp only [emptyHelpers, returnNotFound, blocksAt_append, blocksAt_line, blocksAt_blank,
      blocksAt_braces, Enumeration.signature_inj, List.replicate_zero, List.flatten_nil, and_true,
      List.length_append]
    cases h <;> rfl
  · simp (disch := decide +kernel) only [fullHelpers, stringTable, valueTable, toStringBody,
      toIndexBody, fromIndexBody, valueCountBody, fromStringBody, comparison, forEachIndex,
      countLine, returnNotFound, blocksAt_append, blocksAt_line, blocksAt_blank,
      blocksAt_all_map_line, blocksAt_block, blocksAt_braces, Enumeration.literal_ne_signature,
      Enumeration.append_ne_signature, Enumeration.if_ne_signature, Enumeration.signature_inj,
      false_and, and_true, if_false, List.replicate_zero, List.flatten_nil, List.append_nil,
      List.nil_append, List.length_append]
    cases h <;> rfl

theorem length_blocksAt_traitsBody (table : TraitsTable) :
    ((traitsBody e table).blocksAt unit (e.signature h) 0).length =
      if h = .getTraits then 1 else 0 := by
  unfold traitsBody
  split
  · simp only [blocksAt_append, blocksAt_line, blocksAt_braces, Enumeration.signature_inj,
      List.replicate_zero, List.flatten_nil, and_true, List.append_nil]
    cases h <;> rfl
  · simp (disch := decide) only [forEachIndex, blocksAt_append, blocksAt_line, blocksAt_blank,
      blocksAt_all_map_line, blocksAt_block, blocksAt_braces, Enumeration.literal_ne_signature,
      Enumeration.append_ne_signature, Enumeration.if_ne_signature, Enumeration.signature_inj,
      false_and, and_true, if_false, List.replicate_zero, List.flatten_nil, List.append_nil,
      List.nil_append]
    cases h <;> rfl

theorem timesDefined_shared (hu : '\x7b' ∉ unit) :
    timesDefined (e.signature h) (layers e unit).shared = if h = .getTraits then 0 else 1 := by
  rw [← length_blocksAt_helpers e unit h]
  exact timesDefined_indentedAt hu (steady_helpers e) (opens_helpers e) 0

theorem timesDefined_traits (hu : '\x7b' ∉ unit) :
    timesDefined (e.signature h) (layers e unit).traits =
      if h = .getTraits then e.traitsTable?.toList.length else 0 := by
  have hbody : ∀ table, timesDefined (e.signature h) ((traitsBody e table).indentedAt unit 0) =
      if h = .getTraits then 1 else 0 := by
    intro table
    rw [timesDefined_indentedAt hu (steady_traitsBody e table) (opens_traitsBody e table),
      length_blocksAt_traitsBody]
  cases ht : e.traitsTable? with
  | none => simp [layers, ht, timesDefined]
  | some table => simp [layers, ht, hbody]

theorem head?_layers_ne (hu : '\x7b' ∉ unit) :
    (layers e unit).shared.head? ≠ some ("\x7b" : Text) ∧
      (layers e unit).traits.head? ≠ some ("\x7b" : Text) := by
  refine ⟨head?_indentedAt_ne hu (steady_helpers e) (opens_helpers e) 0, ?_⟩
  cases ht : e.traitsTable? with
  | none => simp [layers, ht]
  | some table =>
      simpa [layers, ht] using
        head?_indentedAt_ne hu (steady_traitsBody e table) (opens_traitsBody e table) 0

theorem defines {header : Text} {n m : Nat} (condition? : Option Text) (hu : '\x7b' ∉ unit)
    (hshared : timesDefined header (layers e unit).shared = n)
    (htraits : timesDefined header (layers e unit).traits = m) :
    e.Defines condition? (layers e unit) header n m := by
  obtain ⟨hhead, hhead'⟩ := head?_layers_ne e unit hu
  have houtside : timesDefined header (layers e unit).outside = 0 := by
    simp [layers, timesDefined]
  refine ⟨hshared, htraits, ?_⟩
  rw [Layers.timesDefined_lines hhead hhead', houtside, hshared, htraits, Nat.zero_add]

end Definition

/-! ## Agreement -/

theorem agreement_layers (e : Enumeration) (condition? : Option Text) {unit : Text}
    (hu : '\x7b' ∉ unit) :
    e.Agreement condition? (Declaration.layers e unit) (Definition.layers e unit) where
  shared h hne := by
    have hdefined := Definition.timesDefined_shared e unit h hu
    have hnowhere := Definition.timesDefined_traits e unit h hu
    rw [if_neg hne] at hdefined hnowhere
    exact ⟨Declaration.declares e unit condition? (e.paren_suffix_signature h)
        (Declaration.count_shared e unit hne) (Declaration.count_traits e unit h),
      Definition.defines e unit condition? hu hdefined hnowhere⟩
  traits htype := by
    obtain ⟨typeName, ht⟩ := Option.ne_none_iff_exists'.mp htype
    have hlength : e.traitsTable?.toList.length = 1 := by simp [Enumeration.traitsTable?, ht]
    have hdefined := Definition.timesDefined_traits e unit .getTraits hu
    rw [if_pos rfl, hlength] at hdefined
    exact ⟨Declaration.declares e unit condition? e.paren_suffix_traitsPrototype
        (Declaration.count_shared_traitsPrototype e unit)
        ((Declaration.count_traits_traitsPrototype e unit).trans hlength),
      Definition.defines e unit condition? hu
        (Definition.timesDefined_shared e unit .getTraits hu) hdefined⟩
  noTraits htype := by
    have htable : e.traitsTable? = none := by simp [Enumeration.traitsTable?, htype]
    have hdeclared : (Declaration.layers e unit).traits = [] := by
      simp [Declaration.layers, htable]
    have hdefined : (Definition.layers e unit).traits = [] := by simp [Definition.layers, htable]
    refine ⟨hdeclared, hdefined, fun typeName => ?_⟩
    intro e'
    -- the type of traits changes the layer of the traits alone
    have hshared : (Declaration.layers e unit).shared.count
        (Declaration.traitsPrototype e' ++ ";") = 0 :=
      Declaration.count_shared_traitsPrototype e' unit
    have hhelpers : timesDefined (e'.signature .getTraits) (Definition.layers e unit).shared = 0 :=
      Definition.timesDefined_shared e' unit .getTraits hu
    exact ⟨Declaration.declares e unit condition? e'.paren_suffix_traitsPrototype hshared
        (by rw [hdeclared]; rfl),
      Definition.defines e unit condition? hu hhelpers (by rw [hdefined]; rfl)⟩

/-- Every helper of an enumeration is declared once in its part of the declaration file and
defined once in its part of the definition file, in the same layer of the two parts. There
is a traits lookup just where there is a type of traits, and its declaration differs from
its signature in the default alone. -/
theorem Emission.helpers_agree {g : Emission} (hd : g.description.SingleLine)
    (hnewline : '\n' ∉ g.unit) (hbrace : '\x7b' ∉ g.unit) {k : Nat} {e : Enumeration}
    (he : g.description.enumerations[k]? = some e) :
    ∃ declaration definition, ∃ declared defined : Layers,
      g.declarationParts[k]? = some declaration ∧ g.definitionParts[k]? = some definition ∧
      Text.lines declaration = declared.lines g.description.condition? e.traitsCondition? ∧
      Text.lines definition = defined.lines g.description.condition? e.traitsCondition? ∧
      e.Agreement g.description.condition? declared defined ∧
      ∃ front, Declaration.traitsPrototype e = front ++ " = 0)" ∧
        e.signature .getTraits = front ++ ")" := by
  obtain ⟨declaration, hdeclaration, hlines⟩ := lines_declarationPart hd hnewline he
  obtain ⟨definition, hdefinition, hlines'⟩ := lines_definitionPart hd hnewline he
  refine ⟨declaration, definition, Declaration.layers e g.unit, Definition.layers e g.unit,
    hdeclaration, hdefinition, ?_, ?_, agreement_layers e _ hbrace, e.traitsPrototype_eq⟩
  · rw [hlines, Declaration.lines_layers]
  · rw [hlines', Definition.lines_layers]

/-- An enumeration whose traits have a type, a condition of their own and no rows. -/
theorem Emission.helpers_agree_without_rows :
    let e : Enumeration :=
      { name := "E", traitsType? := some "T", traitsCondition? := some "M"
        entries := [.ofText "A", .ofText "B = 2"] }
    let g : Emission :=
      { description := { condition? := some "N", enumerations := [{ name := "D" }, e] }
        token := "e", title := "e", unit := [] }
    g.description.SingleLine ∧ '\n' ∉ g.unit ∧ '\x7b' ∉ g.unit ∧
      g.description.enumerations[1]? = some e ∧
      ∃ declaration definition, ∃ declared defined : Layers,
        g.declarationParts[1]? = some declaration ∧ g.definitionParts[1]? = some definition ∧
        Text.lines declaration = declared.lines (some "N") (some "M") ∧
        Text.lines definition = defined.lines (some "N") (some "M") ∧
        e.Agreement (some "N") declared defined := by
  intro e g
  have hd : g.description.SingleLine := by decide +kernel
  have hnewline : '\n' ∉ g.unit := by simp [g]
  have hbrace : '\x7b' ∉ g.unit := by simp [g]
  have he : g.description.enumerations[1]? = some e := rfl
  obtain ⟨declaration, definition, declared, defined, hdeclaration, hdefinition, hlines, hlines',
    hagree, -⟩ := helpers_agree hd hnewline hbrace he
  exact ⟨hd, hnewline, hbrace, he, declaration, definition, declared, defined, hdeclaration,
    hdefinition, hlines, hlines', hagree⟩

/-- In a whole part of the declaration file a helper is declared once, and once more for every
line that reads like its declaration. -/
theorem Emission.count_declarationPart {g : Emission} (hd : g.description.SingleLine)
    (hnewline : '\n' ∉ g.unit) {k : Nat} {e : Enumeration}
    (he : g.description.enumerations[k]? = some e) {h : Helper} (hne : h ≠ .getTraits) :
    ∃ declaration, g.declarationParts[k]? = some declaration ∧
      (Text.lines declaration).count (e.signature h ++ ";") =
        1 + (e.lookalikes g.description.condition?).count (e.signature h ++ ";") := by
  obtain ⟨declaration, hdeclaration, hlines⟩ := lines_declarationPart hd hnewline he
  refine ⟨declaration, hdeclaration, ?_⟩
  rw [hlines, ← Declaration.lines_layers]
  exact (Declaration.declares e g.unit _ (e.paren_suffix_signature h)
    (Declaration.count_shared e g.unit hne) (Declaration.count_traits e g.unit h)).lines

/-- The condition of a description can be such that the line that closes it reads like a
declaration, and the storage type such that the first line of the enumeration does. -/
theorem Emission.declared_twice :
    let e : Enumeration := { name := "#endif //", entries := [.ofText "A"] }
    let g : Emission :=
      { description :=
          { condition? := some "#endif //FromIndex(unsigned index);", enumerations := [e] }
        token := "e", title := "e" }
    let e' : Enumeration :=
      { name := "index);", storageType? := some "index); index);FromIndex(unsigned"
        entries := [.ofText "A"] }
    let g' : Emission := { description := { enumerations := [e'] }, token := "e", title := "e" }
    (Description.ofText
        "stringify-define=#endif //FromIndex(unsigned index);\n[#endif //]\nfield=A\n" =
        .ok g.description ∧
      g.description.SingleLine ∧
      ∃ declaration, g.declarationParts[0]? = some declaration ∧
        (Text.lines declaration).count (e.signature .fromIndex ++ ";") = 2) ∧
    (Description.ofText "[index);]\ntype=index); index);FromIndex(unsigned\nfield=A\n" =
        .ok g'.description ∧
      g'.description.SingleLine ∧
      ∃ declaration, g'.declarationParts[0]? = some declaration ∧
        (Text.lines declaration).count (e'.signature .fromIndex ++ ";") = 2) := by
  intro e g e' g'
  have hd : g.description.SingleLine := by decide +kernel
  have hd' : g'.description.SingleLine := by decide +kernel
  have hne : Helper.fromIndex ≠ .getTraits := by decide
  obtain ⟨declaration, hdeclaration, htimes⟩ :=
    count_declarationPart hd (by simp [g]) (k := 0) (e := e) rfl hne
  obtain ⟨declaration', hdeclaration', htimes'⟩ :=
    count_declarationPart hd' (by simp [g']) (k := 0) (e := e') rfl hne
  refine ⟨⟨by decide +kernel, hd, declaration, hdeclaration, htimes.trans ?_⟩,
    by decide +kernel, hd', declaration', hdeclaration', htimes'.trans ?_⟩
  · decide +kernel
  · decide +kernel

end EnumCodegen
