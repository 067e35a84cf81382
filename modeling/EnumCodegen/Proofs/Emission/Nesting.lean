import EnumCodegen.Proofs.Code.Conditionals
import EnumCodegen.Proofs.Emission.Parts

/-! # The conditionals of the generated files

Every condition that is tested in a generated file is closed with its name, one inside
another, however many enumerations there are and whatever they test. All of a declaration
file but its banner stands inside the include guard. -/

namespace EnumCodegen

open Text Code ConditionalPart

/-! ## Rules -/

/-- A test of a macro is closed with the name of the macro. -/
def ClosesByName (opening : Text) (_ : List Text) (closing : Text) : Prop :=
  ∀ c, opening = ifLine c → closing = endLine c

/-- A test of a macro is closed with the name of the macro, unless the whole conditional
is the choice between the standard includes of two languages. -/
def ClosesByNameOrIncludes (unit opening : Text) (body : List Text) (closing : Text) : Prop :=
  ∀ c, opening = ifLine c → closing = endLine c ∨
    opening :: (body ++ [closing]) = Definition.standardIncludes.indentedAt unit 0

theorem closesByName_endLine (c : Text) (body : List Text) :
    ClosesByName (ifLine c) body (endLine c) := by
  intro c' h
  rw [ifLine_inj.mp h]

theorem closesByNameOrIncludes_endLine (unit c : Text) (body : List Text) :
    ClosesByNameOrIncludes unit (ifLine c) body (endLine c) :=
  fun c' h => .inl (closesByName_endLine c body c' h)

/-! ## Parts without directives -/

section Plain

variable {unit : Text} {rule : Text → List Text → Text → Prop} {base : Nat}

theorem hash_not_mem_unit (hu : ∀ c ∈ unit, c = ' ' ∨ c = '\t') : '#' ∉ unit :=
  fun h => absurd (hu _ h) (by decide)

theorem nested_indentedAt (hu : '#' ∉ unit) {code : Code} (h : code.Each ('#' ∉ ·)) (n : Nat) :
    Nested rule base (code.indentedAt unit n) := by
  apply nested_of_plain
  intro line hl
  obtain ⟨depth, text, ht, rfl⟩ := exists_of_mem_indentedAt hl
  apply ofLine?_of_hash_not_mem
  have htext : '#' ∉ text := h text ht
  simp [Line.indented, hu, htext]

variable {e : Enumeration} (he : e.Avoids '#') (hu : '#' ∉ unit)

include he hu

theorem Declaration.nested_chunk (condition? : Option Text)
    (hrule : ∀ c body, rule (ifLine c) body (endLine c)) :
    Nested rule base ((chunk condition? e).indentedAt unit 0) := by
  have houtside : (.blank ++ body e ++ .blank : Code).Each ('#' ∉ ·) := by
    simpa using not_mem_body he (.inr rfl)
  have hprototypes := not_mem_prototypes he (.inr rfl)
  have htraits : ofLine? (traitsPrototype e ++ ";") = none :=
    ofLine?_of_hash_not_mem (not_mem_traitsPrototype he (.inr rfl))
  rw [indentedAt_chunk]
  refine ((nested_indentedAt hu houtside 0).append ?_).append ?_
  · exact (nested_indentedAt hu hprototypes 0).wrapped (nested_indentedAt hu hprototypes 0) _
      fun c => hrule c _
  · refine nested_flatMap fun table _ => Nested.cons ?_ (ofLine?_of_hash_not_mem List.not_mem_nil)
    have hline : ∀ line ∈ [traitsPrototype e ++ ";"], ofLine? line = none := by
      simpa using htraits
    exact (nested_of_plain hline).wrapped (nested_of_plain hline) _ fun c => hrule c _

theorem Definition.nested_chunk (condition? : Option Text)
    (hrule : ∀ c body, rule (ifLine c) body (endLine c)) :
    Nested rule base ((chunk condition? e).indentedAt unit 0) := by
  have hhelpers := not_mem_helpers he (.inr rfl)
  have hblank : ofLine? [] = none := ofLine?_of_hash_not_mem List.not_mem_nil
  rw [indentedAt_chunk]
  refine Nested.cons (Nested.append ?_ ?_) hblank
  · exact (nested_indentedAt hu hhelpers 0).wrapped (nested_indentedAt hu hhelpers 0) _
      fun c => hrule c _
  · refine nested_flatMap fun table ht => ?_
    have hbody := not_mem_traitsBody he (.inr rfl) (Option.mem_toList.mp ht)
    rw [indentedAt_traits]
    exact ((nested_indentedAt hu hbody 0).wrapped (nested_indentedAt hu hbody 0) _
      fun c => hrule c _).cons hblank

end Plain

/-! ## Heads -/

section Heads

variable (unit : Text) {rule : Text → List Text → Text → Prop} {base : Nat}

theorem ofLine?_guardOpening (token : Text) :
    ofLine? ("#ifndef " ++ includeGuard token) = some .opening := by
  have hline : "#ifndef " ++ includeGuard token =
      '#' :: (['i', 'f', 'n', 'd', 'e', 'f'] ++ ' ' :: includeGuard token) := by
    simp [ofString_eq]
  rw [hline, ofLine?_hash_append (by simp) (List.all_eq_true.mp (by decide))]
  decide +kernel

theorem ofLine?_guardDefinition (token : Text) :
    ofLine? ("#define " ++ includeGuard token) = none := by
  have hline : "#define " ++ includeGuard token =
      '#' :: (['d', 'e', 'f', 'i', 'n', 'e'] ++ ' ' :: includeGuard token) := by
    simp [ofString_eq]
  rw [hline, ofLine?_hash_append (by simp) (List.all_eq_true.mp (by decide))]
  decide +kernel

theorem ofLine?_include (file : Text) : ofLine? ("#include \"" ++ file ++ "\"") = none := by
  have hline : ("#include \"" ++ file ++ "\"" : Text) =
      '#' :: (['i', 'n', 'c', 'l', 'u', 'd', 'e'] ++ ' ' :: ("\"" ++ file ++ "\"")) := by
    simp [ofString_eq]
  rw [hline, ofLine?_hash_append (by simp) (List.all_eq_true.mp (by decide))]
  decide +kernel

theorem ofLine?_marker (token : Text) : ofLine? (markerLead ++ token) = none := by
  have hline : markerLead ++ token = '/' :: ("/ enumg-guard: " ++ token) := by
    simp [markerLead, ofString_eq]
  rw [hline]
  exact ofLine?_cons_of_ne (by decide) (by decide) _

theorem indentedAt_banner (command? : Option Text) :
    (banner command?).indentedAt unit 0 =
      ("// file auto-generated by [" ++ toolName ++ "]") ::
        (command?.toList.map (fun command => ("// command: " ++ command : Text)) ++
          [("// do not edit: regenerate from the description instead" : Text)]) := by
  cases command? with
  | none => rfl
  | some command => rfl

/-- The banner is made of comments, whatever the command is. -/
theorem ofLine?_of_mem_banner {command? : Option Text} {line : Text}
    (h : line ∈ (banner command?).indentedAt unit 0) : ofLine? line = none := by
  have hcomment : ∃ rest, line = '/' :: rest := by
    rw [indentedAt_banner] at h
    simp only [List.mem_cons, List.mem_append, List.mem_map, List.not_mem_nil, or_false] at h
    rcases h with rfl | ⟨command, _, rfl⟩ | rfl <;> simp [ofString_eq]
  obtain ⟨rest, rfl⟩ := hcomment
  exact ofLine?_cons_of_ne (by decide) (by decide) rest

namespace Declaration

variable (d : Description) (token : Text)

theorem indentedAt_head (command? : Option Text) :
    (head d token command?).indentedAt unit 0 =
      (markerLead ++ token) :: ((banner command?).indentedAt unit 0 ++
        ("#ifndef " ++ includeGuard token) :: ("#define " ++ includeGuard token) ::
          (d.top ++ d.includes)) := by
  have hbanner : (banner command?).Steady := by
    simp [banner]
  simp [head, Steady.indentedAt_append, hbanner]

theorem indentedAt_tail :
    (tail d token).indentedAt unit 0 = [] :: (d.bottom ++ [endLine (includeGuard token)]) := by
  simp [tail, Steady.indentedAt_append, endLine]

end Declaration

namespace Definition

theorem indentedAt_head (condition? : Option Text) (file : Text) (command? : Option Text) :
    (head condition? file command?).indentedAt unit 0 =
      (banner command?).indentedAt unit 0 ++ ("#include \"" ++ file ++ "\"") ::
        wrapped id condition? (standardIncludes.indentedAt unit 0) := by
  have hbanner : (banner command?).Steady := by
    simp [banner]
  have hfront : (banner command? ++ .verbatim ("#include \"" ++ file ++ "\"") : Code).Steady :=
    ⟨hbanner, steady_verbatim _⟩
  rw [head, hfront.indentedAt_append, hbanner.indentedAt_append, indentedAt_conditional]
  simp

/-- The includes are indented in the branches of a choice, which has no name at its end. -/
theorem nested_standardIncludes {unit : Text} (hu : ∀ c ∈ unit, isGap c = true) (base : Nat) :
    Nested (ClosesByNameOrIncludes unit) base (standardIncludes.indentedAt unit 0) := by
  have hlines : standardIncludes.indentedAt unit 0 =
      ("#if defined(__cplusplus)" : Text) ::
        ([unit ++ "#include <cstring>", unit ++ "#include <cctype>"] ++
        [("#else" : Text)] ++ [unit ++ "#include <string.h>", unit ++ "#include <ctype.h>"] ++
        [("#endif" : Text)]) := by
    simp [standardIncludes, Code.indentedAt, linesAt, layOut_seq, layOut]
  have hinclude : ∀ line ∈ [("#include <cstring>" : Text), "#include <cctype>",
      "#include <string.h>", "#include <ctype.h>"], ofLine? (unit ++ line) = none := by
    intro line hl
    rw [ofLine?_append_of_gap hu]
    revert line
    decide +kernel
  rw [List.forall_mem_cons, List.forall_mem_cons, List.forall_mem_cons,
    List.forall_mem_singleton] at hinclude
  obtain ⟨hcstring, hcctype, hstring, hctype⟩ := hinclude
  rw [hlines]
  refine Nested.group ?_ (by decide +kernel) (by decide +kernel) fun _ _ => .inr hlines.symm
  refine Nested.append (Nested.append ?_ (nested_branch (by decide +kernel) base.succ_pos)) ?_
  · exact nested_of_plain (by simp [hcstring, hcctype])
  · exact nested_of_plain (by simp [hstring, hctype])

end Definition

end Heads

/-! ## Files -/

/-- An include guard takes in all lines but the first ones, which are no directives. It
starts with the test and the definition of its macro and ends with the last line. -/
def Guarded (token : Text) (lines : List Text) : Prop :=
  ∃ front body,
    lines = front ++ ("#ifndef " ++ includeGuard token) ::
      (("#define " ++ includeGuard token) :: body ++ ["#endif // " ++ includeGuard token]) ∧
    (∀ line ∈ front, ofLine? line = none) ∧
    ClosedBy ("#ifndef " ++ includeGuard token) (("#define " ++ includeGuard token) :: body)
      ("#endif // " ++ includeGuard token) ∧
    ∀ inside rest, body = inside ++ rest →
      1 ≤ depth (front ++ ("#ifndef " ++ includeGuard token) ::
        ("#define " ++ includeGuard token) :: inside)

theorem closesByName_guard (token : Text) (body : List Text) :
    ClosesByName ("#ifndef " ++ includeGuard token) body (endLine (includeGuard token)) := by
  intro c hc
  simp [ifLine, ofString_eq] at hc

namespace Emission

/-- The lines of the declaration file before its include guard. -/
def frontLines (g : Emission) : List Text :=
  (markerLead ++ g.token) :: (banner g.command?).indentedAt g.unit 0

/-- The lines of the declaration file inside its include guard. -/
def guardedLines (g : Emission) : List Text :=
  g.description.top ++ g.description.includes ++
    (g.description.enumerations.flatMap fun e =>
      (Declaration.chunk g.description.condition? e).indentedAt g.unit 0) ++
    [] :: g.description.bottom

variable {g : Emission}

theorem lines_declaration_eq_guarded (h : g.SingleLine) (hu : '\n' ∉ g.unit) :
    Text.lines g.declaration =
      g.frontLines ++ ("#ifndef " ++ includeGuard g.token) ::
        (("#define " ++ includeGuard g.token) :: g.guardedLines ++
          [endLine (includeGuard g.token)]) := by
  rw [lines_declaration h hu, Declaration.indentedAt_head, Declaration.indentedAt_tail]
  simp [frontLines, guardedLines]

theorem ofLine?_of_mem_frontLines : ∀ line ∈ g.frontLines, ofLine? line = none :=
  List.forall_mem_cons.mpr ⟨ofLine?_marker _, fun _ => ofLine?_of_mem_banner g.unit⟩

section Nested

variable (hu : ∀ c ∈ g.unit, c = ' ' ∨ c = '\t')
  (hhash : ∀ e ∈ g.description.enumerations, e.Avoids '#')

include hu hhash

theorem nested_guardedLines
    (hverbatim : ∀ line ∈ g.description.top ++ g.description.bottom ++ g.description.includes,
      ofLine? line = none) (base : Nat) : Nested ClosesByName base g.guardedLines := by
  simp only [List.mem_append, or_imp, forall_and] at hverbatim
  obtain ⟨⟨htop, hbottom⟩, hincludes⟩ := hverbatim
  refine Nested.append (Nested.append (Nested.append ?_ ?_) ?_) (Nested.cons ?_ ?_)
  · exact nested_of_plain htop
  · exact nested_of_plain hincludes
  · exact nested_flatMap fun e he =>
      Declaration.nested_chunk (hhash e he) (hash_not_mem_unit hu) _ closesByName_endLine
  · exact nested_of_plain hbottom
  · exact ofLine?_of_hash_not_mem List.not_mem_nil

theorem nested_definition (h : g.SingleLine) :
    Nested (ClosesByNameOrIncludes g.unit) 0 (Text.lines g.definition) := by
  have hline : '\n' ∉ g.unit := fun hmem => absurd (hu _ hmem) (by decide)
  have hgap : ∀ c ∈ g.unit, isGap c = true := by
    intro c hc
    rcases hu c hc with rfl | rfl <;> decide
  have hincludes := Definition.nested_standardIncludes hgap
  rw [lines_definition h hline, Definition.indentedAt_head]
  refine Nested.append (Nested.append ?_ (Nested.cons ?_ (ofLine?_include _))) ?_
  · exact nested_of_plain fun line => ofLine?_of_mem_banner g.unit
  · exact (hincludes 0).wrapped (hincludes 1) _ fun c =>
      closesByNameOrIncludes_endLine g.unit c _
  · exact nested_flatMap fun e he =>
      Definition.nested_chunk (hhash e he) (hash_not_mem_unit hu) _
        (closesByNameOrIncludes_endLine g.unit)

/-- The conditionals of both files are nested, and the include guard takes in all of the
declaration file but its marker and banner. -/
theorem conditionals_nested (h : g.SingleLine)
    (hverbatim : ∀ line ∈ g.description.top ++ g.description.bottom ++ g.description.includes,
      ofLine? line = none) :
    Nested ClosesByName 0 (Text.lines g.declaration) ∧
      Nested (ClosesByNameOrIncludes g.unit) 0 (Text.lines g.definition) ∧
      Guarded g.token (Text.lines g.declaration) := by
  have hline : '\n' ∉ g.unit := fun hmem => absurd (hu _ hmem) (by decide)
  have hinside := nested_guardedLines hu hhash hverbatim 1
  have hbody := hinside.cons (ofLine?_guardDefinition g.token)
  have hfront : ∀ line ∈ g.frontLines, ofLine? line = none := ofLine?_of_mem_frontLines
  refine ⟨?_, nested_definition hu hhash h, ?_⟩
  · rw [lines_declaration_eq_guarded h hline]
    exact (nested_of_plain hfront).append <|
      hbody.group (ofLine?_guardOpening _) (ofLine?_endLine _) (closesByName_guard _ _)
  · refine ⟨_, _, lines_declaration_eq_guarded h hline, hfront, ?_, ?_⟩
    · exact hbody.closedBy (ofLine?_guardOpening _) (ofLine?_endLine _)
    · intro inside rest he
      have hnonneg := hinside.depth_nonneg inside rest he
      simp only [depth_append, depth_eq_zero_of_plain hfront, depth_cons, ofLine?_guardOpening,
        ofLine?_guardDefinition, change]
      omega

end Nested

/-- Two conditions with one name between lines of the user, one of which is a directive that
opens nothing. -/
theorem conditionals_nested_traits :
    let e : Enumeration :=
      { name := "E", traitsType? := some "T", traitsCondition? := some "M"
        entries := [.ofText "A = 1 (x)", .ofText "\"B\""] }
    let g : Emission :=
      { description :=
          { condition? := some "M", top := ["#pragma once"], bottom := ["// #endif"]
            includes := ["#include \"b.h\""], enumerations := [e, { name := "F" }] }
        token := "e", title := "e", command? := some "enumg # e", unit := [' ', '\t'] }
    g.SingleLine ∧ (∀ c ∈ g.unit, c = ' ' ∨ c = '\t') ∧
      (∀ e ∈ g.description.enumerations, e.Avoids '#') ∧
      (∀ line ∈ g.description.top ++ g.description.bottom ++ g.description.includes,
        ofLine? line = none) ∧
      Nested ClosesByName 0 (Text.lines g.declaration) ∧
      Nested (ClosesByNameOrIncludes g.unit) 0 (Text.lines g.definition) ∧
      Guarded g.token (Text.lines g.declaration) := by
  intro e g
  have h : g.SingleLine :=
    ⟨by decide +kernel, by decide +kernel, by decide +kernel, by decide +kernel⟩
  have hu : ∀ c ∈ g.unit, c = ' ' ∨ c = '\t' := by simp [g]
  have hhash : ∀ e ∈ g.description.enumerations, e.Avoids '#' := by
    refine List.forall_mem_cons.mpr ⟨?_, List.forall_mem_singleton.mpr ?_⟩
    all_goals
      exact ⟨by decide +kernel, by decide +kernel, by decide +kernel, by decide +kernel⟩
  have hverbatim : ∀ line ∈ g.description.top ++ g.description.bottom ++ g.description.includes,
      ofLine? line = none := by decide +kernel
  exact ⟨h, hu, hhash, hverbatim, conditionals_nested hu hhash h hverbatim⟩

end Emission

end EnumCodegen
