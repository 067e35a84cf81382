import EnumCodegen.Proofs.Code.Wrapping
import EnumCodegen.Proofs.Emission.Parts

/-! # Conditions are wrappers

The condition of a description and that of the traits of an enumeration decide about two
lines around the code that they cover, and about nothing else in the two files. -/

namespace EnumCodegen

open Text Code

/-! ## Settings -/

def Emission.withCondition (g : Emission) (condition? : Option Text) : Emission :=
  { g with description := { g.description with condition? := condition? } }

def Enumeration.withTraitsCondition (e : Enumeration) (condition? : Option Text) : Enumeration :=
  { e with traitsCondition? := condition? }

def Emission.withTraitsCondition (g : Emission) (k : Nat) (condition? : Option Text) : Emission :=
  { g with
    description :=
      { g.description with
        enumerations := g.description.enumerations.modify k (·.withTraitsCondition condition?) } }

/-- How many conditions stand around the traits of an enumeration in a file. -/
def Enumeration.traitsConditions (e : Enumeration) : Nat := if e.traitsType? = none then 0 else 1

/-! ## Files as they are read back -/

theorem Declaration.readLines_chunk (condition? : Option Text) (e : Enumeration) (unit : Text) :
    (chunk condition? e).readLines unit =
      (.blank ++ body e ++ .blank : Code).readLines unit ++
        (conditional condition? (prototypes e)).readLines unit ++
        e.traitsTable?.toList.flatMap fun table => (traits e table).readLines unit := by
  have houtside : (.blank ++ body e ++ .blank : Code).Steady := by
    simp [body]
  have hfront : (.blank ++ body e ++ .blank ++
      .conditional condition? (prototypes e) : Code).Steady := by
    simp [body, prototypes]
  have htraits : ∀ table, (traits e table).Steady := by
    simp [traits]
  rw [chunk, hfront.balanced.readLines_append, houtside.balanced.readLines_append,
    readLines_all_map unit htraits]

theorem Definition.readLines_chunk (condition? : Option Text) (e : Enumeration) (unit : Text) :
    (chunk condition? e).readLines unit =
      readLines unit .blank ++ (conditional condition? (helpers e)).readLines unit ++
        e.traitsTable?.toList.flatMap fun table => (traits e table).readLines unit := by
  have hfront : (.blank ++ .conditional condition? (helpers e) : Code).Steady :=
    ⟨steady_blank, steady_helpers e⟩
  rw [chunk, hfront.balanced.readLines_append, steady_blank.balanced.readLines_append,
    readLines_all_map unit (steady_traits e)]

theorem Declaration.readLines_code (d : Description) (token : Text) (command? : Option Text)
    (unit : Text) :
    (code d token command?).readLines unit =
      (head d token command?).readLines unit ++
        (d.enumerations.flatMap fun e => (chunk d.condition? e).readLines unit) ++
        (tail d token).readLines unit := by
  have hhead := steady_head d token command?
  have hchunk := steady_chunk d.condition?
  have hfront : (head d token command? ++
      .all (d.enumerations.map (chunk d.condition?))).Steady := by
    simp [hhead, hchunk]
  rw [code, hfront.balanced.readLines_append, hhead.balanced.readLines_append,
    readLines_all_map unit hchunk]

theorem Definition.readLines_code (d : Description) (declarationFile : Text)
    (command? : Option Text) (unit : Text) :
    (code d declarationFile command?).readLines unit =
      (head d.condition? declarationFile command?).readLines unit ++
        d.enumerations.flatMap fun e => (chunk d.condition? e).readLines unit := by
  have hhead := balanced_head d.condition? declarationFile command?
  rw [code, hhead.readLines_append, readLines_all_map unit (steady_chunk d.condition?)]

/-! ## A condition that is set -/

section Wrapped

variable {c : Text} {plain? : Option Text} (hne : c ≠ []) (hline : '\n' ∉ c)
  (hplain : tested? plain? = none) (unit : Text)

include hne hline hplain

theorem wraps_conditional (body : Code) :
    Wraps c 1 ((conditional plain? body).readLines unit)
      ((conditional (some c) body).readLines unit) := by
  rw [readLines_conditional_of_none unit hplain, readLines_conditional_some unit hne hline]
  exact .around _

theorem Declaration.wraps_chunk (e : Enumeration) :
    Wraps c 1 ((chunk plain? e).readLines unit) ((chunk (some c) e).readLines unit) := by
  rw [readLines_chunk, readLines_chunk]
  exact ((wraps_conditional hne hline hplain unit _).same_append _).append_same _

theorem Definition.wraps_chunk (e : Enumeration) :
    Wraps c 1 ((chunk plain? e).readLines unit) ((chunk (some c) e).readLines unit) := by
  rw [readLines_chunk, readLines_chunk]
  exact ((wraps_conditional hne hline hplain unit _).same_append _).append_same _

theorem Definition.wraps_head (declarationFile : Text) (command? : Option Text) :
    Wraps c 1 ((head plain? declarationFile command?).readLines unit)
      ((head (some c) declarationFile command?).readLines unit) := by
  have hfront : (banner command? ++
      .verbatim ("#include \"" ++ declarationFile ++ "\"")).Steady := by
    simp [banner]
  rw [head, head, hfront.balanced.readLines_append, hfront.balanced.readLines_append]
  exact (wraps_conditional hne hline hplain unit _).same_append _

theorem wraps_traits {e : Enumeration} {traits : Enumeration → TraitsTable → Code}
    (body : Text → List TraitsRow → Code)
    (h : ∀ condition? typeName rows,
      traits (e.withTraitsCondition condition?) ⟨typeName, condition?, rows⟩ =
        .blank ++ .conditional condition? (body typeName rows)) :
    Wraps c e.traitsConditions
      ((e.withTraitsCondition plain?).traitsTable?.toList.flatMap fun table =>
        (traits (e.withTraitsCondition plain?) table).readLines unit)
      ((e.withTraitsCondition (some c)).traitsTable?.toList.flatMap fun table =>
        (traits (e.withTraitsCondition (some c)) table).readLines unit) := by
  cases ht : e.traitsType? with
  | none =>
      simp only [Enumeration.traitsConditions, Enumeration.traitsTable?,
        Enumeration.withTraitsCondition, ht, if_true]
      exact .same []
  | some typeName =>
      have htable : ∀ condition?, (e.withTraitsCondition condition?).traitsTable? =
          some ⟨typeName, condition?, e.entries.filterMap Entry.traitsRow?⟩ := by
        simp [Enumeration.traitsTable?, Enumeration.withTraitsCondition, ht]
      have hone : e.traitsConditions = 1 := by simp [Enumeration.traitsConditions, ht]
      simp only [hone, htable, Option.toList_some, List.flatMap_singleton]
      rw [h, h, steady_blank.balanced.readLines_append, steady_blank.balanced.readLines_append]
      exact (wraps_conditional hne hline hplain unit _).same_append _

theorem Declaration.wraps_chunk_traits (condition? : Option Text) (e : Enumeration) :
    Wraps c e.traitsConditions
      ((chunk condition? (e.withTraitsCondition plain?)).readLines unit)
      ((chunk condition? (e.withTraitsCondition (some c))).readLines unit) := by
  rw [readLines_chunk, readLines_chunk]
  refine (wraps_traits hne hline hplain unit (fun _ _ => .line (traitsPrototype e ++ ";")) ?_
    ).same_append _
  exact fun _ _ _ => rfl

theorem Definition.wraps_chunk_traits (condition? : Option Text) (e : Enumeration) :
    Wraps c e.traitsConditions
      ((chunk condition? (e.withTraitsCondition plain?)).readLines unit)
      ((chunk condition? (e.withTraitsCondition (some c))).readLines unit) := by
  rw [readLines_chunk, readLines_chunk]
  refine (wraps_traits hne hline hplain unit
    (fun typeName rows => traitsBody e ⟨typeName, none, rows⟩) ?_).same_append _
  exact fun _ _ _ => rfl

end Wrapped

/-! ## Files -/

namespace Emission

/-- A condition that is set adds nothing but its two lines: in a declaration file around the
helpers of every enumeration, in a definition file also around the standard includes. A
condition that is set for the traits of one enumeration adds its two lines around them. -/
theorem sameButCondition (g : Emission) {c : Text} (hne : c ≠ []) (hline : '\n' ∉ c)
    {plain? : Option Text} (hplain : plain? = none ∨ plain? = some []) :
    SameButCondition c g.description.enumerations.length
        (g.withCondition plain?).declaration (g.withCondition (some c)).declaration ∧
      SameButCondition c (g.description.enumerations.length + 1)
        (g.withCondition plain?).definition (g.withCondition (some c)).definition ∧
      ∀ (k : Nat) (e : Enumeration), g.description.enumerations[k]? = some e →
        SameButCondition c e.traitsConditions
            (g.withTraitsCondition k plain?).declaration
            (g.withTraitsCondition k (some c)).declaration ∧
          SameButCondition c e.traitsConditions
            (g.withTraitsCondition k plain?).definition
            (g.withTraitsCondition k (some c)).definition := by
  have htested : tested? plain? = none := by
    rcases hplain with rfl | rfl
    · rfl
    · rfl
  refine ⟨Wraps.render ?_, Wraps.render ?_, fun k e he =>
    ⟨Wraps.render ?_, Wraps.render ?_⟩⟩
  · have hchunks := Wraps.flatMap fun e (_ : e ∈ g.description.enumerations) =>
      Declaration.wraps_chunk hne hline htested g.unit e
    rw [Declaration.readLines_code, Declaration.readLines_code, ← Nat.mul_one (List.length _)]
    exact (hchunks.same_append _).append_same _
  · have hchunks := Wraps.flatMap fun e (_ : e ∈ g.description.enumerations) =>
      Definition.wraps_chunk hne hline htested g.unit e
    have hhead := Definition.wraps_head hne hline htested g.unit g.declarationFile g.command?
    rw [Definition.readLines_code, Definition.readLines_code, ← Nat.mul_one (List.length _),
      Nat.add_comm]
    exact hhead.append hchunks
  · rw [Declaration.readLines_code, Declaration.readLines_code]
    refine ((Wraps.flatMap_modify he ?_).same_append _).append_same _
    exact Declaration.wraps_chunk_traits hne hline htested g.unit g.description.condition? e
  · rw [Definition.readLines_code, Definition.readLines_code]
    refine (Wraps.flatMap_modify he ?_).same_append _
    exact Definition.wraps_chunk_traits hne hline htested g.unit g.description.condition? e

/-- One name for both conditions, in a file that ends like one of them. -/
theorem sameButCondition_sameName :
    let g : Emission :=
      { description :=
          { bottom := ["#endif // M"]
            enumerations :=
              [{ name := "E", traitsType? := some "T", traitsCondition? := some "M"
                 entries := [.ofText "A (1)"] },
                { name := "F", entries := [.ofText "B"] }] }
        token := "e", title := "e" }
    let m : Text := "M"
    m ≠ [] ∧ '\n' ∉ m ∧
      SameButCondition m 2 (g.withCondition none).declaration
        (g.withCondition (some m)).declaration ∧
      SameButCondition m 3 (g.withCondition none).definition
        (g.withCondition (some m)).definition ∧
      SameButCondition m 1 (g.withTraitsCondition 0 (some [])).definition
        (g.withTraitsCondition 0 (some m)).definition ∧
      SameButCondition m 0 (g.withTraitsCondition 1 (some [])).definition
        (g.withTraitsCondition 1 (some m)).definition := by
  intro g m
  have hne : m ≠ [] := by decide +kernel
  have hline : '\n' ∉ m := by decide +kernel
  obtain ⟨hdeclaration, hdefinition, -⟩ := g.sameButCondition hne hline (.inl rfl)
  obtain ⟨-, -, htraits⟩ := g.sameButCondition hne hline (.inr rfl)
  exact ⟨hne, hline, hdeclaration, hdefinition, (htraits 0 _ rfl).2, (htraits 1 _ rfl).2⟩

end Emission

end EnumCodegen
