import EnumCodegen.Emission.Definition
import EnumCodegen.Proofs.Text.Ending

/-! # Signatures

The helpers of an enumeration have different signatures, and no other line before a brace
reads like one of them. What a name adds to the lines is kept apart by their ends. -/

namespace EnumCodegen

open Text

theorem Helper.mem_all (h : Helper) : h ∈ all := by
  cases h <;> decide

/-- How the signature of a helper ends, whatever the enumeration. -/
def Helper.ending : Helper → String
  | .toString | .toIndex => " value)"
  | .fromString => " *presult, int ignoreCase, unsigned ignorePrefixLen)"
  | .valueCount => "(void)"
  | .fromIndex => "(unsigned index)"
  | .getTraits => " *defaultTraits)"

/-- All helpers but two end unlike each other. -/
theorem Helper.endsUnlike_ending {h h' : Helper} (hne : h ≠ h') :
    EndsUnlike h.ending.toList h'.ending.toList ∨
      (h, h') = (.toString, .toIndex) ∨ (h, h') = (.toIndex, .toString) := by
  have hall : ∀ h ∈ all, ∀ h' ∈ all, h ≠ h' → EndsUnlike h.ending.toList h'.ending.toList ∨
      (h, h') = (.toString, .toIndex) ∨ (h, h') = (.toIndex, .toString) := by
    decide +kernel
  exact hall h h.mem_all h' h'.mem_all hne

namespace Enumeration

variable (e : Enumeration)

theorem ending_suffix_signature (h : Helper) : ofString h.ending <:+ e.signature h := by
  cases h <;> exact List.suffix_append _ _

theorem paren_suffix_signature (h : Helper) : (")" : Text) <:+ e.signature h := by
  refine List.IsSuffix.trans ?_ (e.ending_suffix_signature h)
  cases h <;> decide +kernel

theorem signature_toString_ne_toIndex : e.signature .toString ≠ e.signature .toIndex := by
  intro he
  have hhead := congrArg List.head? he
  simp [signature, ofString_eq] at hhead

theorem signature_inj {h h' : Helper} : e.signature h = e.signature h' ↔ h = h' := by
  refine ⟨fun he => ?_, congrArg _⟩
  by_contra hne
  rcases Helper.endsUnlike_ending hne with hends | hpair | hpair
  · obtain ⟨front, hf⟩ := e.ending_suffix_signature h
    obtain ⟨front', hf'⟩ := e.ending_suffix_signature h'
    exact append_ne_append front front' hends (hf.trans (he.trans hf'.symm))
  · obtain ⟨rfl, rfl⟩ := Prod.mk.inj hpair
    exact e.signature_toString_ne_toIndex he
  · obtain ⟨rfl, rfl⟩ := Prod.mk.inj hpair
    exact e.signature_toString_ne_toIndex he.symm

section Differences

variable {e} {s : String} {h : Helper} (front : Text)

theorem literal_ne_signature (hs : ∀ h ∈ Helper.all, ¬ h.ending.toList <:+ s.toList) :
    ofString s ≠ e.signature h := by
  intro he
  have hsuffix := e.ending_suffix_signature h
  rw [← he, ofString_eq, ofString_eq] at hsuffix
  exact hs h h.mem_all hsuffix

theorem append_ne_signature (hs : ∀ h ∈ Helper.all, EndsUnlike s.toList h.ending.toList) :
    front ++ ofString s ≠ e.signature h := by
  obtain ⟨front', he⟩ := e.ending_suffix_signature h
  rw [← he]
  exact append_ne_append _ _ (hs h h.mem_all)

/-- A test of a table against a value ends like a signature, and starts unlike all of them. -/
theorem if_ne_signature (hs : EndsUnlike s.toList "(unsigned index)".toList) :
    "if (" ++ front ++ ofString s ≠ e.signature h := by
  cases h with
  | fromIndex => exact append_ne_append _ _ hs
  | toString | fromString | valueCount | toIndex | getTraits => simp [signature, ofString_eq]

end Differences

/-- The declaration of the traits lookup adds a default to its signature, and that alone. -/
theorem traitsPrototype_eq :
    ∃ front, Declaration.traitsPrototype e = front ++ " = 0)" ∧
      e.signature .getTraits = front ++ ")" := by
  refine ⟨"const " ++ e.traitsType?.getD "void" ++ " *" ++ Helper.name .getTraits e.name ++ "(" ++
    e.name ++ " value, const " ++ e.traitsType?.getD "void" ++ " *defaultTraits", ?_, ?_⟩
  · rw [Declaration.traitsPrototype, List.append_assoc _ (ofString " *defaultTraits")]
    congr 1
    decide +kernel
  · rw [signature, List.append_assoc _ (ofString " *defaultTraits")]
    congr 1
    decide +kernel

theorem traitsPrototype_ne_signature (h : Helper) :
    Declaration.traitsPrototype e ≠ e.signature h := by
  obtain ⟨front, he, -⟩ := e.traitsPrototype_eq
  rw [he]
  exact append_ne_signature front (by decide)

theorem paren_suffix_traitsPrototype : (")" : Text) <:+ Declaration.traitsPrototype e := by
  obtain ⟨front, he, -⟩ := e.traitsPrototype_eq
  rw [he]
  exact List.IsSuffix.trans (by decide +kernel) (List.suffix_append _ _)

end Enumeration

end EnumCodegen
