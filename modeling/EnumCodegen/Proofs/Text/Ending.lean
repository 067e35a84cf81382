import EnumCodegen.Text.Basic
import Mathlib.Data.List.Basic

/-! # How texts end

Texts that end unlike differ, whatever stands in front. Generated lines are kept apart in
this way: names come from outside, and only the ends of the lines are fixed. -/

namespace EnumCodegen.Text

/-- Two ends of which neither is an end of the other. -/
def EndsUnlike (s t : Text) : Prop := ¬ s <:+ t ∧ ¬ t <:+ s

instance (s t : Text) : Decidable (EndsUnlike s t) := inferInstanceAs (Decidable (_ ∧ _))

theorem append_ne_append_of_endsUnlike {s t : Text} (h : EndsUnlike s t) (front front' : Text) :
    front ++ s ≠ front' ++ t := by
  intro he
  have hs : s <:+ front' ++ t := he ▸ List.suffix_append front s
  rcases List.suffix_or_suffix_of_suffix hs (List.suffix_append front' t) with hst | hts
  · exact h.1 hst
  · exact h.2 hts

theorem EndsUnlike.append {s t : Text} (h : EndsUnlike s t) (front : Text) :
    EndsUnlike s (front ++ t) := by
  refine ⟨?_, fun hs => h.2 ((List.suffix_append front t).trans hs)⟩
  rintro ⟨rest, hrest⟩
  exact append_ne_append_of_endsUnlike h rest front hrest

section Literals

variable {s t : String} (front front' : Text)

theorem literal_ne_literal (h : s.toList ≠ t.toList) : ofString s ≠ ofString t := by
  rwa [ofString_eq, ofString_eq]

theorem literal_ne_append (h : ¬ t.toList <:+ s.toList) : ofString s ≠ front ++ ofString t := by
  rw [ofString_eq, ofString_eq]
  intro he
  exact h ⟨front, he.symm⟩

theorem append_ne_literal (h : ¬ s.toList <:+ t.toList) : front ++ ofString s ≠ ofString t :=
  (literal_ne_append front h).symm

theorem append_ne_append (h : EndsUnlike s.toList t.toList) :
    front ++ ofString s ≠ front' ++ ofString t := by
  rw [ofString_eq, ofString_eq]
  exact append_ne_append_of_endsUnlike h front front'

theorem endsUnlike_literal (h : EndsUnlike s.toList t.toList) :
    EndsUnlike (ofString s) (ofString t) := by
  rwa [ofString_eq, ofString_eq]

theorem endsUnlike_append_literal (h : EndsUnlike s.toList t.toList) :
    EndsUnlike (ofString s) (front ++ ofString t) :=
  (endsUnlike_literal h).append front

theorem literal_ne_nil (h : s.toList ≠ []) : ofString s ≠ [] := by
  rwa [ofString_eq]

theorem append_literal_ne_nil (h : s.toList ≠ []) : front ++ ofString s ≠ [] :=
  List.append_ne_nil_of_right_ne_nil front (literal_ne_nil h)

theorem not_mem_literal {c : Char} (h : c ∉ s.toList) : c ∉ ofString s := by
  rwa [ofString_eq]

end Literals

end EnumCodegen.Text
