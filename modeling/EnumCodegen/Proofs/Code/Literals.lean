import EnumCodegen.Code.StringLiteral
import Mathlib.Data.List.Basic

/-! # Where a string literal ends

A backslash escapes the character behind it, unless it is escaped itself. A literal ends at
the first quote that is not escaped, and what stands between its quotes spells its text,
whatever is written behind it. -/

namespace EnumCodegen.StringLiteral

/-! ## Escapes by their positions -/

/-- The character at a position stands behind a backslash that is not escaped itself. -/
def Escaped (text : Text) : Nat → Prop
  | 0 => False
  | i + 1 => text[i]? = some '\\' ∧ ¬ Escaped text i

instance decidableEscaped (text : Text) : (i : Nat) → Decidable (Escaped text i)
  | 0 => inferInstanceAs (Decidable False)
  | i + 1 =>
    have := decidableEscaped text i
    inferInstanceAs (Decidable (_ ∧ ¬ Escaped text i))

/-- A quote that ends a literal: the first one behind the opening quote that is not escaped. -/
structure ClosesAt (text : Text) (i : Nat) : Prop where
  opened : 0 < i
  quote : text[i]? = some '"'
  free : ¬ Escaped text i
  first : ∀ j, 0 < j → j < i → text[j]? = some '"' → Escaped text j

theorem ClosesAt.unique {text : Text} {i j : Nat} (hi : ClosesAt text i) (hj : ClosesAt text j) :
    i = j := by
  rcases Nat.lt_trichotomy i j with hlt | heq | hlt
  · exact absurd (hj.first i hi.opened hlt hi.quote) hi.free
  · exact heq
  · exact absurd (hi.first j hj.opened hlt hj.quote) hj.free

/-! ## Escapes resolved -/

/-- What stands between the quotes of a literal, and the text it spells: an escape spells the
quote or the backslash that is escaped, and any other character spells itself. -/
inductive Spells : Text → Text → Prop where
  | nil : Spells [] []
  | escaped {c body text} (hc : c = '"' ∨ c = '\\') (h : Spells body text) :
      Spells ('\\' :: c :: body) (c :: text)
  | plain {c body text} (hc : ¬ (c = '"' ∨ c = '\\')) (h : Spells body text) :
      Spells (c :: body) (c :: text)

variable {body text input literal : Text}

theorem spells_escape (text : Text) : Spells (text.flatMap escape) text := by
  induction text with
  | nil => exact .nil
  | cons c text ih =>
      rw [List.flatMap_cons, escape]
      split
      · rename_i hc
        exact .escaped hc ih
      · rename_i hc
        exact .plain hc ih

theorem Spells.eq_flatMap_escape (h : Spells body text) : body = text.flatMap escape := by
  induction h with
  | nil => rfl
  | escaped hc h ih => rw [List.flatMap_cons, escape, if_pos hc, ← ih]; rfl
  | plain hc h ih => rw [List.flatMap_cons, escape, if_neg hc, ← ih]; rfl

/-- A scan reads what a body spells, up to the quote behind it. -/
theorem Spells.scan_eq (h : Spells body text) (after : Text) :
    scan (body ++ '"' :: after) = some (text, after) := by
  rw [h.eq_flatMap_escape, scan_encode]

theorem Spells.unique {other : Text} (h : Spells body text) (h' : Spells body other) :
    text = other := by
  have he := (h.scan_eq []).symm.trans (h'.scan_eq [])
  cases he
  rfl

/-- A scan reads nothing but a body and the quote behind it. -/
theorem exists_spells_of_scan {after : Text} (h : scan input = some (text, after)) :
    ∃ body, input = body ++ '"' :: after ∧ Spells body text := by
  fun_induction scan input generalizing text with
  | case1 => cases h
  | case2 rest =>
      cases h
      exact ⟨[], rfl, .nil⟩
  | case3 c rest hc ih =>
      obtain ⟨⟨read, left⟩, hscan, he⟩ := Option.map_eq_some_iff.mp h
      cases he
      obtain ⟨body, rfl, hs⟩ := ih hscan
      exact ⟨'\\' :: c :: body, rfl, .escaped hc hs⟩
  | case4 => cases h
  | case5 c rest hquote hback ih =>
      obtain ⟨⟨read, left⟩, hscan, he⟩ := Option.map_eq_some_iff.mp h
      cases he
      -- a backslash at the very end escapes nothing and is refused
      have hc : c ≠ '\\' := by
        rintro rfl
        cases rest with
        | nil => cases hscan
        | cons c rest => exact hback c rest rfl rfl
      obtain ⟨body, rfl, hs⟩ := ih hscan
      exact ⟨c :: body, rfl, .plain (not_or.mpr ⟨hquote, hc⟩) hs⟩

/-- A literal spells a text just when it is the one that is written for it. -/
theorem decode?_eq_some_iff : decode? literal = some text ↔ literal = encode text := by
  constructor
  · intro h
    unfold decode? at h
    split at h
    · rename_i rest
      split at h
      · rename_i read hscan
        obtain rfl := Option.some.inj h
        obtain ⟨body, rfl, hs⟩ := exists_spells_of_scan hscan
        rw [hs.eq_flatMap_escape]
        rfl
      · cases h
    · cases h
  · rintro rfl
    exact decode?_encode text

theorem encode_injective {other : Text} (h : encode text = encode other) : text = other := by
  have he := decode?_encode other
  rw [← h, decode?_encode] at he
  exact Option.some.inj he

/-! ## The end of a literal -/

theorem getElem?_of_drop {whole rest : Text} {i : Nat} {c : Char} (h : whole.drop i = c :: rest) :
    whole[i]? = some c ∧ whole.drop (i + 1) = rest := by
  rw [← List.head?_drop, ← List.tail_drop, h]
  exact ⟨rfl, rfl⟩

/-- Read from a position that is not escaped, a body escapes each of its quotes and nothing
behind it. -/
theorem Spells.quotes_escaped (h : Spells body text) {whole after : Text} {i : Nat}
    (hbody : whole.drop i = body ++ after) (hfree : ¬ Escaped whole i) :
    ¬ Escaped whole (i + body.length) ∧
      ∀ j, i ≤ j → j < i + body.length → whole[j]? = some '"' → Escaped whole j := by
  induction h generalizing i with
  | nil => exact ⟨hfree, fun j hj hlt => absurd hlt (Nat.not_lt.mpr hj)⟩
  | @escaped c body text hc h ih =>
      obtain ⟨hback, hrest⟩ := getElem?_of_drop hbody
      obtain ⟨-, hrest⟩ := getElem?_of_drop hrest
      have hpair : Escaped whole (i + 1) := ⟨hback, hfree⟩
      obtain ⟨hend, hquotes⟩ := ih hrest fun he => he.2 hpair
      rw [List.length_cons, List.length_cons,
        show i + (body.length + 1 + 1) = i + 1 + 1 + body.length by omega]
      refine ⟨hend, fun j hj hlt hq => ?_⟩
      rcases Nat.lt_trichotomy j (i + 1) with hbefore | rfl | hbehind
      · obtain rfl : j = i := by omega
        rw [hback] at hq
        cases hq
      · exact hpair
      · exact hquotes j hbehind hlt hq
  | @plain c body text hc h ih =>
      rw [not_or] at hc
      obtain ⟨hchar, hrest⟩ := getElem?_of_drop hbody
      have hnext : ¬ Escaped whole (i + 1) := by
        rintro ⟨hback, -⟩
        rw [hchar] at hback
        exact hc.2 (Option.some.inj hback)
      obtain ⟨hend, hquotes⟩ := ih hrest hnext
      rw [List.length_cons, show i + (body.length + 1) = i + 1 + body.length by omega]
      refine ⟨hend, fun j hj hlt hq => ?_⟩
      rcases Nat.eq_or_lt_of_le hj with rfl | hbehind
      · rw [hchar] at hq
        exact absurd (Option.some.inj hq) hc.1
      · exact hquotes j hbehind hlt hq

/-- A literal ends at its last quote, whatever is written behind it. -/
theorem closesAt_encode_append_iff (text rest : Text) (i : Nat) :
    ClosesAt (encode text ++ rest) i ↔ i + 1 = (encode text).length := by
  have hlength : (encode text).length = 1 + (text.flatMap escape).length + 1 := by
    simp [encode, Nat.add_comm]
  have hwhole : (encode text ++ rest).drop 1 = text.flatMap escape ++ '"' :: rest := by
    simp [encode]
  have hopening : ¬ Escaped (encode text ++ rest) 1 := by
    rintro ⟨hback, -⟩
    simp [encode] at hback
  obtain ⟨hfree, hquotes⟩ := (spells_escape text).quotes_escaped hwhole hopening
  have hquote : (encode text ++ rest)[1 + (text.flatMap escape).length]? = some '"' := by
    rw [← List.getElem?_drop, hwhole]
    simp
  have hcloses : ClosesAt (encode text ++ rest) (1 + (text.flatMap escape).length) :=
    ⟨by omega, hquote, hfree, hquotes⟩
  rw [hlength, Nat.add_right_cancel_iff]
  constructor
  · exact fun h => h.unique hcloses
  · rintro rfl
    exact hcloses

end EnumCodegen.StringLiteral
