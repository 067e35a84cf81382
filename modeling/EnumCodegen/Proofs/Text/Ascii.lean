import EnumCodegen.Text.Utf8.RoundTrip

/-! # ASCII in text and in bytes

A character of ASCII is one byte, and no byte of another character is one of ASCII. What
bytes below 0x80 say about a text can so be read off its characters. -/

namespace EnumCodegen.Utf8

theorem encodeChar_of_lt {c : Char} (h : c.toNat < 0x80) :
    encodeChar c = [UInt8.ofNat c.toNat] := by
  simp [encodeChar, h]

theorem le_of_mem_encodeChar {c : Char} {b : UInt8} (h : 0x80 ≤ c.toNat) (hb : b ∈ encodeChar c) :
    0x80 ≤ b.toNat := by
  have hv := toNat_bounds c
  unfold encodeChar at hb
  generalize c.toNat = v at hv h hb
  simp only [if_neg (show ¬ v < 0x80 by omega)] at hb
  split at hb
  · simp only [List.mem_cons, List.not_mem_nil, or_false] at hb
    rcases hb with rfl | rfl <;> rw [UInt8.toNat_ofNat'] <;> omega
  split at hb
  · simp only [List.mem_cons, List.not_mem_nil, or_false] at hb
    rcases hb with rfl | rfl | rfl <;> rw [UInt8.toNat_ofNat'] <;> omega
  · simp only [List.mem_cons, List.not_mem_nil, or_false] at hb
    rcases hb with rfl | rfl | rfl | rfl <;> rw [UInt8.toNat_ofNat'] <;> omega

theorem ofNat_mem_encodeChar_iff {a : Char} (ha : a.toNat < 0x80) (c : Char) :
    UInt8.ofNat a.toNat ∈ encodeChar c ↔ c = a := by
  by_cases hc : c.toNat < 0x80
  · rw [encodeChar_of_lt hc, List.mem_singleton]
    constructor
    · intro h
      have hn := congrArg UInt8.toNat h
      rw [UInt8.toNat_ofNat', UInt8.toNat_ofNat'] at hn
      rw [← Char.ofNat_toNat c, ← Char.ofNat_toNat a, show c.toNat = a.toNat by omega]
    · rintro rfl
      rfl
  · have hne : c ≠ a := by
      rintro rfl
      exact hc ha
    refine iff_of_false (fun hmem => ?_) hne
    have hle := le_of_mem_encodeChar (Nat.le_of_not_lt hc) hmem
    rw [UInt8.toNat_ofNat'] at hle
    omega

/-- A character of ASCII is in a text just when its byte is in the bytes of the text. -/
theorem ofNat_mem_encode_iff {a : Char} (ha : a.toNat < 0x80) (text : Text) :
    UInt8.ofNat a.toNat ∈ encode text ↔ a ∈ text := by
  induction text with
  | nil => simp
  | cons c text ih => simp [ih, ofNat_mem_encodeChar_iff ha, eq_comm]

theorem encodeChar_ne_nil (c : Char) : encodeChar c ≠ [] := by
  unfold encodeChar
  dsimp only
  split
  · exact List.cons_ne_nil _ _
  split
  · exact List.cons_ne_nil _ _
  split
  · exact List.cons_ne_nil _ _
  · exact List.cons_ne_nil _ _

/-- Bytes start with a byte of ASCII just when their text starts with its character. -/
theorem head?_encode_eq_ofNat_iff {a : Char} (ha : a.toNat < 0x80) (text : Text) :
    (encode text).head? = some (UInt8.ofNat a.toNat) ↔ text.head? = some a := by
  cases text with
  | nil => simp
  | cons c text =>
      obtain ⟨b, rest, hc⟩ := List.exists_cons_of_ne_nil (encodeChar_ne_nil c)
      rw [encode_cons, hc, List.cons_append, List.head?_cons, List.head?_cons, Option.some_inj,
        Option.some_inj]
      constructor
      · rintro rfl
        exact (ofNat_mem_encodeChar_iff ha c).mp (hc ▸ List.mem_cons_self)
      · rintro rfl
        rw [encodeChar_of_lt ha] at hc
        exact (List.cons.inj hc).1.symm

end EnumCodegen.Utf8
