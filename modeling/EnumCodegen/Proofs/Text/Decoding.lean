import EnumCodegen.Text.Utf8.RoundTrip

/-! # What decoding gives

Bytes may be no UTF-8, and still they decode to some text. A character of ASCII comes out of
decoding only where its own byte went in, and some character comes out where any byte did. -/

namespace EnumCodegen.Utf8

/-! ## Characters of ASCII -/

/-- A character of several bytes in the making can only come out above U+007F. -/
def State.IsLong : State → Prop
  | .between => True
  | .inside 0 _ _ bits => 2 ≤ bits
  | .inside (_ + 1) low _ bits => 2 ≤ bits * 0x40 + (low - 0x80)

theorem isLong_start (b : Nat) : (start b).2.IsLong := by
  by_cases h0 : b < 0x80
  · rw [start_one h0]
    trivial
  by_cases h1 : b < 0xC2
  · simp [start, h0, h1, State.IsLong]
  by_cases h2 : b < 0xE0
  · rw [start_two (by omega) h2]
    simp only [State.IsLong]
    omega
  by_cases h3 : b < 0xF0
  · rw [start_three (by omega) h3]
    simp only [State.IsLong]
    split <;> omega
  by_cases h4 : b < 0xF5
  · rw [start_four (by omega) h4]
    simp only [State.IsLong]
    split <;> omega
  · unfold start
    repeat rw [if_neg (by omega)]
    trivial

section Ascii

variable {a : Char} {decoded : List (Option Char)} {state : State} {b : UInt8} {bytes : Bytes}

/-- Only the number U+0000 also comes from numbers that are no characters. -/
theorem eq_toNat_of_ofNat {n : Nat} (ha : 0 < a.toNat) (h : Char.ofNat n = a) : n = a.toNat := by
  subst h
  unfold Char.ofNat at ha ⊢
  by_cases hv : n.isValidChar
  · rw [dif_pos hv]
    rfl
  · rw [dif_neg hv] at ha
    cases ha

theorem eq_toNat_of_start {n : Nat} (ha : 0 < a.toNat) (h : (start n).1 = some (some a)) :
    n = a.toNat := by
  by_cases h0 : n < 0x80
  · rw [start_one h0] at h
    exact eq_toNat_of_ofNat ha (by simpa using h)
  · simp only [start, h0, if_false] at h
    repeat' split at h
    all_goals simp at h

/-- Reading another byte does not decode the character, and keeps a character in the making
long. -/
theorem feedFirst_spec (decoded : List (Option Char)) (ha : 0 < a.toNat)
    (hb : b ≠ UInt8.ofNat a.toNat) (h : some a ∉ decoded) :
    some a ∉ (feedFirst decoded b).1 ∧ (feedFirst decoded b).2.IsLong := by
  refine ⟨?_, isLong_start _⟩
  simp only [feedFirst, List.mem_append, Option.mem_toList, not_or]
  refine ⟨fun hs => hb ?_, h⟩
  rw [← eq_toNat_of_start ha hs, UInt8.ofNat_toNat]

theorem feed_spec (ha : 0 < a.toNat) (hascii : a.toNat < 0x80) (hb : b ≠ UInt8.ofNat a.toNat)
    (h : some a ∉ decoded) (hl : state.IsLong) :
    some a ∉ (feed decoded state b).1 ∧ (feed decoded state b).2.IsLong := by
  cases state with
  | between => exact feedFirst_spec decoded ha hb h
  | inside owed low high bits =>
      by_cases hr : low ≤ b.toNat ∧ b.toNat ≤ high
      · simp only [feed, if_pos hr]
        cases owed with
        | zero =>
            simp only [State.IsLong] at hl
            refine ⟨?_, trivial⟩
            simp only [List.mem_cons, Option.some.injEq, not_or]
            refine ⟨fun he => ?_, h⟩
            have hn := eq_toNat_of_ofNat ha he.symm
            omega
        | succ owed =>
            simp only [State.IsLong] at hl
            refine ⟨h, ?_⟩
            cases owed <;> simp only [State.IsLong] <;> omega
      · simp only [feed, if_neg hr]
        exact feedFirst_spec (none :: decoded) ha hb (by simpa using h)

theorem not_mem_feedAll (decoded : List (Option Char)) (state : State) (ha : 0 < a.toNat)
    (hascii : a.toNat < 0x80) (h : some a ∉ decoded) (hl : state.IsLong)
    (hb : UInt8.ofNat a.toNat ∉ bytes) : some a ∉ feedAll decoded state bytes := by
  induction bytes generalizing decoded state with
  | nil => cases state <;> simpa [feedAll] using h
  | cons b rest ih =>
      simp only [List.mem_cons, not_or] at hb
      obtain ⟨hd, hs⟩ := feed_spec ha hascii (Ne.symm hb.1) h hl
      rw [feedAll_cons]
      exact ih _ _ hd hs hb.2

/-- Bytes without that of an ASCII character decode to text without it, even where they are
no UTF-8. -/
theorem not_mem_decodeLossy (ha : 0 < a.toNat) (hascii : a.toNat < 0x80)
    (hb : UInt8.ofNat a.toNat ∉ bytes) : a ∉ decodeLossy bytes := by
  intro h
  obtain ⟨part, hp, he⟩ := List.mem_map.mp h
  cases part with
  | none =>
      obtain rfl : '\uFFFD' = a := he
      exact absurd hascii (by decide)
  | some c =>
      obtain rfl : c = a := he
      exact not_mem_feedAll [] .between ha hascii List.not_mem_nil trivial hb hp

end Ascii

/-! ## Nothing is swallowed -/

theorem feedFirst_progress (decoded : List (Option Char)) (b : UInt8) :
    (feedFirst decoded b).1 ≠ [] ∨ (feedFirst decoded b).2 ≠ .between := by
  have hstart : (start b.toNat).1 ≠ none ∨ (start b.toNat).2 ≠ .between := by
    unfold start
    repeat' split
    all_goals simp
  rcases hstart with hone | hmore
  · obtain ⟨part, hpart⟩ := Option.ne_none_iff_exists'.mp hone
    exact .inl (by simp [feedFirst, hpart])
  · exact .inr hmore

theorem feed_progress (decoded : List (Option Char)) (state : State) (b : UInt8) :
    (feed decoded state b).1 ≠ [] ∨ (feed decoded state b).2 ≠ .between := by
  cases state with
  | between => exact feedFirst_progress decoded b
  | inside owed low high bits =>
      simp only [feed]
      split
      · cases owed with
        | zero => exact .inl (List.cons_ne_nil _ _)
        | succ owed => exact .inr (by simp)
      · exact feedFirst_progress (none :: decoded) b

theorem feedAll_ne_nil {decoded : List (Option Char)} {state : State} (bytes : Bytes)
    (h : decoded ≠ [] ∨ state ≠ .between) : feedAll decoded state bytes ≠ [] := by
  induction bytes generalizing decoded state with
  | nil =>
      cases state with
      | between => simpa [feedAll] using h
      | inside => simp [feedAll]
  | cons b rest ih =>
      rw [feedAll_cons]
      exact ih (feed_progress decoded state b)

/-- No bytes but none at all decode to the empty text. -/
theorem decodeLossy_ne_nil {bytes : Bytes} (h : bytes ≠ []) : decodeLossy bytes ≠ [] := by
  obtain ⟨b, rest, rfl⟩ := List.exists_cons_of_ne_nil h
  rw [decodeLossy, decodeParts, feedAll_cons, Ne, List.map_eq_nil_iff]
  exact feedAll_ne_nil rest (feed_progress [] .between b)

end EnumCodegen.Utf8
