import EnumCodegen.Text.Utf8.Basic

/-! Decoding reads back what encoding writes, so a text and its bytes determine each
other. -/

namespace EnumCodegen.Utf8

theorem toNat_bounds (c : Char) :
    c.toNat < 0xD800 ∨ 0xDFFF < c.toNat ∧ c.toNat < 0x110000 := c.valid

theorem start_one {b : Nat} (h : b < 0x80) : start b = (some (some (Char.ofNat b)), .between) :=
  if_pos h

theorem start_two {b : Nat} (h : 0xC2 ≤ b) (h' : b < 0xE0) :
    start b = (none, .inside 0 0x80 0xBF (b - 0xC0)) := by
  unfold start
  rw [if_neg (by omega), if_neg (by omega), if_pos h']

theorem start_three {b : Nat} (h : 0xE0 ≤ b) (h' : b < 0xF0) :
    start b = (none, .inside 1 (if b = 0xE0 then 0xA0 else 0x80)
      (if b = 0xED then 0x9F else 0xBF) (b - 0xE0)) := by
  unfold start
  rw [if_neg (by omega), if_neg (by omega), if_neg (by omega)]
  by_cases h0 : b = 0xE0
  · subst h0; rfl
  by_cases hd : b = 0xED
  · subst hd; rfl
  rw [if_neg h0, if_neg hd, if_pos h', if_neg h0, if_neg hd]

theorem start_four {b : Nat} (h : 0xF0 ≤ b) (h' : b < 0xF5) :
    start b = (none, .inside 2 (if b = 0xF0 then 0x90 else 0x80)
      (if b = 0xF4 then 0x8F else 0xBF) (b - 0xF0)) := by
  unfold start
  rw [if_neg (by omega), if_neg (by omega), if_neg (by omega), if_neg (by omega),
    if_neg (by omega), if_neg (by omega)]
  by_cases h0 : b = 0xF0
  · subst h0; rfl
  by_cases hd : b = 0xF4
  · subst hd; rfl
  rw [if_neg h0, if_neg h0, if_neg hd, if_pos (by omega), if_neg hd]

theorem feedAll_cons (decoded : List (Option Char)) (state : State) (b : UInt8) (rest : Bytes) :
    feedAll decoded state (b :: rest) =
      feedAll (feed decoded state b).1 (feed decoded state b).2 rest := by
  cases state <;> rfl

theorem feed_first (decoded : List (Option Char)) {n : Nat} (h : n < 256) :
    feed decoded .between (UInt8.ofNat n) = ((start n).1.toList ++ decoded, (start n).2) := by
  simp [feed, feedFirst, Nat.mod_eq_of_lt h]

theorem feed_last (decoded : List (Option Char)) {n low high bits : Nat} (h : n < 256)
    (hl : low ≤ n) (hh : n ≤ high) :
    feed decoded (.inside 0 low high bits) (UInt8.ofNat n) =
      (some (Char.ofNat (bits * 0x40 + (n - 0x80))) :: decoded, .between) := by
  simp [feed, Nat.mod_eq_of_lt h, hl, hh]

theorem feed_inner (decoded : List (Option Char)) {n owed low high bits : Nat} (h : n < 256)
    (hl : low ≤ n) (hh : n ≤ high) :
    feed decoded (.inside (owed + 1) low high bits) (UInt8.ofNat n) =
      (decoded, .inside owed 0x80 0xBF (bits * 0x40 + (n - 0x80))) := by
  simp [feed, Nat.mod_eq_of_lt h, hl, hh]

theorem feedAll_encodeChar (c : Char) (decoded : List (Option Char)) (rest : Bytes) :
    feedAll decoded .between (encodeChar c ++ rest) =
      feedAll (some c :: decoded) .between rest := by
  have hv := toNat_bounds c
  have hc : Char.ofNat c.toNat = c := Char.ofNat_toNat c
  unfold encodeChar
  generalize c.toNat = v at hv hc
  simp only
  split
  · simp only [List.cons_append, List.nil_append]
    rw [feedAll_cons, feed_first _ (by omega), start_one (by omega), hc]
    rfl
  split
  · simp only [List.cons_append, List.nil_append]
    rw [feedAll_cons, feed_first _ (by omega), start_two (by omega) (by omega)]
    simp only [Option.toList_none, List.nil_append]
    rw [feedAll_cons, feed_last _ (by omega) (by omega) (by omega)]
    rw [show (192 + v / 64 - 192) * 64 + (128 + v % 64 - 128) = v by omega, hc]
  split
  · simp only [List.cons_append, List.nil_append]
    rw [feedAll_cons, feed_first _ (by omega), start_three (by omega) (by omega)]
    simp only [Option.toList_none, List.nil_append]
    rw [feedAll_cons,
      feed_inner _ (by omega) (by split <;> omega) (by split <;> omega),
      feedAll_cons, feed_last _ (by omega) (by omega) (by omega)]
    rw [show ((224 + v / 4096 - 224) * 64 + (128 + v / 64 % 64 - 128)) * 64 +
      (128 + v % 64 - 128) = v by omega, hc]
  · simp only [List.cons_append, List.nil_append]
    rw [feedAll_cons, feed_first _ (by omega), start_four (by omega) (by omega)]
    simp only [Option.toList_none, List.nil_append]
    rw [feedAll_cons,
      feed_inner _ (by omega) (by split <;> omega) (by split <;> omega),
      feedAll_cons, feed_inner _ (by omega) (by omega) (by omega),
      feedAll_cons, feed_last _ (by omega) (by omega) (by omega)]
    rw [show (((240 + v / 262144 - 240) * 64 + (128 + v / 4096 % 64 - 128)) * 64 +
      (128 + v / 64 % 64 - 128)) * 64 + (128 + v % 64 - 128) = v by omega, hc]

theorem feedAll_encode (text : Text) (decoded : List (Option Char)) (rest : Bytes) :
    feedAll decoded .between (encode text ++ rest) =
      feedAll ((text.map some).reverse ++ decoded) .between rest := by
  induction text generalizing decoded with
  | nil => rfl
  | cons c text ih => simp [feedAll_encodeChar, ih]

theorem decodeParts_encode (text : Text) : decodeParts (encode text) = text.map some := by
  have h := feedAll_encode text [] []
  simpa [decodeParts, feedAll] using h

/-- Every text is read back from its bytes. -/
theorem decode?_encode (text : Text) : decode? (encode text) = some text := by
  simp [decode?, decodeParts_encode]

theorem decodeLossy_encode (text : Text) : decodeLossy (encode text) = text := by
  simp [decodeLossy, decodeParts_encode, Function.comp_def]

theorem encode_injective {s t : Text} (h : encode s = encode t) : s = t := by
  rw [← decodeLossy_encode s, h, decodeLossy_encode]

end EnumCodegen.Utf8
