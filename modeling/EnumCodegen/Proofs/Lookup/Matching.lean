import EnumCodegen.Lookup
import EnumCodegen.Proofs.Text.Ascii
import Mathlib.Data.List.Forall2
import Mathlib.Data.Nat.Find

/-! # Which names match

A name matches a stored name when it has the bytes that are left of the stored name, one
by one. Where letter case is ignored, a byte may also be the other letter of a pair. The
name that is found is the first one that matches. -/

namespace EnumCodegen

open Utf8

/-! ## Bytes up to letter case -/

/-- A byte is an ASCII capital, and the other is the small letter. -/
def IsCapitalOf (capital small : UInt8) : Prop :=
  65 ≤ capital ∧ capital ≤ 90 ∧ small = capital + 32

/-- Two byte strings are the same, byte by byte. If letter case is ignored, two bytes may
also be the capital and the small letter of one pair. -/
def Agree (ignoreCase : Bool) : Bytes → Bytes → Prop :=
  List.Forall₂ fun a b => a = b ∨ ignoreCase = true ∧ (IsCapitalOf a b ∨ IsCapitalOf b a)

theorem lowerByte_eq_iff (a b : UInt8) :
    lowerByte a = lowerByte b ↔ a = b ∨ IsCapitalOf a b ∨ IsCapitalOf b a := by
  unfold lowerByte IsCapitalOf
  by_cases ha : 65 ≤ a ∧ a ≤ 90
  · by_cases hb : 65 ≤ b ∧ b ≤ 90
    · grind
    · grind
  · by_cases hb : 65 ≤ b ∧ b ≤ 90
    · grind
    · grind

theorem agree_iff (ignoreCase : Bool) (xs ys : Bytes) :
    Agree ignoreCase xs ys ↔ comparedBytes ignoreCase xs = comparedBytes ignoreCase ys := by
  cases ignoreCase with
  | false =>
      simp only [Agree, comparedBytes, Bool.false_eq_true, false_and, or_false, if_false]
      rw [List.forall₂_eq_eq_eq]
  | true =>
      simp only [Agree, comparedBytes, true_and, if_true, ← lowerByte_eq_iff]
      rw [← List.forall₂_eq_eq_eq, List.forall₂_map_left_iff, List.forall₂_map_right_iff]

section Agree

variable {ignoreCase : Bool} {xs ys zs : Bytes}

theorem Agree.symm (h : Agree ignoreCase xs ys) : Agree ignoreCase ys xs :=
  (agree_iff ..).mpr ((agree_iff ..).mp h).symm

theorem Agree.trans (h : Agree ignoreCase xs ys) (h' : Agree ignoreCase ys zs) :
    Agree ignoreCase xs zs :=
  (agree_iff ..).mpr (((agree_iff ..).mp h).trans ((agree_iff ..).mp h'))

theorem agree_false_iff : Agree false xs ys ↔ xs = ys := agree_iff ..

end Agree

/-! ## Names up to letter case -/

def Text.lowered (text : Text) : Text := text.map Char.toLower

theorem toLower_of_le {c : Char} (h : 0x80 ≤ c.toNat) : c.toLower = c := by
  have hlast : 'Z'.val.toNat = 90 := rfl
  unfold Char.toLower
  rw [dif_neg]
  intro hc
  have hle : c.toNat ≤ 'Z'.val.toNat := UInt32.le_iff_toNat_le.mp hc.2
  omega

theorem encodeChar_toLower (c : Char) : encodeChar c.toLower = (encodeChar c).map lowerByte := by
  by_cases hc : c.toNat < 0x80
  · have hascii : ∀ n < 0x80, encodeChar (Char.ofNat n).toLower =
        (encodeChar (Char.ofNat n)).map lowerByte := by decide +kernel
    have hchar := hascii c.toNat hc
    rwa [Char.ofNat_toNat] at hchar
  · have hle := Nat.le_of_not_lt hc
    have hbytes : ∀ b ∈ encodeChar c, lowerByte b = b := by
      intro b hb
      have hbyte := le_of_mem_encodeChar hle hb
      refine if_neg fun h => ?_
      have hlast : b.toNat ≤ 90 := UInt8.le_iff_toNat_le.mp h.2
      omega
    rw [toLower_of_le hle, List.map_congr_left hbytes, List.map_id']

theorem encode_lowered (text : Text) :
    encode text.lowered = (encode text).map lowerByte := by
  induction text with
  | nil => rfl
  | cons c text ih =>
      rw [encode_cons, List.map_append, ← encodeChar_toLower, ← ih]
      exact encode_cons ..

/-- Bytes agree up to letter case just when the characters do. -/
theorem agree_true_iff (s t : Text) : Agree true (encode s) (encode t) ↔ s.lowered = t.lowered := by
  rw [agree_iff]
  change (encode s).map lowerByte = (encode t).map lowerByte ↔ _
  rw [← encode_lowered, ← encode_lowered]
  exact ⟨encode_injective, congrArg encode⟩

/-! ## Matches -/

/-- The bytes of a name after a number of leading ones, or none if there are fewer. -/
def tail (skip : Nat) (name : Text) : Bytes :=
  (encode name).drop (min skip (encode name).length)

@[simp] theorem tail_zero (name : Text) : tail 0 name = encode name := by
  simp [tail]

theorem tail_eq_drop (skip : Nat) (name : Text) : tail skip name = (encode name).drop skip := by
  unfold tail
  rcases Nat.le_total skip (encode name).length with h | h
  · rw [Nat.min_eq_left h]
  · rw [Nat.min_eq_right h, List.drop_length, List.drop_eq_nil_of_le h]

section Matches

variable (ignoreCase : Bool) (skip : Nat) (name stored : Text)

/-- A name matches just when its bytes agree with those that are left of the stored name. -/
theorem nameMatches_iff :
    nameMatches ignoreCase skip name stored = true ↔
      Agree ignoreCase (encode name) (tail skip stored) := by
  rw [nameMatches, decide_eq_true_eq, agree_iff, tail_eq_drop]

theorem nameMatches_self : nameMatches ignoreCase 0 name name = true := by
  simp [nameMatches]

end Matches

/-! ## The first match -/

def IsFirst {α : Type} (P : α → Prop) (xs : List α) (j : Nat) : Prop :=
  (∃ x, xs[j]? = some x ∧ P x) ∧ ∀ k < j, ∀ x, xs[k]? = some x → ¬ P x

section IsFirst

variable {α : Type} {P Q : α → Prop} {xs : List α} {i j : Nat}

theorem findIdx?_eq_some_iff_isFirst {p : α → Bool} :
    xs.findIdx? p = some j ↔ IsFirst (fun x => p x = true) xs j := by
  rw [List.findIdx?_eq_some_iff_getElem]
  constructor
  · rintro ⟨hj, hp, hfirst⟩
    refine ⟨⟨xs[j], List.getElem?_eq_getElem hj, hp⟩, fun k hk x hx => ?_⟩
    obtain ⟨_, rfl⟩ := List.getElem?_eq_some_iff.mp hx
    exact hfirst k hk
  · rintro ⟨⟨x, hx, hp⟩, hfirst⟩
    obtain ⟨hj, rfl⟩ := List.getElem?_eq_some_iff.mp hx
    refine ⟨hj, hp, fun k hk => ?_⟩
    exact hfirst k hk _ (List.getElem?_eq_getElem (Nat.lt_trans hk hj))

theorem IsFirst.congr (h : ∀ x, P x ↔ Q x) : IsFirst P xs j ↔ IsFirst Q xs j := by
  simp only [IsFirst, h]

theorem IsFirst.eq (h : IsFirst P xs i) (h' : IsFirst P xs j) : i = j := by
  obtain ⟨⟨x, hx, hp⟩, hfirst⟩ := h
  obtain ⟨⟨y, hy, hq⟩, hfirst'⟩ := h'
  rcases Nat.lt_trichotomy i j with hlt | heq | hlt
  · exact absurd hp (hfirst' i hlt x hx)
  · exact heq
  · exact absurd hq (hfirst j hlt y hy)

/-- Where an entry has the property, there is a first one, and none after that entry. -/
theorem exists_isFirst {x : α} (hx : xs[i]? = some x) (hp : P x) :
    ∃ j ≤ i, IsFirst P xs j := by
  classical
  have hex : ∃ j x, xs[j]? = some x ∧ P x := ⟨i, x, hx, hp⟩
  refine ⟨Nat.find hex, Nat.find_min' hex ⟨x, hx, hp⟩, Nat.find_spec hex, fun k hk y hy hq => ?_⟩
  exact Nat.find_min hex hk ⟨y, hy, hq⟩

end IsFirst

theorem pairwise_zipIdx {α : Type} (xs : List α) : xs.zipIdx.Pairwise fun p q => p.2 < q.2 := by
  have hrange : (xs.zipIdx.map Prod.snd).Pairwise (· < ·) := by
    rw [List.zipIdx_map_snd]
    exact List.pairwise_lt_range'
  exact List.pairwise_map.mp hrange

theorem findName?_eq_some_iff {ignoreCase : Bool} {skip j : Nat} {names : List Text}
    {name : Text} :
    findName? ignoreCase skip names name = some j ↔
      IsFirst (fun stored => Agree ignoreCase (encode name) (tail skip stored)) names j := by
  rw [findName?, findIdx?_eq_some_iff_isFirst]
  exact IsFirst.congr fun stored => nameMatches_iff ignoreCase skip name stored

/-! ## Names found by what is left of them -/

section Tails

variable {ignoreCase : Bool} {skip i : Nat} {names : List Text} {name needle : Text}

theorem exists_findName?_eq_some (hi : names[i]? = some name)
    (hneedle : Agree ignoreCase (encode needle) (tail skip name)) :
    ∃ j ≤ i, findName? ignoreCase skip names needle = some j ∧
      IsFirst (fun stored => Agree ignoreCase (tail skip stored) (tail skip name)) names j := by
  obtain ⟨j, hj, hfirst⟩ : ∃ j ≤ i,
      IsFirst (fun stored => Agree ignoreCase (encode needle) (tail skip stored)) names j :=
    exists_isFirst hi hneedle
  refine ⟨j, hj, findName?_eq_some_iff.mpr hfirst, (IsFirst.congr fun stored => ?_).mp hfirst⟩
  constructor
  · exact fun h => h.symm.trans hneedle
  · exact fun h => hneedle.trans h.symm

theorem eq_of_take_eq_of_tail_eq {s t : Text} (hfront : (encode s).take skip = (encode t).take skip)
    (htail : tail skip s = tail skip t) : s = t := by
  rw [tail_eq_drop, tail_eq_drop] at htail
  apply encode_injective
  rw [← List.take_append_drop skip (encode s), hfront, htail, List.take_append_drop]

/-- A needle that agrees with what is left of a name finds the first name of which the same
is left. That is the name itself, unless it is an earlier one; and it is the name itself
where different names share the front that is passed over, and letter case counts. -/
theorem findName?_of_agree (hi : names[i]? = some name)
    (hneedle : Agree ignoreCase (encode needle) (tail skip name)) :
    (∃ j, findName? ignoreCase skip names needle = some j ∧
        IsFirst (fun stored => Agree ignoreCase (tail skip stored) (tail skip name)) names j) ∧
      (findName? ignoreCase skip names needle = some i ↔
        ∀ j < i, ∀ earlier, names[j]? = some earlier →
          ¬ Agree ignoreCase (tail skip earlier) (tail skip name)) ∧
      (ignoreCase = false → names.Nodup →
        (∀ s ∈ names, ∀ t ∈ names, (encode s).take skip = (encode t).take skip) →
        findName? ignoreCase skip names needle = some i) := by
  obtain ⟨j, hj, hfind, hfirst⟩ := exists_findName?_eq_some hi hneedle
  have hname : Agree ignoreCase (tail skip name) (tail skip name) := hneedle.symm.trans hneedle
  have hiff : findName? ignoreCase skip names needle = some i ↔
      ∀ j < i, ∀ earlier, names[j]? = some earlier →
        ¬ Agree ignoreCase (tail skip earlier) (tail skip name) := by
    rw [hfind, Option.some.injEq]
    constructor
    · rintro rfl
      exact hfirst.2
    · exact fun h => hfirst.eq ⟨⟨name, hi, hname⟩, h⟩
  refine ⟨⟨j, hfind, hfirst⟩, hiff, fun hcase hnodup hfront => hiff.mpr ?_⟩
  intro k hk earlier hearlier hagree
  rw [hcase, agree_false_iff] at hagree
  have heq : earlier = name := by
    refine eq_of_take_eq_of_tail_eq (hfront _ ?_ _ ?_) hagree
    · exact List.mem_of_getElem? hearlier
    · exact List.mem_of_getElem? hi
  -- the same name would stand at two positions
  have hlt : k < names.length := (List.getElem?_eq_some_iff.mp hearlier).1
  have hindex : k = i := (List.getElem?_inj hlt hnodup).mp (by rw [hearlier, hi, heq])
  omega

/-- Two names that share a character of two bytes, which are passed over. -/
theorem findName?_of_agree_umlaut :
    let names : List Text := ["Äx", "Äy"]
    let name : Text := "Äy"
    let needle : Text := "y"
    names[1]? = some name ∧ Agree false (encode needle) (tail 2 name) ∧ names.Nodup ∧
      (∀ s ∈ names, ∀ t ∈ names, (encode s).take 2 = (encode t).take 2) ∧
      findName? false 2 names needle = some 1 := by
  intro names name needle
  have hi : names[1]? = some name := rfl
  have hneedle : Agree false (encode needle) (tail 2 name) :=
    agree_false_iff.mpr (by decide +kernel)
  have hnodup : names.Nodup := by decide +kernel
  have hfront : ∀ s ∈ names, ∀ t ∈ names, (encode s).take 2 = (encode t).take 2 := by
    decide +kernel
  obtain ⟨-, -, hfind⟩ := findName?_of_agree hi hneedle
  exact ⟨hi, hneedle, hnodup, hfront, hfind rfl hnodup hfront⟩

end Tails

end EnumCodegen
