import EnumCodegen.Description.Reading
import Mathlib.Data.List.TakeWhile

/-! # The forms of a line

What a line says is decided by its first character that is no blank, and by the first sign
after it that ends a name or a key. -/

namespace EnumCodegen

/-! ## Texts and their ends -/

theorem Text.trimmed_trimEnd {text : Text} (h : ∀ c ∈ text.head?, isBlank c = false) :
    text.trimEnd.Trimmed := by
  rw [← Text.trimStart_eq_self h]
  exact Text.trimmed_trim text

theorem Text.trimStart_append {front : Text} (h : front.trimStart ≠ []) (back : Text) :
    (front ++ back).trimStart = front.trimStart ++ back := by
  rw [trimStart, List.dropWhile_append, if_neg (by simpa [trimStart] using h), trimStart]

theorem Text.trimStart_append_of_blank {front : Text} (h : ∀ c ∈ front, isBlank c = true)
    (back : Text) : (front ++ back).trimStart = back.trimStart :=
  List.dropWhile_append_of_pos h

theorem Text.trimEnd_append_of_blank {back : Text} (h : ∀ c ∈ back, isBlank c = true)
    (front : Text) : (front ++ back).trimEnd = front.trimEnd := by
  rw [trimEnd, List.reverse_append, List.dropWhile_append_of_pos (by simpa using h), trimEnd]

theorem Text.trim_append_of_blank {back : Text} (h : ∀ c ∈ back, isBlank c = true)
    (front : Text) : (front ++ back).trim = front.trim := by
  by_cases hfront : front.trimStart = []
  · have hblank : ∀ c ∈ front, isBlank c = true := List.dropWhile_eq_nil_iff.mp hfront
    have hback : back.trimStart = [] := List.dropWhile_eq_nil_iff.mpr h
    rw [trim, trimStart_append_of_blank hblank, hback, trim, hfront]
  · rw [trim, trimStart_append hfront, trimEnd_append_of_blank h, trim]

theorem Text.getLast?_append_cons {c : Char} {back : Text} (hc : isBlank c = false)
    (hback : ∀ d ∈ back.getLast?, isBlank d = false) (front : Text) :
    ∀ d ∈ (front ++ c :: back).getLast?, isBlank d = false := by
  rw [List.getLast?_append, List.getLast?_cons]
  cases hlast : back.getLast? with
  | none => simpa using hc
  | some d => simpa using hback d hlast

/-- Trimming the end of a text keeps it up to each character that is no blank. -/
theorem Text.trimEnd_append_cons {c : Char} (hc : isBlank c = false) (front back : Text) :
    (front ++ c :: back).trimEnd = front ++ c :: back.trimEnd := by
  obtain ⟨tail, he, htail⟩ := Text.exists_eq_trimEnd_append back
  have hlast := getLast?_append_cons hc (getLast?_trimEnd back) front
  calc
    (front ++ c :: back).trimEnd = ((front ++ c :: back.trimEnd) ++ tail).trimEnd := by
      rw [List.append_assoc, List.cons_append, ← he]
    _ = front ++ c :: back.trimEnd := by
      rw [trimEnd_append_of_blank htail, Text.trimEnd_eq_self hlast]

theorem Text.head?_trim {text : Text} (h : ∀ c ∈ text.head?, isBlank c = false) :
    text.trim.head? = text.head? := by
  rw [Text.trim, Text.trimStart_eq_self h]
  cases text with
  | nil => rfl
  | cons c rest =>
      have hkept := trimEnd_append_cons (h c rfl) [] rest
      rw [List.nil_append, List.nil_append] at hkept
      rw [hkept]
      rfl

/-- A cut takes out the first character of the class, and that one alone. -/
theorem Text.cut?_eq_some_iff {p : Char → Bool} {text front back : Text} :
    text.cut? p = some (front, back) ↔
      ∃ c, text = front ++ c :: back ∧ p c = true ∧ ∀ d ∈ front, p d = false := by
  constructor
  · intro h
    have happend := List.takeWhile_append_dropWhile (p := (!p ·)) (l := text)
    unfold Text.cut? at h
    split at h
    · cases h
    · rename_i c after hafter
      cases h
      have hc := List.dropWhile_get_zero_not (!p ·) text (by simp [hafter])
      refine ⟨c, by rw [← hafter, happend], by simpa [hafter] using hc, ?_⟩
      intro d hd
      simpa using List.mem_takeWhile_imp hd
  · rintro ⟨c, rfl, hc, hfront⟩
    have hpass : ∀ d ∈ front, (!p d) = true := by simpa using hfront
    rw [Text.cut?, List.dropWhile_append_of_pos hpass, List.takeWhile_append_of_pos hpass,
      List.dropWhile_cons_of_neg (by simp [hc]), List.takeWhile_cons_of_neg (by simp [hc])]
    simp

theorem Text.cut?_eq_none_iff {p : Char → Bool} {text : Text} :
    text.cut? p = none ↔ ∀ c ∈ text, p c = false := by
  rw [Text.cut?]
  split
  · rename_i h
    simpa using h
  · rename_i c after h
    simp only [reduceCtorEq, false_iff]
    intro hnone
    have hall : text.dropWhile (!p ·) = [] := by simpa using hnone
    simp [h] at hall

theorem Text.cut?_char_eq_some_iff {text front back : Text} {c : Char} :
    text.cut? (· = c) = some (front, back) ↔ text = front ++ c :: back ∧ c ∉ front := by
  rw [Text.cut?_eq_some_iff]
  constructor
  · rintro ⟨d, htext, hd, hfront⟩
    obtain rfl : d = c := by simpa using hd
    exact ⟨htext, fun hmem => by simpa using hfront d hmem⟩
  · rintro ⟨htext, hfront⟩
    refine ⟨c, htext, by simp, fun d hd => ?_⟩
    simpa using fun he : d = c => hfront (he ▸ hd)

theorem Text.cut?_char_eq_none_iff {text : Text} {c : Char} :
    text.cut? (· = c) = none ↔ c ∉ text := by
  rw [Text.cut?_eq_none_iff]
  refine ⟨fun h hc => by simpa using h c hc, fun h d hd => ?_⟩
  simpa using fun he : d = c => h (he ▸ hd)

/-- What is added behind the cut does not move it. -/
theorem Text.cut?_append {p : Char → Bool} {text front back : Text}
    (h : text.cut? p = some (front, back)) (tail : Text) :
    (text ++ tail).cut? p = some (front, back ++ tail) := by
  obtain ⟨c, rfl, hc, hfront⟩ := Text.cut?_eq_some_iff.mp h
  exact Text.cut?_eq_some_iff.mpr ⟨c, by simp, hc, hfront⟩

theorem Text.mem_of_cut?_eq_some {p : Char → Bool} {text front back : Text} {c : Char}
    (h : text.cut? p = some (front, back)) (hc : c ∈ back) : c ∈ text := by
  obtain ⟨d, rfl, _, _⟩ := Text.cut?_eq_some_iff.mp h
  exact List.mem_append_right front (List.mem_cons_of_mem d hc)

/-! ## Forms -/

namespace LineForm

variable {text name key value : Text}

/-- A text is silent, or it starts with a bracket, or it starts with a key. -/
theorem ofTrimmed_cases (text : Text) :
    ((∀ c ∈ text.head?, c = ';' ∨ c = '#') ∧ ofTrimmed text = .silent) ∨
    (∃ rest, text = '[' :: rest ∧ ofTrimmed text =
      (Text.cut? (· = ']') rest).elim .unclosedHeader fun p => .header p.1.trim) ∨
    ∃ c rest, text = c :: rest ∧ (c ≠ ';' ∧ c ≠ '#' ∧ c ≠ '[') ∧ ofTrimmed text =
      (text.cut? isSeparator).elim .missingSeparator fun p =>
        .assignment p.1.trim (uncommented false p.2.trimStart).trimEnd := by
  cases text with
  | nil => simp [ofTrimmed]
  | cons c rest =>
      by_cases hsilent : c = ';' ∨ c = '#'
      · exact .inl ⟨by simpa using hsilent, by simp only [ofTrimmed, if_pos hsilent]⟩
      by_cases hopen : c = '['
      · refine .inr (.inl ⟨rest, by rw [hopen], ?_⟩)
        simp only [ofTrimmed, if_neg hsilent, if_pos hopen]
        cases Text.cut? (· = ']') rest <;> rfl
      · obtain ⟨hsemicolon, hhash⟩ := not_or.mp hsilent
        refine .inr (.inr ⟨c, rest, rfl, ⟨hsemicolon, hhash, hopen⟩, ?_⟩)
        simp only [ofTrimmed, if_neg hsilent, if_neg hopen]
        cases Text.cut? isSeparator (c :: rest) <;> rfl

theorem ofTrimmed_eq_silent_iff :
    ofTrimmed text = .silent ↔ ∀ c ∈ text.head?, c = ';' ∨ c = '#' := by
  rcases ofTrimmed_cases text with ⟨h, he⟩ | ⟨rest, rfl, he⟩ | ⟨c, rest, rfl, hc, he⟩
  · exact ⟨fun _ => h, fun _ => he⟩
  · rw [he]
    cases Text.cut? (· = ']') rest <;> simp
  · rw [he]
    cases Text.cut? isSeparator (c :: rest) <;> simp [hc]

theorem ofTrimmed_eq_header_iff :
    ofTrimmed text = .header name ↔
      ∃ front back : Text,
        text = '[' :: (front ++ ']' :: back) ∧ ']' ∉ front ∧ name = front.trim := by
  rcases ofTrimmed_cases text with ⟨h, he⟩ | ⟨rest, rfl, he⟩ | ⟨c, rest, rfl, hc, he⟩
  · rw [he]
    simp only [reduceCtorEq, false_iff]
    rintro ⟨front, back, rfl, -⟩
    simpa using h '[' rfl
  · rw [he]
    cases hcut : Text.cut? (· = ']') rest with
    | none =>
        simp only [Option.elim_none, reduceCtorEq, false_iff]
        rintro ⟨front, back, hrest, -⟩
        obtain ⟨-, rfl⟩ := List.cons.inj hrest
        simp [Text.cut?_char_eq_none_iff] at hcut
    | some p =>
        obtain ⟨front, back⟩ := p
        simp only [Option.elim_some, header.injEq]
        constructor
        · rintro rfl
          obtain ⟨rfl, hfront⟩ := Text.cut?_char_eq_some_iff.mp hcut
          exact ⟨front, back, rfl, hfront, rfl⟩
        · rintro ⟨front', back', hrest, hfront, rfl⟩
          obtain ⟨-, rfl⟩ := List.cons.inj hrest
          rw [Text.cut?_char_eq_some_iff.mpr ⟨rfl, hfront⟩] at hcut
          cases hcut
          rfl
  · rw [he]
    constructor
    · cases Text.cut? isSeparator (c :: rest) <;> simp
    · rintro ⟨front, back, hopen, -⟩
      exact absurd (List.cons.inj hopen).1 hc.2.2

theorem ofTrimmed_eq_unclosedHeader_iff :
    ofTrimmed text = .unclosedHeader ↔ ∃ rest, text = '[' :: rest ∧ ']' ∉ rest := by
  rcases ofTrimmed_cases text with ⟨h, he⟩ | ⟨rest, rfl, he⟩ | ⟨c, rest, rfl, hc, he⟩
  · rw [he]
    simp only [reduceCtorEq, false_iff]
    rintro ⟨rest, rfl, -⟩
    simpa using h '[' rfl
  · rw [he]
    simp only [List.cons.injEq, true_and, exists_eq_left', ← Text.cut?_char_eq_none_iff]
    cases Text.cut? (· = ']') rest <;> simp
  · rw [he]
    simp only [List.cons.injEq, hc, false_and, exists_false, iff_false]
    cases Text.cut? isSeparator (c :: rest) <;> simp

theorem ofTrimmed_eq_assignment_iff :
    ofTrimmed text = .assignment key value ↔
      (∀ c ∈ text.head?, c ≠ ';' ∧ c ≠ '#' ∧ c ≠ '[') ∧
        ∃ front back : Text, text.cut? isSeparator = some (front, back) ∧ key = front.trim ∧
          value = (uncommented false back.trimStart).trimEnd := by
  rcases ofTrimmed_cases text with ⟨h, he⟩ | ⟨rest, rfl, he⟩ | ⟨c, rest, rfl, hc, he⟩
  · rw [he]
    simp only [reduceCtorEq, false_iff]
    rintro ⟨hstart, front, back, hcut, -⟩
    cases text with
    | nil => cases hcut
    | cons c rest =>
        obtain ⟨hsemicolon, hhash, -⟩ := hstart c rfl
        exact (h c rfl).elim hsemicolon hhash
  · rw [he]
    cases Text.cut? (· = ']') rest <;> simp
  · rw [he]
    cases Text.cut? isSeparator (c :: rest) with
    | none => simp
    | some p =>
        obtain ⟨front, back⟩ := p
        simp [hc, eq_comm, and_assoc]

end LineForm
end EnumCodegen
