import EnumCodegen.Text.Blank
import EnumCodegen.Proofs.Text.Ascii
import EnumCodegen.Proofs.Text.Decoding
import Mathlib.Data.List.Basic

/-! # The line feed in text and in bytes

A line feed is one byte, and that byte stands for nothing else: cutting bytes at it is
cutting text at line feeds, whatever other bytes there are. -/

namespace EnumCodegen

/-! ## Pieces of joined lists -/

section Pieces

variable {α : Type} [DecidableEq α] {separator : α}

theorem pieces_of_not_mem {xs : List α} (h : separator ∉ xs) : pieces separator xs = [xs] := by
  induction xs with
  | nil => rfl
  | cons x xs ih =>
      rw [List.mem_cons, not_or] at h
      rw [pieces_cons, if_neg (Ne.symm h.1), ih h.2]
      rfl

theorem pieces_append_separator (xs ys : List α) :
    pieces separator (xs ++ separator :: ys) = pieces separator xs ++ pieces separator ys := by
  induction xs with
  | nil => simp [pieces_cons]
  | cons x xs ih =>
      obtain ⟨first, rest, he⟩ := List.exists_cons_of_ne_nil (pieces_ne_nil separator xs)
      rw [List.cons_append, pieces_cons, pieces_cons, ih, he]
      split
      · rfl
      · rfl

theorem pieces_append_cons {front : List α} (h : separator ∉ front) (rest : List α) :
    pieces separator (front ++ separator :: rest) = front :: pieces separator rest := by
  rw [pieces_append_separator, pieces_of_not_mem h, List.singleton_append]

theorem length_pieces (xs : List α) :
    (pieces separator xs).length = xs.count separator + 1 := by
  induction xs with
  | nil => rfl
  | cons x xs ih =>
      obtain ⟨first, rest, he⟩ := List.exists_cons_of_ne_nil (pieces_ne_nil separator xs)
      rw [he] at ih
      rw [pieces_cons, he, List.count_cons]
      by_cases hx : x = separator
      · simp [hx, ← ih]
      · simpa [hx] using ih

theorem head?_pieces (xs : List α) :
    (pieces separator xs).head? = some (xs.takeWhile (· ≠ separator)) := by
  induction xs with
  | nil => rfl
  | cons x xs ih =>
      rw [pieces_cons, List.takeWhile_cons]
      by_cases hx : x = separator
      · simp [hx]
      · simp [hx, List.headD_eq_head?_getD, ih]

theorem pieces_append_left {front : List α} (h : separator ∉ front) (back : List α) :
    ∃ first rest, pieces separator back = first :: rest ∧
      pieces separator (front ++ back) = (front ++ first) :: rest := by
  obtain ⟨first, rest, he⟩ := List.exists_cons_of_ne_nil (pieces_ne_nil separator back)
  refine ⟨first, rest, he, ?_⟩
  induction front with
  | nil => exact he
  | cons x front ih =>
      rw [List.mem_cons, not_or] at h
      rw [List.cons_append, pieces_cons, if_neg (Ne.symm h.1), ih h.2]
      rfl

theorem pieces_append_right (front : List α) {back : List α} (h : separator ∉ back) :
    ∃ above last, pieces separator front = above ++ [last] ∧
      pieces separator (front ++ back) = above ++ [last ++ back] := by
  induction front with
  | nil => exact ⟨[], [], rfl, pieces_of_not_mem h⟩
  | cons x front ih =>
      obtain ⟨above, last, hfront, hback⟩ := ih
      rw [List.cons_append, pieces_cons, pieces_cons, hfront, hback]
      by_cases hx : x = separator
      · exact ⟨[] :: above, last, by simp [hx], by simp [hx]⟩
      · cases above with
        | nil => exact ⟨[], x :: last, by simp [hx], by simp [hx]⟩
        | cons first above => exact ⟨(x :: first) :: above, last, by simp [hx], by simp [hx]⟩

/-- Lists that are each ended by the separator are cut one after another, and an empty piece
is left after the last separator. -/
theorem pieces_flatMap_append_separator (fronts : List (List α)) :
    pieces separator (fronts.flatMap (· ++ [separator])) =
      fronts.flatMap (pieces separator) ++ [[]] := by
  induction fronts with
  | nil => rfl
  | cons front fronts ih =>
      rw [List.flatMap_cons, List.append_assoc, List.singleton_append, pieces_append_separator,
        ih, List.flatMap_cons, List.append_assoc]

theorem pieces_flatMap_ended {fronts : List (List α)}
    (h : ∀ front ∈ fronts, separator ∉ front) :
    pieces separator (fronts.flatMap (· ++ [separator])) = fronts ++ [[]] := by
  have hpieces : fronts.flatMap (pieces separator) = fronts.flatMap ([·]) :=
    List.flatMap_congr fun front hf => pieces_of_not_mem (h front hf)
  rw [pieces_flatMap_append_separator, hpieces, List.flatMap_singleton']

end Pieces

namespace Utf8

/-! ## Encoding and decoding -/

theorem newline_mem_encode_iff (text : Text) : '\n'.toUInt8 ∈ encode text ↔ '\n' ∈ text :=
  ofNat_mem_encode_iff (by decide) text

theorem encode_newline_cons (text : Text) :
    encode ('\n' :: text) = '\n'.toUInt8 :: encode text := rfl

/-- Bytes without a line feed decode to text without one, even where they are no UTF-8. -/
theorem newline_not_mem_decodeLossy {bytes : Bytes} (hb : '\n'.toUInt8 ∉ bytes) :
    '\n' ∉ decodeLossy bytes :=
  not_mem_decodeLossy (by decide) (by decide) hb

end Utf8

end EnumCodegen
