/-! Text as its characters in order, cut at separators and joined again.
Cutting keeps every character that is not a separator. -/

namespace EnumCodegen

/-- Text is the list of its characters, so that a rule which reads it from the
front is a recursion and a law about it an induction. -/
abbrev Text := List Char

abbrev Bytes := List UInt8

/-- The text that a string literal spells. It is unfolded on demand only, by
`Text.ofString_eq`. -/
@[irreducible] def Text.ofString (literal : String) : Text := literal.toList

theorem Text.ofString_eq (literal : String) : Text.ofString literal = literal.toList := by
  unfold Text.ofString
  rfl

instance : Coe String Text := ⟨Text.ofString⟩

def Text.ofNat (n : Nat) : Text := Nat.toDigits 10 n

/-- A whole number with its sign if it is negative. -/
def Text.ofInt : Int → Text
  | .ofNat n => ofNat n
  | .negSucc n => '-' :: ofNat (n + 1)

/-- The pieces between separators. There is one more piece than there are
separators, and a piece may be empty. -/
def pieces {α : Type} [DecidableEq α] (separator : α) (xs : List α) : List (List α) :=
  xs.foldr (fun x rest => if x = separator then [] :: rest else (x :: rest.headD []) :: rest.tail)
    [[]]

@[simp] theorem pieces_nil {α : Type} [DecidableEq α] (separator : α) :
    pieces separator [] = [[]] := rfl

theorem pieces_cons {α : Type} [DecidableEq α] (separator x : α) (xs : List α) :
    pieces separator (x :: xs) =
      if x = separator then [] :: pieces separator xs
      else (x :: (pieces separator xs).headD []) :: (pieces separator xs).tail := rfl

theorem pieces_ne_nil {α : Type} [DecidableEq α] (separator : α) (xs : List α) :
    pieces separator xs ≠ [] := by
  cases xs with
  | nil => simp
  | cons x xs => rw [pieces_cons]; split <;> simp

theorem not_mem_of_mem_pieces {α : Type} [DecidableEq α] {separator : α} {xs piece : List α}
    (h : piece ∈ pieces separator xs) : separator ∉ piece := by
  induction xs generalizing piece with
  | nil => simp_all
  | cons x xs ih =>
    obtain ⟨first, rest, he⟩ := List.exists_cons_of_ne_nil (pieces_ne_nil separator xs)
    simp only [he, List.mem_cons] at ih
    rw [pieces_cons, he] at h
    split at h
    · rcases List.mem_cons.1 h with rfl | h
      · simp
      · exact ih (List.mem_cons.1 h)
    · rename_i hx
      rcases List.mem_cons.1 h with rfl | h
      · simpa [Ne.symm hx] using ih (.inl rfl)
      · exact ih (.inr h)

/-- The text before the first character of a class and the text after it. -/
def Text.cut? (p : Char → Bool) (text : Text) : Option (Text × Text) :=
  match text.dropWhile (!p ·) with
  | [] => none
  | _ :: after => some (text.takeWhile (!p ·), after)

/-- The texts one after another, with a separator between neighbours. -/
def Text.join (separator : Text) (texts : List Text) : Text := List.intercalate separator texts

end EnumCodegen
