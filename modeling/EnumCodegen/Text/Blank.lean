import EnumCodegen.Text.Basic

/-! Blank characters and trimming.
Trimming removes blanks at both ends and leaves none there. -/

namespace EnumCodegen

/-- The characters with the property `White_Space`. -/
def blanks : List Char :=
  ['\u0009', '\u000a', '\u000b', '\u000c', '\u000d', '\u0020', '\u0085', '\u00a0', '\u1680',
   '\u2000', '\u2001', '\u2002', '\u2003', '\u2004', '\u2005', '\u2006', '\u2007', '\u2008',
   '\u2009', '\u200a', '\u2028', '\u2029', '\u202f', '\u205f', '\u3000']

def isBlank (c : Char) : Bool := blanks.contains c

namespace Text

def trimStart (text : Text) : Text := text.dropWhile isBlank

def trimEnd (text : Text) : Text := (text.reverse.dropWhile isBlank).reverse

def trim (text : Text) : Text := trimEnd (trimStart text)

@[simp] theorem trim_nil : trim [] = [] := rfl

def Trimmed (text : Text) : Prop :=
  (∀ c ∈ text.head?, isBlank c = false) ∧ ∀ c ∈ text.getLast?, isBlank c = false

instance (text : Text) : Decidable text.Trimmed := inferInstanceAs (Decidable (_ ∧ _))

theorem head?_trimStart (text : Text) : ∀ c ∈ text.trimStart.head?, isBlank c = false := by
  intro c hc
  unfold trimStart at hc
  induction text with
  | nil => simp at hc
  | cons d text ih =>
    rw [List.dropWhile_cons] at hc
    split at hc
    · exact ih hc
    · simp_all

theorem trimStart_eq_self {text : Text} (h : ∀ c ∈ text.head?, isBlank c = false) :
    text.trimStart = text := by
  cases text with
  | nil => rfl
  | cons c text => simp [trimStart, h c rfl]

theorem trimEnd_eq_self {text : Text} (h : ∀ c ∈ text.getLast?, isBlank c = false) :
    text.trimEnd = text := by
  have hr : trimStart text.reverse = text.reverse := trimStart_eq_self (by simpa using h)
  unfold trimStart at hr
  simp [trimEnd, hr]

theorem getLast?_trimEnd (text : Text) : ∀ c ∈ text.trimEnd.getLast?, isBlank c = false := by
  simpa [trimEnd, trimStart] using head?_trimStart text.reverse

theorem exists_eq_trimEnd_append (text : Text) :
    ∃ tail, text = text.trimEnd ++ tail ∧ ∀ c ∈ tail, isBlank c = true := by
  refine ⟨(text.reverse.takeWhile isBlank).reverse, ?_, ?_⟩
  · rw [trimEnd, ← List.reverse_append, List.takeWhile_append_dropWhile, List.reverse_reverse]
  · intro c hc
    exact List.all_eq_true.1 List.all_takeWhile c (List.mem_reverse.1 hc)

theorem mem_of_mem_trimStart {c : Char} {text : Text} (h : c ∈ text.trimStart) : c ∈ text :=
  (List.dropWhile_suffix _).mem h

theorem mem_of_mem_trimEnd {c : Char} {text : Text} (h : c ∈ text.trimEnd) : c ∈ text := by
  obtain ⟨tail, he, _⟩ := exists_eq_trimEnd_append text
  rw [he]
  exact List.mem_append_left tail h

theorem mem_of_mem_trim {c : Char} {text : Text} (h : c ∈ text.trim) : c ∈ text :=
  mem_of_mem_trimStart (mem_of_mem_trimEnd h)

theorem trimmed_trim (text : Text) : text.trim.Trimmed := by
  refine ⟨fun c hc => ?_, getLast?_trimEnd _⟩
  obtain ⟨tail, he, _⟩ := exists_eq_trimEnd_append text.trimStart
  refine head?_trimStart text c ?_
  rw [he]
  unfold trim at hc
  cases h : text.trimStart.trimEnd with
  | nil => simp [h] at hc
  | cons d rest => simpa [h] using hc

theorem trim_eq_self_iff {text : Text} : text.trim = text ↔ text.Trimmed := by
  refine ⟨fun h => h ▸ trimmed_trim text, fun h => ?_⟩
  rw [trim, trimStart_eq_self h.1, trimEnd_eq_self h.2]

@[simp] theorem trim_trim (text : Text) : text.trim.trim = text.trim :=
  trim_eq_self_iff.2 (trimmed_trim text)

end Text

end EnumCodegen
