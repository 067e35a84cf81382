import EnumCodegen.Proofs.Guard.Title
import EnumCodegen.Proofs.Run.Regeneration

/-! # Made tokens

Where no token is set and none is kept, a run makes one of the title and random letters. The
macro that guards the declarations is then an identifier of C, whatever bytes the path of the
description has. -/

namespace EnumCodegen

/-! ## Identifiers of C -/

def IsNondigit (c : Char) : Prop := 'a' ≤ c ∧ c ≤ 'z' ∨ 'A' ≤ c ∧ c ≤ 'Z' ∨ c = '_'

def IsDigit (c : Char) : Prop := '0' ≤ c ∧ c ≤ '9'

instance decidableIsNondigit (c : Char) : Decidable (IsNondigit c) :=
  inferInstanceAs (Decidable ('a' ≤ c ∧ c ≤ 'z' ∨ 'A' ≤ c ∧ c ≤ 'Z' ∨ c = '_'))

instance decidableIsDigit (c : Char) : Decidable (IsDigit c) :=
  inferInstanceAs (Decidable ('0' ≤ c ∧ c ≤ '9'))

def keywords : List Text :=
  ["alignas", "alignof", "auto", "bool", "break", "case", "char", "const", "constexpr",
   "continue", "default", "do", "double", "else", "enum", "extern", "false", "float", "for",
   "goto", "if", "inline", "int", "long", "nullptr", "register", "restrict", "return", "short",
   "signed", "sizeof", "static", "static_assert", "struct", "switch", "thread_local", "true",
   "typedef", "typeof", "typeof_unqual", "union", "unsigned", "void", "volatile", "while",
   "_Alignas", "_Alignof", "_Atomic", "_BitInt", "_Bool", "_Complex", "_Decimal128",
   "_Decimal32", "_Decimal64", "_Generic", "_Imaginary", "_Noreturn", "_Static_assert",
   "_Thread_local"]

/-- A word that starts with no digit and that the language has not taken. -/
structure IsIdentifier (word : Text) : Prop where
  first : ∃ c, word.head? = some c ∧ IsNondigit c
  chars : ∀ c ∈ word, IsNondigit c ∨ IsDigit c
  not_keyword : word ∉ keywords

theorem length_lt_of_mem_keywords : ∀ word ∈ keywords, word.length < 20 := by
  simp [keywords, Text.ofString_eq]

theorem isLower_iff {c : Char} : c.isLower = true ↔ 'a' ≤ c ∧ c ≤ 'z' := by
  change (decide ('a' ≤ c) && decide (c ≤ 'z')) = true ↔ _
  rw [Bool.and_eq_true, decide_eq_true_iff, decide_eq_true_iff]

theorem isUpper_iff {c : Char} : c.isUpper = true ↔ 'A' ≤ c ∧ c ≤ 'Z' := by
  change decide ('A' ≤ c ∧ c ≤ 'Z') = true ↔ _
  rw [decide_eq_true_iff]

theorem isDigit_iff {c : Char} : c.isDigit = true ↔ IsDigit c := by
  change (decide ('0' ≤ c) && decide (c ≤ '9')) = true ↔ '0' ≤ c ∧ c ≤ '9'
  rw [Bool.and_eq_true, decide_eq_true_iff, decide_eq_true_iff]

theorem isIdentifier_includeGuard {token : Text} (h : ∀ c ∈ token, IsNondigit c ∨ IsDigit c) :
    IsIdentifier (includeGuard token) := by
  have hlead : ∀ c ∈ ("__enumg_HeaderGuard_" : Text), IsNondigit c ∨ IsDigit c := by
    simp [Text.ofString_eq, IsNondigit, IsDigit]
  have hend : ∀ c ∈ ("_INCLUDED__" : Text), IsNondigit c ∨ IsDigit c := by
    simp [Text.ofString_eq, IsNondigit, IsDigit]
  have hlength : ("__enumg_HeaderGuard_" : Text).length = 20 := by
    simp [Text.ofString_eq]
  refine ⟨?_, ?_, fun hmem => ?_⟩
  · exact ⟨'_', by simp [includeGuard, Text.ofString_eq], by decide⟩
  · intro c hc
    rcases List.mem_append.mp hc with hc | hc
    · rcases List.mem_append.mp hc with hc | hc
      · exact hlead c hc
      · exact h c hc
    · exact hend c hc
  · -- the fixed front alone is longer than any keyword
    have hlt := length_lt_of_mem_keywords _ hmem
    rw [includeGuard, List.append_assoc, List.length_append, hlength] at hlt
    omega

/-! ## Tokens -/

namespace Guard

theorem isWordChar_iff {c : Char} : isWordChar c = true ↔ IsNondigit c ∨ IsDigit c := by
  change (c.isUpper || c.isLower || c.isDigit || decide (c = '_')) = true ↔ _
  rw [Bool.or_eq_true, Bool.or_eq_true, Bool.or_eq_true, isUpper_iff, isLower_iff, isDigit_iff,
    decide_eq_true_iff, IsNondigit]
  tauto

theorem sanitized_eq_filter (title : Text) :
    sanitized title = title.filter fun c => IsNondigit c ∨ IsDigit c := by
  apply List.filter_congr
  intro c _
  rw [Bool.eq_iff_iff, isWordChar_iff, decide_eq_true_iff]

section Made

variable {w : World} {explicit? : Option Text} {declaration : Path}

theorem after_resolve_of_unmarked (hown : explicit?.filter (· ≠ []) = none)
    (hm : w.files.marker declaration = .ok none) (spans : List Span) (input : Path) :
    (w.after (resolve spans explicit? input declaration)).1 =
      .ok ⟨generated (title input) (w.letters suffixLength), .generated⟩ := by
  rcases resolve_after w spans explicit? input declaration with
    ⟨_, _, _, _, hfound, hrun⟩ | ⟨_, _, _, he, _⟩
  · rw [hrun]
    cases hfound with
    | explicit h =>
        rw [hown] at h
        cases h
    | recovered _ h => simp [hm] at h
    | generated => rfl
  · simp [hm] at he

/-- Where no token is set and none is kept, the token is the word characters of the title, an
underscore and sixteen small letters, and the macro made of it is an identifier. -/
theorem resolve_makes_token (hlow : w.LowerCase) (hown : ∀ own ∈ explicit?, own = [])
    (hm : w.files.marker declaration = .ok none) (spans : List Span) (input : Path) :
    ∃ word letters,
      (w.after (resolve spans explicit? input declaration)).1 =
        .ok ⟨word ++ '_' :: letters, .generated⟩ ∧
      (word = (title input).filter fun c => IsNondigit c ∨ IsDigit c) ∧
      IsTitle input (title input) ∧
      letters = w.letters 16 ∧ letters.length = 16 ∧ (∀ c ∈ letters, 'a' ≤ c ∧ c ≤ 'z') ∧
      IsIdentifier (includeGuard (word ++ '_' :: letters)) := by
  have hnone : explicit?.filter (· ≠ []) = none := by
    rw [Option.filter_eq_none_iff]
    intro own h
    simpa using hown own h
  have hrun := after_resolve_of_unmarked hnone hm spans input
  rw [generated, sanitized_eq_filter] at hrun
  refine ⟨_, _, hrun, rfl, isTitle_title input, rfl, ?_, fun c hc => ?_, ?_⟩
  · simp [World.letters, suffixLength]
  · exact isLower_iff.mp (hlow.letters suffixLength c hc)
  · apply isIdentifier_includeGuard
    rw [← sanitized_eq_filter]
    intro c hc
    exact isWordChar_iff.mp (isWordChar_of_mem_generated (hlow.letters suffixLength) hc)

theorem resolve_makes_token_dotted :
    let w := World.holding [("colors.h", "// enumg-guard: \n")]
    let input : Path := ⟨Utf8.encode "a/.b" ++ 0xFF :: Utf8.encode ".c-d.ini/./"⟩
    w.LowerCase ∧ w.files.marker (.ofText "colors.h") = .ok none ∧
      ∃ word letters,
        (w.after (resolve [] (some []) input (.ofText "colors.h"))).1 =
          .ok ⟨word ++ '_' :: letters, .generated⟩ ∧
        word = "bcd" ∧ letters.length = 16 ∧
        IsIdentifier (includeGuard (word ++ '_' :: letters)) := by
  intro w input
  have hlow : w.LowerCase := fun _ => rfl
  have hm : w.files.marker (.ofText "colors.h") = .ok none := by decide +kernel
  have hown : ∀ own ∈ some ([] : Text), own = [] := by simp
  obtain ⟨word, letters, hrun, hword, _, _, hlength, _, hid⟩ :=
    resolve_makes_token hlow hown hm [] input
  exact ⟨hlow, hm, word, letters, hrun, hword.trans (by decide +kernel), hlength, hid⟩

end Made

end Guard

end EnumCodegen
