import EnumCodegen.Description.Entry
import EnumCodegen.Proofs.Description.Forms
import Mathlib.Data.List.Basic

/-! # The parts of an entry

Reading an entry loses nothing but blanks, and reading its parts again changes nothing. The
sign that ends a part does not count at the front of the text, so no part of a text is empty
unless the text is. -/

namespace EnumCodegen.Entry

open Text

/-! ## Splits -/

section Split

variable {c : Char} {text front : Text}

theorem splitBefore_append (hne : front ≠ []) (h : c ∉ front) (rest : Text) :
    splitBefore c (front ++ c :: rest) = (front, some (c :: rest)) := by
  have hpass : ∀ d ∈ front, decide (d ≠ c) = true := by
    intro d hd
    simpa using fun he : d = c => h (he ▸ hd)
  have htake : (front ++ c :: rest).takeWhile (· ≠ c) = front := by
    rw [List.takeWhile_append_of_pos hpass, List.takeWhile_cons_of_neg (by simp), List.append_nil]
  have hdrop : (front ++ c :: rest).dropWhile (· ≠ c) = c :: rest := by
    rw [List.dropWhile_append_of_pos hpass, List.dropWhile_cons_of_neg (by simp)]
  obtain ⟨d, front, rfl⟩ := List.exists_cons_of_ne_nil hne
  rw [splitBefore, htake, hdrop]

theorem splitBefore_eq_self (h : c ∈ text → text.head? = some c) :
    splitBefore c text = (text, none) := by
  by_cases hc : c ∈ text
  · obtain ⟨rest, rfl⟩ := List.head?_eq_some_iff.mp (h hc)
    simp [splitBefore]
  · have hdrop : text.dropWhile (· ≠ c) = [] := by
      rw [List.dropWhile_eq_nil_iff]
      intro d hd
      simpa using fun he : d = c => hc (he ▸ hd)
    rw [splitBefore, hdrop]
    split
    · rfl
    · rfl
    · rename_i hnil
      exact absurd rfl hnil

/-- A text is split before the first occurrence of the character, or it is not split. -/
theorem splitBefore_cases (c : Char) (text : Text) :
    ((c ∈ text → text.head? = some c) ∧ splitBefore c text = (text, none)) ∨
      ∃ front rest : Text, front ≠ [] ∧ c ∉ front ∧ text = front ++ c :: rest ∧
        splitBefore c text = (front, some (c :: rest)) := by
  by_cases h : c ∈ text → text.head? = some c
  · exact .inl ⟨h, splitBefore_eq_self h⟩
  · obtain ⟨hc, hhead⟩ := Classical.not_imp.mp h
    obtain ⟨front, rest, rfl, hfront⟩ := List.eq_append_cons_of_mem hc
    have hne : front ≠ [] := by
      rintro rfl
      exact hhead rfl
    exact .inr ⟨front, rest, hne, hfront, rfl, splitBefore_append hne hfront rest⟩

end Split

/-! ## The name in a declarator -/

/-- A declarator is a name with nothing behind it, or with a value. -/
def HasName (declarator name : Text) : Prop :=
  ∃ rest : Text, declarator = name ++ rest ∧
    (rest = [] ∨ ∃ gap value, (∀ c ∈ gap, isBlank c = true) ∧ rest = gap ++ '=' :: value)

def nameIn (declarator : Text) : Text := (splitBefore '=' declarator).1.trim

/-- What a name is to the declarator that it was found in. -/
structure Names (name declarator : Text) : Prop where
  hasName : HasName declarator name
  trimmed : name.Trimmed
  equals : '=' ∈ name → declarator.head? = some '='
  ne_nil : name = [] → declarator = []

theorem Names.head?_eq {name declarator : Text} (h : Names name declarator) :
    name.head? = declarator.head? := by
  obtain ⟨rest, he, -⟩ := h.hasName
  cases name with
  | nil => rw [h.ne_nil rfl]
  | cons c name => rw [he]; rfl

theorem Names.subset {name declarator : Text} (h : Names name declarator) :
    name ⊆ declarator := by
  obtain ⟨rest, he, -⟩ := h.hasName
  rw [he]
  exact List.subset_append_left name rest

section Front

variable {text : Text} (hfront : ∀ c ∈ text.head?, isBlank c = false)

include hfront

theorem trim_eq_trimEnd : text.trim = text.trimEnd := by
  rw [Text.trim, Text.trimStart_eq_self hfront]

theorem trim_eq_nil_iff : text.trim = [] ↔ text = [] := by
  refine ⟨fun h => ?_, fun h => by rw [h]; rfl⟩
  have hhead := Text.head?_trim hfront
  rw [h] at hhead
  exact List.head?_eq_none_iff.mp hhead.symm

/-- The name is found at the front of the declarator. -/
theorem names_trim : Names (nameIn text) text.trim := by
  rcases splitBefore_cases '=' text with ⟨h, he⟩ | ⟨front, value, hne, hequals, rfl, he⟩
  · rw [nameIn, he]
    refine ⟨⟨[], (List.append_nil _).symm, .inl rfl⟩, Text.trimmed_trim text, ?_, fun hn => hn⟩
    intro hmem
    rw [Text.head?_trim hfront]
    exact h (Text.mem_of_mem_trim hmem)
  · have hstart : ∀ c ∈ front.head?, isBlank c = false := fun c hc =>
      hfront c (List.mem_head?_append_of_mem_head? hc)
    have htrim : (front ++ '=' :: value).trim = front ++ '=' :: value.trimEnd := by
      rw [trim_eq_trimEnd hfront, Text.trimEnd_append_cons (by decide)]
    rw [nameIn, he, htrim]
    obtain ⟨gap, hgap, hblank⟩ := Text.exists_eq_trimEnd_append front
    refine ⟨⟨gap ++ '=' :: value.trimEnd, ?_, .inr ⟨gap, _, hblank, rfl⟩⟩,
      Text.trimmed_trim front, fun hmem => absurd (Text.mem_of_mem_trim hmem) hequals,
      fun hn => absurd ((trim_eq_nil_iff hstart).mp hn) hne⟩
    rw [trim_eq_trimEnd hstart, ← List.append_assoc, ← hgap]

theorem nameIn_trim_append {gap : Text} (hgap : ∀ c ∈ gap, isBlank c = true) :
    nameIn (text.trim ++ gap) = nameIn text := by
  rcases splitBefore_cases '=' text with ⟨h, he⟩ | ⟨front, value, hne, hequals, rfl, he⟩
  · have hkept : '=' ∈ text.trim ++ gap → (text.trim ++ gap).head? = some '=' := by
      intro hmem
      rcases List.mem_append.mp hmem with hmem | hmem
      · refine List.mem_head?_append_of_mem_head? (Option.mem_def.mpr ?_)
        rw [Text.head?_trim hfront]
        exact h (Text.mem_of_mem_trim hmem)
      · exact absurd (hgap _ hmem) (by decide)
    rw [nameIn, nameIn, he, splitBefore_eq_self hkept, Text.trim_append_of_blank hgap,
      Text.trim_trim]
  · have htrim : (front ++ '=' :: value).trim ++ gap =
        front ++ '=' :: (value.trimEnd ++ gap) := by
      rw [trim_eq_trimEnd hfront, Text.trimEnd_append_cons (by decide), List.append_assoc,
        List.cons_append]
    rw [nameIn, nameIn, he, htrim, splitBefore_append hne hequals]

end Front

theorem nameIn_eq_self {name : Text} (h : name.Trimmed)
    (hequals : '=' ∈ name → name.head? = some '=') : nameIn name = name := by
  rw [nameIn, splitBefore_eq_self hequals, Text.trim_eq_self_iff.mpr h]

/-! ## Entries -/

/-- What an entry tells of the text that it was read from, blanks at the ends of the text
left aside. -/
structure ReadFrom (e : Entry) (text : Text) : Prop where
  /-- The declarator and the payload are the text, but for blanks between them. -/
  whole : ∃ gap : Text, (∀ c ∈ gap, isBlank c = true) ∧
    text = e.declarator ++ (gap ++ e.payload?.getD [])
  name : HasName e.declarator e.name
  payload : ∀ payload ∈ e.payload?, payload.head? = some '(' ∧ '(' ∉ e.declarator
  paren : '(' ∈ e.name → text.head? = some '('
  equals : '=' ∈ e.name → text.head? = some '='
  ne_nil : e.name = [] → text = []
  /-- The parts are read as the entry again, whatever blanks are put between them. -/
  again : ∀ gap : Text, (∀ c ∈ gap, isBlank c = true) →
    ofText (e.declarator ++ (gap ++ e.payload?.getD [])) = e
  declarator_again : ofText e.declarator = ⟨e.name, e.declarator, none⟩
  name_again : ofText e.name = ⟨e.name, e.name, none⟩

theorem ofText_of_not_split {text : Text} (h : '(' ∈ text.trim → text.trim.head? = some '(') :
    ofText text = ⟨nameIn text.trim, text.trim, none⟩ := by
  rw [ofText, splitBefore_eq_self h]
  simp [nameIn]

theorem ofText_of_split {text front rest : Text} (hne : front ≠ []) (h : '(' ∉ front)
    (htext : text.trim = front ++ '(' :: rest) :
    ofText text = ⟨nameIn front, front.trim, some ('(' :: rest)⟩ := by
  have hpayload : Text.Trimmed ('(' :: rest) := by
    refine ⟨by simp; decide, fun c hc => (Text.trimmed_trim text).2 c ?_⟩
    rw [htext]
    exact List.mem_getLast?_append_of_mem_getLast? hc
  rw [ofText, htext, splitBefore_append hne h]
  simp [nameIn, Text.trim_eq_self_iff.mpr hpayload]

theorem ofText_name {name declarator : Text} (h : Names name declarator)
    (hparen : '(' ∈ declarator → declarator.head? = some '(') :
    ofText name = ⟨name, name, none⟩ := by
  have htrim := Text.trim_eq_self_iff.mpr h.trimmed
  have hname : nameIn name = name :=
    nameIn_eq_self h.trimmed fun he => h.head?_eq.trans (h.equals he)
  rw [ofText_of_not_split, htrim, hname]
  rw [htrim, h.head?_eq]
  exact fun hmem => hparen (h.subset hmem)

/-! ### Entries without a payload -/

section Whole

variable {text : Text} (hparen : '(' ∈ text.trim → text.trim.head? = some '(')

include hparen

theorem ofText_trim_append {gap : Text} (hgap : ∀ c ∈ gap, isBlank c = true) :
    ofText (text.trim ++ gap) = ⟨nameIn text.trim, text.trim, none⟩ := by
  have htrim : (text.trim ++ gap).trim = text.trim := by
    rw [Text.trim_append_of_blank hgap, Text.trim_trim]
  rw [ofText_of_not_split (htrim.symm ▸ hparen), htrim]

theorem readFrom_of_not_split :
    ReadFrom ⟨nameIn text.trim, text.trim, none⟩ text.trim := by
  have hnames : Names (nameIn text.trim) text.trim := by
    simpa only [Text.trim_trim] using names_trim (Text.trimmed_trim text).1
  exact {
    whole := ⟨[], List.forall_mem_nil _, by simp⟩
    name := hnames.hasName
    payload := by simp
    paren := fun hmem => hparen (hnames.subset hmem)
    equals := hnames.equals
    ne_nil := hnames.ne_nil
    again := fun gap hgap => by simpa using ofText_trim_append hparen hgap
    declarator_again := by simpa using ofText_trim_append hparen (List.forall_mem_nil _)
    name_again := ofText_name hnames hparen }

end Whole

/-! ### Entries with a payload -/

section Parts

variable {text front rest : Text} (hne : front ≠ []) (hparen : '(' ∉ front)
  (htext : text.trim = front ++ '(' :: rest)

include htext

theorem head?_front : ∀ c ∈ front.head?, isBlank c = false := by
  intro c hc
  refine (Text.trimmed_trim text).1 c ?_
  rw [htext]
  exact List.mem_head?_append_of_mem_head? hc

theorem getLast?_rest : ∀ c ∈ rest.getLast?, isBlank c = false := by
  intro c hc
  refine (Text.trimmed_trim text).2 c ?_
  rw [htext, List.append_cons]
  exact List.mem_getLast?_append_of_mem_getLast? hc

include hne hparen

theorem ofText_front_append {gap : Text} (hgap : ∀ c ∈ gap, isBlank c = true) :
    ofText (front.trim ++ (gap ++ '(' :: rest)) =
      ⟨nameIn front, front.trim, some ('(' :: rest)⟩ := by
  have hfront := head?_front htext
  have hdeclarator : front.trim ++ gap ≠ [] := by
    simp [trim_eq_nil_iff hfront, hne]
  have hgapParen : '(' ∉ front.trim ++ gap := by
    rw [List.mem_append, not_or]
    exact ⟨fun hmem => hparen (Text.mem_of_mem_trim hmem),
      fun hmem => absurd (hgap _ hmem) (by decide)⟩
  have hhead : ∀ c ∈ (front.trim ++ gap ++ '(' :: rest).head?, isBlank c = false := by
    intro c hc
    rw [List.append_assoc, List.head?_append, Text.head?_trim hfront] at hc
    obtain ⟨d, front, rfl⟩ := List.exists_cons_of_ne_nil hne
    exact hfront c hc
  have hlast : ∀ c ∈ (front.trim ++ gap ++ '(' :: rest).getLast?, isBlank c = false :=
    Text.getLast?_append_cons (by decide) (getLast?_rest htext) _
  rw [← List.append_assoc, ofText_of_split hdeclarator hgapParen
    (Text.trim_eq_self_iff.mpr ⟨hhead, hlast⟩), nameIn_trim_append hfront hgap,
    Text.trim_append_of_blank hgap, Text.trim_trim]

theorem readFrom_of_split :
    ReadFrom ⟨nameIn front, front.trim, some ('(' :: rest)⟩ text.trim := by
  have hfront := head?_front htext
  have hnames := names_trim hfront
  have hdeclarator : '(' ∉ front.trim := fun hmem => hparen (Text.mem_of_mem_trim hmem)
  exact {
    whole := by
      obtain ⟨gap, hgap, hblank⟩ := Text.exists_eq_trimEnd_append front
      refine ⟨gap, hblank, ?_⟩
      rw [htext, trim_eq_trimEnd hfront, Option.getD_some, ← List.append_assoc, ← hgap]
    name := hnames.hasName
    payload := by simpa using hdeclarator
    paren := fun hmem => absurd (hnames.subset hmem) hdeclarator
    equals := by
      intro hmem
      rw [htext]
      refine List.mem_head?_append_of_mem_head? (Option.mem_def.mpr ?_)
      rw [← Text.head?_trim hfront]
      exact hnames.equals hmem
    ne_nil := fun hn => absurd ((trim_eq_nil_iff hfront).mp (hnames.ne_nil hn)) hne
    again := fun gap hgap => ofText_front_append hne hparen htext hgap
    declarator_again := by
      have hsame := nameIn_trim_append hfront (List.forall_mem_nil _)
      rw [List.append_nil] at hsame
      rw [ofText_of_not_split, Text.trim_trim, hsame]
      rw [Text.trim_trim]
      exact fun hmem => absurd hmem hdeclarator
    name_again := ofText_name hnames fun hmem => absurd hmem hdeclarator }

end Parts

/-- Reading an entry loses nothing, and reading its parts gives them back. -/
theorem ofText_readFrom (text : Text) : ReadFrom (ofText text) text.trim := by
  rcases splitBefore_cases '(' text.trim with ⟨hparen, -⟩ | ⟨front, rest, hne, hparen, htext, -⟩
  · rw [ofText_of_not_split hparen]
    exact readFrom_of_not_split hparen
  · rw [ofText_of_split hne hparen htext]
    exact readFrom_of_split hne hparen htext

/-- A sign at the front ends nothing, and a value in the payload is no value of the name. -/
example : ofText " =A (b=1) " = ⟨"=A", "=A", some "(b=1)"⟩ := by decide +kernel

end EnumCodegen.Entry
