import EnumCodegen.Guard
import EnumCodegen.Proofs.Storage.FileName
import EnumCodegen.Proofs.Text.Decoding

/-! # Titles

The title of a description is the name its path ends in, as far as that decodes, without its
extension. Only the last dot of a name can begin an extension, and only behind some other
character. -/

namespace EnumCodegen.Guard

/-! ## Extensions -/

section Extensions

variable {name title : Text}

/-- A name is cut at its last dot if some name is left then, and else it stays whole. -/
inductive Shortens (name : Text) : Text → Prop where
  | cut {front ext} (h : name = front ++ '.' :: ext) (hne : front ≠ []) (hdot : '.' ∉ ext) :
      Shortens name front
  | whole (h : '.' ∉ name.tail) : Shortens name name

theorem Shortens.isPrefix (h : Shortens name title) : title <+: name := by
  cases h with
  | cut h => exact h ▸ List.prefix_append _ _
  | whole => exact List.prefix_rfl

theorem Shortens.ne_nil (h : Shortens name title) (hname : name ≠ []) : title ≠ [] := by
  cases h with
  | cut _ hne => exact hne
  | whole => exact hname

theorem dropWhile_reverse_append (front : Text) {ext : Text} (hdot : '.' ∉ ext) :
    (front ++ ext).reverse.dropWhile (· ≠ '.') = front.reverse.dropWhile (· ≠ '.') := by
  have hpass : ∀ c ∈ ext.reverse, decide (c ≠ '.') = true := by
    intro c hc
    simpa using fun he : c = '.' => hdot (he ▸ List.mem_reverse.mp hc)
  rw [List.reverse_append, List.dropWhile_append_of_pos hpass]

theorem withoutExtension_append {front ext : Text} (hne : front ≠ []) (hdot : '.' ∉ ext) :
    withoutExtension (front ++ '.' :: ext) = front := by
  obtain ⟨front, c, rfl⟩ := (List.eq_nil_or_concat' front).resolve_left hne
  rw [withoutExtension, List.append_cons, dropWhile_reverse_append _ hdot]
  simp

theorem withoutExtension_of_not_mem (h : '.' ∉ name.tail) : withoutExtension name = name := by
  cases name with
  | nil => rfl
  | cons c rest =>
      rw [List.tail_cons] at h
      rw [withoutExtension, ← List.singleton_append, dropWhile_reverse_append [c] h]
      by_cases hc : c = '.' <;> simp [hc]

theorem exists_last_dot (h : '.' ∈ name.tail) :
    ∃ front ext, name = front ++ '.' :: ext ∧ front ≠ [] ∧ '.' ∉ ext := by
  cases name with
  | nil => cases h
  | cons c rest =>
      -- the last dot is the first one from the back
      obtain ⟨ext, front, he, hdot⟩ := List.eq_append_cons_of_mem (List.mem_reverse.mpr h)
      refine ⟨c :: front.reverse, ext.reverse, ?_, List.cons_ne_nil _ _, by simpa using hdot⟩
      rw [List.cons_append, ← List.reverse_reverse rest]
      simpa using congrArg List.reverse he

theorem withoutExtension_eq_iff : withoutExtension name = title ↔ Shortens name title := by
  constructor
  · rintro rfl
    by_cases h : '.' ∈ name.tail
    · obtain ⟨front, ext, rfl, hne, hdot⟩ := exists_last_dot h
      rw [withoutExtension_append hne hdot]
      exact .cut rfl hne hdot
    · rw [withoutExtension_of_not_mem h]
      exact .whole h
  · intro h
    cases h with
    | cut h hne hdot => exact h ▸ withoutExtension_append hne hdot
    | whole h => exact withoutExtension_of_not_mem h

end Extensions

/-! ## Titles of paths -/

/-- A path gives the shortened name that it ends in, and the empty title if it ends in none. -/
structure IsTitle (input : Path) (title : Text) : Prop where
  named : ∀ name, input.EndsIn name → title ≠ [] ∧ Shortens (Utf8.decodeLossy name) title
  nameless : (∀ name, ¬ input.EndsIn name) → title = []
  slash_not_mem : '/' ∉ title

theorem slash_not_mem_decodeLossy {name : Bytes} (h : Path.slash ∉ name) :
    '/' ∉ Utf8.decodeLossy name :=
  Utf8.not_mem_decodeLossy (by decide) (by decide) h

section Title

variable {input : Path} {name : Bytes}

theorem shortens_title (h : input.EndsIn name) :
    Shortens (Utf8.decodeLossy name) (title input) := by
  rw [← withoutExtension_eq_iff, title, Path.fileName?_eq_some_iff.mpr h]
  rfl

theorem title_ne_nil (h : input.EndsIn name) : title input ≠ [] :=
  (shortens_title h).ne_nil (Utf8.decodeLossy_ne_nil h.ne_nil)

theorem title_eq_nil (h : ∀ name, ¬ input.EndsIn name) : title input = [] := by
  have hnone : input.fileName? = none := by
    apply Option.eq_none_iff_forall_ne_some.mpr
    exact fun name hname => h name (Path.fileName?_eq_some_iff.mp hname)
  rw [title, hnone]
  rfl

theorem slash_not_mem_title (input : Path) : '/' ∉ title input := by
  by_cases h : ∃ name, input.EndsIn name
  · obtain ⟨name, h⟩ := h
    intro hslash
    exact slash_not_mem_decodeLossy h.slash_not_mem ((shortens_title h).isPrefix.subset hslash)
  · rw [title_eq_nil (not_exists.mp h)]
    exact List.not_mem_nil

theorem isTitle_title (input : Path) : IsTitle input (title input) where
  named _ h := ⟨title_ne_nil h, shortens_title h⟩
  nameless := title_eq_nil
  slash_not_mem := slash_not_mem_title input

end Title

end EnumCodegen.Guard
