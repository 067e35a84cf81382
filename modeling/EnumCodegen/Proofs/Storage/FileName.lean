import EnumCodegen.Proofs.Storage.Components

/-! # The name a path ends in

A path has a file name just when it is spelled so that it ends in one: between a slash, or the
front of the path, and a tail that leads nowhere else. -/

namespace EnumCodegen

/-! ## The last that passes -/

theorem getLast?_filter_eq_some_iff {α : Type} {q : α → Bool} {xs : List α} {x : α} :
    (xs.filter q).getLast? = some x ↔
      q x = true ∧ ∃ front back, xs = front ++ x :: back ∧ ∀ y ∈ back, q y = false := by
  rw [List.getLast?_filter, List.find?_eq_some_iff_append]
  refine and_congr_right fun _ => ?_
  constructor
  · rintro ⟨back, front, h, hback⟩
    refine ⟨front.reverse, back.reverse, ?_, fun y hy => ?_⟩
    · rw [← List.reverse_reverse xs, h]
      simp
    · simpa using hback y (List.mem_reverse.mp hy)
  · rintro ⟨front, back, rfl, hback⟩
    refine ⟨back.reverse, front.reverse, by simp, fun y hy => ?_⟩
    simpa using hback y (List.mem_reverse.mp hy)

/-! ## Joining around a part -/

section Joining

variable {α : Type} {separator : α}

theorem intercalate_cons (part : List α) (parts : List (List α)) :
    [separator].intercalate (part :: parts) = part ++ parts.flatMap (separator :: ·) := by
  induction parts generalizing part with
  | nil => simp [List.intercalate_singleton]
  | cons next parts ih => simp [List.intercalate_cons_cons, ih]

theorem intercalate_append_cons (above : List (List α)) (part : List α)
    (below : List (List α)) :
    [separator].intercalate (above ++ part :: below) =
      above.flatMap (· ++ [separator]) ++ part ++ below.flatMap (separator :: ·) := by
  induction above with
  | nil => simpa using intercalate_cons part below
  | cons first above ih =>
      rw [List.cons_append, List.intercalate_cons_of_ne_nil (by simp), ih]
      simp

end Joining

namespace Path

/-! ## Spelling -/

/-- What leads on to nothing: empty names and single dots, each behind a slash. -/
inductive Trailing : Bytes → Prop where
  | nil : Trailing []
  | cons {name back} (hname : name = [] ∨ name = dot) (h : Trailing back) :
      Trailing (slash :: (name ++ back))

/-- A path ends in a name that is spelled behind a slash or at its front, and before what leads
on to nothing. The two dot names are no names of this kind. -/
structure EndsIn (p : Path) (name : Bytes) : Prop where
  spelled : ∃ front back, p.bytes = front ++ name ++ back ∧
    (front = [] ∨ front.getLast? = some slash) ∧ Trailing back
  ne_nil : name ≠ []
  slash_not_mem : slash ∉ name
  ne_dot : name ≠ dot
  ne_dotDot : name ≠ dotDot

theorem trailing_flatMap {names : List Bytes} (h : ∀ name ∈ names, name = [] ∨ name = dot) :
    Trailing (names.flatMap (slash :: ·)) := by
  induction names with
  | nil => exact .nil
  | cons name names ih =>
      rw [List.forall_mem_cons] at h
      exact .cons h.1 (ih h.2)

theorem Trailing.exists_flatMap {back : Bytes} (h : Trailing back) :
    ∃ names : List Bytes, back = names.flatMap (slash :: ·) ∧
      ∀ name ∈ names, name = [] ∨ name = dot := by
  induction h with
  | nil => exact ⟨[], rfl, List.forall_mem_nil _⟩
  | @cons name back hname h ih =>
      obtain ⟨names, rfl, hnames⟩ := ih
      exact ⟨name :: names, rfl, List.forall_mem_cons.mpr ⟨hname, hnames⟩⟩

theorem slash_not_mem_of_trailing {name : Bytes} (h : name = [] ∨ name = dot) : slash ∉ name := by
  rcases h with rfl | rfl
  · exact List.not_mem_nil
  · decide

/-! ## Names -/

variable {p : Path} {name : Bytes}

/-- Of names without single dots the last is the file name, unless it leads up. -/
theorem getLast?_filter_dot (names : List Bytes) :
    ((names.filter (· ≠ dot)).getLast?.filter fun name => name ≠ dot ∧ name ≠ dotDot) =
      (names.filter (· ≠ dot)).getLast?.filter (· ≠ dotDot) := by
  cases h : (names.filter (· ≠ dot)).getLast? with
  | none => rfl
  | some name =>
      have hdot : name ≠ dot := by simpa using (List.mem_filter.mp (List.mem_of_getLast? h)).2
      simp [Option.filter, hdot]

theorem fileName?_eq (p : Path) :
    p.fileName? = (p.names.filter (· ≠ dot)).getLast?.filter (· ≠ dotDot) := by
  rw [fileName?, components]
  cases p.names with
  | nil => rfl
  | cons first rest =>
      rw [← getLast?_filter_dot]
      cases p.isAbsolute with
      | true => rfl
      | false =>
          simp only [Bool.false_eq_true, if_false]
          by_cases hfirst : first = dot
          · -- a leading dot is the last component only where it is the only one
            rw [hfirst, List.filter_cons_of_neg (by simp)]
            cases rest.filter (· ≠ dot) with
            | nil => rfl
            | cons next rest => rw [List.getLast?_cons_cons]
          · rw [List.filter_cons_of_pos (by simpa using hfirst)]

theorem fileName?_eq_some_iff_pieces :
    p.fileName? = some name ↔
      (name ≠ [] ∧ name ≠ dot ∧ name ≠ dotDot) ∧
        ∃ above below, pieces slash p.bytes = above ++ name :: below ∧
          ∀ piece ∈ below, piece = [] ∨ piece = dot := by
  have hpiece : ∀ piece : Bytes, (piece ≠ dot → piece = []) ↔ piece = [] ∨ piece = dot := by
    intro piece
    tauto
  rw [fileName?_eq, Option.filter_eq_some_iff, names, List.filter_filter,
    getLast?_filter_eq_some_iff]
  simp only [ne_eq, decide_not, Bool.and_eq_true, Bool.not_eq_eq_eq_not, Bool.not_true,
    decide_eq_false_iff_not, Bool.and_eq_false_imp, Bool.not_false, decide_eq_true_eq, hpiece]
  tauto

/-- A path has a file name just when it ends in it. -/
theorem fileName?_eq_some_iff : p.fileName? = some name ↔ p.EndsIn name := by
  rw [fileName?_eq_some_iff_pieces]
  constructor
  · rintro ⟨⟨hne, hdot, hdotDot⟩, above, below, hpieces, hbelow⟩
    have hmem : name ∈ pieces slash p.bytes := by simp [hpieces]
    refine ⟨⟨above.flatMap (· ++ [slash]), below.flatMap (slash :: ·), ?_, ?_, ?_⟩, hne,
      not_mem_of_mem_pieces hmem, hdot, hdotDot⟩
    · rw [← intercalate_append_cons, ← hpieces, intercalate_pieces]
    · rcases List.eq_nil_or_concat' above with rfl | ⟨front, last, rfl⟩
      · exact .inl rfl
      · exact .inr (by simp)
    · exact trailing_flatMap hbelow
  · rintro ⟨⟨front, back, hbytes, hfront, hback⟩, hne, hslash, hdot, hdotDot⟩
    obtain ⟨below, rfl, hbelow⟩ := hback.exists_flatMap
    have hnames : pieces slash (name ++ below.flatMap (slash :: ·)) = name :: below := by
      rw [← intercalate_cons]
      refine pieces_intercalate (List.cons_ne_nil _ _) (List.forall_mem_cons.mpr ⟨hslash, ?_⟩)
      exact fun piece hp => slash_not_mem_of_trailing (hbelow piece hp)
    rw [List.append_assoc] at hbytes
    refine ⟨⟨hne, hdot, hdotDot⟩, ?_⟩
    rcases hfront with rfl | hfront
    · exact ⟨[], below, by rw [hbytes, List.nil_append, hnames]; rfl, hbelow⟩
    · obtain ⟨front, rfl⟩ := List.getLast?_eq_some_iff.mp hfront
      refine ⟨pieces slash front, below, ?_, hbelow⟩
      rw [hbytes, List.append_assoc, List.singleton_append, pieces_append_separator, hnames]

end Path

end EnumCodegen
