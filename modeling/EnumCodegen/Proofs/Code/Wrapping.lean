import EnumCodegen.Proofs.Code.Lines

/-! # Lines put under a condition

A condition adds two lines, one before and one after the lines that it covers. Whatever
else stands in two texts, and be it the same directives, they agree when the directives of
that condition are left out of both. -/

namespace EnumCodegen

open Code

/-- The second list is the first with a number of stretches of its lines put between the
directives of a condition. -/
inductive Wraps (c : Text) : Nat → List Text → List Text → Prop where
  | same (lines : List Text) : Wraps c 0 lines lines
  | around (lines : List Text) : Wraps c 1 lines (ifLine c :: (lines ++ [endLine c]))
  | append {n m : Nat} {front front' back back' : List Text} :
      Wraps c n front front' → Wraps c m back back' →
      Wraps c (n + m) (front ++ back) (front' ++ back')

def withoutDirectives (c : Text) (lines : List Text) : List Text :=
  lines.filter fun line => line ≠ ifLine c ∧ line ≠ endLine c

theorem withoutDirectives_append (c : Text) (lines lines' : List Text) :
    withoutDirectives c (lines ++ lines') =
      withoutDirectives c lines ++ withoutDirectives c lines' :=
  List.filter_append ..

theorem ifLine_ne_endLine (c c' : Text) : ifLine c ≠ endLine c' := by
  simp [ifLine, endLine, Text.ofString_eq]

namespace Wraps

variable {c : Text} {n : Nat} {lines lines' : List Text}

theorem withoutDirectives_eq (h : Wraps c n lines lines') :
    withoutDirectives c lines' = withoutDirectives c lines := by
  induction h with
  | same lines => rfl
  | around lines =>
      change withoutDirectives c ([ifLine c] ++ (lines ++ [endLine c])) = _
      rw [withoutDirectives_append, withoutDirectives_append]
      simp [withoutDirectives]
  | append _ _ ih₁ ih₂ => rw [withoutDirectives_append, withoutDirectives_append, ih₁, ih₂]

theorem count_ifLine_eq (h : Wraps c n lines lines') :
    lines'.count (ifLine c) = lines.count (ifLine c) + n := by
  induction h with
  | same lines => rfl
  | around lines => simp [List.count_append, (ifLine_ne_endLine c c).symm]
  | append _ _ ih₁ ih₂ =>
      rw [List.count_append, List.count_append, ih₁, ih₂]
      omega

theorem count_endLine_eq (h : Wraps c n lines lines') :
    lines'.count (endLine c) = lines.count (endLine c) + n := by
  induction h with
  | same lines => rfl
  | around lines => simp [List.count_append, ifLine_ne_endLine c c]
  | append _ _ ih₁ ih₂ =>
      rw [List.count_append, List.count_append, ih₁, ih₂]
      omega

theorem append_same (h : Wraps c n lines lines') (back : List Text) :
    Wraps c n (lines ++ back) (lines' ++ back) := h.append (.same back)

theorem same_append (h : Wraps c n lines lines') (front : List Text) :
    Wraps c n (front ++ lines) (front ++ lines') :=
  Nat.zero_add n ▸ (same front).append h

section Parts

variable {α : Type} {items : List α} {part part' : α → List Text}

/-- Parts that are each put under as many conditions. -/
theorem flatMap (h : ∀ item ∈ items, Wraps c n (part item) (part' item)) :
    Wraps c (items.length * n) (items.flatMap part) (items.flatMap part') := by
  induction items with
  | nil =>
      rw [List.length_nil, Nat.zero_mul]
      exact .same []
  | cons item items ih =>
      rw [List.forall_mem_cons] at h
      rw [List.length_cons, Nat.succ_mul, Nat.add_comm]
      exact h.1.append (ih h.2)

/-- One item is changed in two ways, and its part is put under as many conditions. -/
theorem flatMap_modify {k : Nat} {item : α} {f f' : α → α} (hk : items[k]? = some item)
    (h : Wraps c n (part (f item)) (part (f' item))) :
    Wraps c n ((items.modify k f).flatMap part) ((items.modify k f').flatMap part) := by
  obtain ⟨hlt, rfl⟩ := List.getElem?_eq_some_iff.mp hk
  rw [List.modify_eq_take_cons_drop hlt, List.modify_eq_take_cons_drop hlt,
    List.flatMap_append, List.flatMap_append, List.flatMap_cons, List.flatMap_cons]
  exact (h.append_same _).same_append _

end Parts

end Wraps

/-! ## Trees -/

namespace Code

/-- The lines that the text of a tree is cut into. A text of the tree that goes over the end
of a line makes several of them. -/
def readLines (unit : Text) (code : Code) : List Text :=
  (code.linesAt 0).flatMap fun l => pieces '\n' (l.indented unit)

section ReadLines

variable (unit : Text) {first body : Code}

theorem pieces_render_eq (code : Code) :
    pieces '\n' (code.render unit) = code.readLines unit ++ [[]] := by
  have hrender : code.render unit =
      ((code.linesAt 0).map (Line.indented unit)).flatMap (· ++ ['\n']) := by
    rw [List.flatMap_map]
    rfl
  rw [hrender, pieces_flatMap_append_separator, List.flatMap_map]
  rfl

theorem lines_render_eq (code : Code) : Text.lines (code.render unit) = code.readLines unit := by
  rw [Text.lines, pieces_render_eq, List.dropLast_concat]

theorem Balanced.readLines_append (h : first.Balanced) (second : Code) :
    (first ++ second).readLines unit = first.readLines unit ++ second.readLines unit := by
  rw [readLines, linesAt_append h, List.flatMap_append]
  rfl

theorem readLines_all_map {α : Type} {piece : α → Code} (h : ∀ item, (piece item).Steady)
    (items : List α) :
    (all (items.map piece)).readLines unit =
      items.flatMap fun item => (piece item).readLines unit := by
  rw [readLines, linesAt_all_map h, List.flatMap_assoc]
  rfl

theorem readLines_conditional_of_none {plain? : Option Text} (h : tested? plain? = none) :
    (conditional plain? body).readLines unit = body.readLines unit := by
  rw [readLines, linesAt_conditional, wrapped, h]
  rfl

theorem readLines_conditional_some {c : Text} (hne : c ≠ []) (hline : '\n' ∉ c) :
    (conditional (some c) body).readLines unit =
      ifLine c :: (body.readLines unit ++ [endLine c]) := by
  have htested : tested? (some c) = some c := by simp [tested?, hne]
  have hif : '\n' ∉ ifLine c := by simp [ifLine, Text.ofString_eq, hline]
  have hend : '\n' ∉ endLine c := by simp [endLine, Text.ofString_eq, hline]
  rw [readLines, linesAt_conditional, wrapped, htested]
  simp [readLines, pieces_of_not_mem hif, pieces_of_not_mem hend]

end ReadLines

end Code

/-! ## Texts -/

/-- Two texts are the same but for a number of places where lines are put under a condition:
that many lines more open it and close it, and without them the lines are the same. -/
structure SameButCondition (c : Text) (n : Nat) (plain wrapped : Text) : Prop where
  /-- Nothing follows the last line feed. -/
  ended : pieces '\n' plain = Text.lines plain ++ [[]] ∧
    pieces '\n' wrapped = Text.lines wrapped ++ [[]]
  wraps : Wraps c n (Text.lines plain) (Text.lines wrapped)
  same : withoutDirectives c (Text.lines wrapped) = withoutDirectives c (Text.lines plain)
  opening : (Text.lines wrapped).count (ifLine c) = (Text.lines plain).count (ifLine c) + n
  closing : (Text.lines wrapped).count (endLine c) = (Text.lines plain).count (endLine c) + n

theorem Wraps.render {c unit : Text} {n : Nat} {code code' : Code}
    (h : Wraps c n (code.readLines unit) (code'.readLines unit)) :
    SameButCondition c n (code.render unit) (code'.render unit) := by
  rw [← lines_render_eq, ← lines_render_eq] at h
  refine ⟨⟨?_, ?_⟩, h, h.withoutDirectives_eq, h.count_ifLine_eq, h.count_endLine_eq⟩
  · rw [lines_render_eq, pieces_render_eq]
  · rw [lines_render_eq, pieces_render_eq]

end EnumCodegen
