import EnumCodegen.Proofs.Code.Indentation
import Mathlib.Data.List.TakeWhile

/-! # Blocks in the lines of source text

In the lines of a text a block is found by its header, which a brace follows, and read up
to the line that closes it. A tree without a block of that header adds none to what is
found, however deep its own blocks are nested. -/

namespace EnumCodegen

/-- What stands in the blocks with a header: the lines after the brace that follows the
header, up to the first line that closes the block. -/
def blocksOf (header close : Text) : List Text → List (List Text)
  | [] => []
  | line :: rest =>
    if line = header ∧ rest.head? = some ("\x7b" : Text) then
      rest.tail.takeWhile (· ≠ close) :: blocksOf header close rest
    else blocksOf header close rest

/-- Lines that do not start with a brace and show blocks before all that follows them. -/
def Shows (header close : Text) (lines : List Text) (found : List (List Text)) : Prop :=
  ∀ rest : List Text, rest.head? ≠ some ("\x7b" : Text) →
    (lines ++ rest).head? ≠ some ("\x7b" : Text) ∧
      blocksOf header close (lines ++ rest) = found ++ blocksOf header close rest

section Blocks

variable {header close : Text} {lines lines' rest : List Text} {found found' : List (List Text)}

theorem blocksOf_cons_of_head? (line : Text) (h : rest.head? ≠ some ("\x7b" : Text)) :
    blocksOf header close (line :: rest) = blocksOf header close rest := by
  rw [blocksOf, if_neg (fun hl => h hl.2)]

theorem Shows.blocksOf_eq (h : Shows header close lines found) :
    blocksOf header close lines = found := by
  simpa [blocksOf] using (h [] (by simp)).2

theorem shows_nil : Shows header close [] [] := fun _ hrest => ⟨hrest, rfl⟩

theorem Shows.append (h : Shows header close lines found) (h' : Shows header close lines' found') :
    Shows header close (lines ++ lines') (found ++ found') := by
  intro rest hrest
  obtain ⟨hhead', hblocks'⟩ := h' rest hrest
  obtain ⟨hhead, hblocks⟩ := h _ hhead'
  rw [List.append_assoc]
  exact ⟨hhead, by rw [hblocks, hblocks', List.append_assoc]⟩

theorem shows_singleton {line : Text} (h : line ≠ "\x7b") : Shows header close [line] [] :=
  fun _ hrest => ⟨by simpa using h, blocksOf_cons_of_head? line hrest⟩

theorem Shows.cons {line : Text} (h : Shows header close lines found) (hline : line ≠ "\x7b") :
    Shows header close (line :: lines) found :=
  (shows_singleton hline).append h

theorem takeWhile_ne_of_not_mem {α : Type} [DecidableEq α] {xs : List α} {last : α}
    (h : last ∉ xs) : xs.takeWhile (· ≠ last) = xs := by
  refine List.takeWhile_eq_self_iff.mpr fun x hx => ?_
  simpa using fun he : x = last => h (he ▸ hx)

theorem takeWhile_ne_append_cons {α : Type} [DecidableEq α] (front : List α) (last : α)
    (back : List α) :
    (front ++ last :: back).takeWhile (· ≠ last) = front.takeWhile (· ≠ last) := by
  rw [List.takeWhile_append]
  split
  · rename_i h
    rw [List.takeWhile_cons_of_neg (by simp), List.append_nil]
    exact ((List.takeWhile_prefix _).eq_of_length h).symm
  · rfl

/-- A block is read up to its first close, before the blocks that its rows show. -/
theorem Shows.block {rows : List Text} (h : Shows header close rows found)
    (hheader : header ≠ "\x7b") (hclose : close ≠ "\x7b") :
    Shows header close (header :: "\x7b" :: (rows ++ [close]))
      (rows.takeWhile (· ≠ close) :: found) := by
  intro rest hrest
  obtain ⟨hhead, hblocks⟩ := h.append (shows_singleton hclose) rest hrest
  have htake : (rows ++ [close] ++ rest).takeWhile (· ≠ close) = rows.takeWhile (· ≠ close) := by
    rw [List.append_assoc]
    exact takeWhile_ne_append_cons rows close rest
  refine ⟨by simpa using hheader, ?_⟩
  rw [List.cons_append, blocksOf, if_pos ⟨rfl, rfl⟩, List.cons_append,
    blocksOf_cons_of_head? _ hhead, hblocks, List.tail_cons, htake, List.append_nil]
  rfl

theorem Shows.skip {opening ending title : Text} (h : Shows header close lines found)
    (htitle : title ≠ "\x7b") (hending : ending ≠ "\x7b")
    (hskip : ¬ (title = header ∧ opening = "\x7b")) :
    Shows header close (title :: opening :: (lines ++ [ending])) found := by
  intro rest hrest
  obtain ⟨hhead, hblocks⟩ := h.append (shows_singleton hending) rest hrest
  refine ⟨by simpa using htitle, ?_⟩
  rw [List.cons_append, blocksOf, if_neg (fun ht => hskip ⟨ht.1, Option.some.inj ht.2⟩),
    List.cons_append, blocksOf_cons_of_head? _ hhead, hblocks, List.append_nil]

end Blocks

namespace Code

/-! ## Blocks of a tree -/

/-- Only the openings of blocks are bare braces. -/
def Opens : Code → Prop
  | .empty | .indent | .dedent => True
  | .line text | .verbatim text => text ≠ "\x7b"
  | .block header close body => header ≠ "\x7b" ∧ close ≠ "\x7b" ∧ body.Opens
  | .conditional _ body => body.Opens
  | .seq first second => first.Opens ∧ second.Opens

/-- The blocks with a header in a tree that starts at a depth, each as its close and its
rows. A block counts where no indentation stands before its brace. -/
def blocksAt (unit header : Text) : Nat → Code → List (Text × List Text)
  | _, .empty | _, .indent | _, .dedent | _, .line _ | _, .verbatim _ => []
  | n, .block title close body =>
    if title = header ∧ (List.replicate n unit).flatten = [] then
      (close, body.indentedAt unit (n + 1)) :: blocksAt unit header (n + 1) body
    else blocksAt unit header (n + 1) body
  | n, .conditional _ body => blocksAt unit header n body
  | n, .seq first second => blocksAt unit header n first ++ blocksAt unit header n second

section Trees

variable {first second body : Code}

@[simp] theorem opens_empty : Opens .empty := trivial

@[simp] theorem opens_line_iff (text : Text) : Opens (.line text) ↔ text ≠ "\x7b" := .rfl

@[simp] theorem opens_verbatim_iff (text : Text) : Opens (.verbatim text) ↔ text ≠ "\x7b" := .rfl

@[simp] theorem opens_blank : Opens blank := by
  simp [blank, Text.ofString_eq]

@[simp] theorem opens_block_iff (header close : Text) :
    Opens (.block header close body) ↔ header ≠ "\x7b" ∧ close ≠ "\x7b" ∧ body.Opens := .rfl

@[simp] theorem opens_braces_iff (header : Text) :
    (braces header body).Opens ↔ header ≠ "\x7b" ∧ body.Opens := by
  simp [braces, Text.ofString_eq]

@[simp] theorem opens_conditional_iff (condition? : Option Text) :
    Opens (.conditional condition? body) ↔ body.Opens := .rfl

@[simp] theorem opens_append_iff : (first ++ second).Opens ↔ first.Opens ∧ second.Opens := .rfl

@[simp] theorem opens_all_iff {parts : List Code} :
    (all parts).Opens ↔ ∀ code ∈ parts, code.Opens := by
  induction parts with
  | nil => simp [all]
  | cons code parts ih =>
      rw [List.forall_mem_cons, ← ih]
      rfl

variable {unit header : Text} {n : Nat}

@[simp] theorem blocksAt_empty : blocksAt unit header n .empty = [] := rfl

@[simp] theorem blocksAt_line (text : Text) : blocksAt unit header n (.line text) = [] := rfl

@[simp] theorem blocksAt_blank : blocksAt unit header n blank = [] := rfl

theorem blocksAt_block (title close : Text) :
    blocksAt unit header n (.block title close body) =
      if title = header ∧ (List.replicate n unit).flatten = [] then
        (close, body.indentedAt unit (n + 1)) :: blocksAt unit header (n + 1) body
      else blocksAt unit header (n + 1) body := rfl

theorem blocksAt_braces (title : Text) :
    blocksAt unit header n (braces title body) =
      if title = header ∧ (List.replicate n unit).flatten = [] then
        (("\x7d" : Text), body.indentedAt unit (n + 1)) :: blocksAt unit header (n + 1) body
      else blocksAt unit header (n + 1) body := rfl

@[simp] theorem blocksAt_conditional (condition? : Option Text) :
    blocksAt unit header n (.conditional condition? body) = blocksAt unit header n body := rfl

@[simp] theorem blocksAt_append :
    blocksAt unit header n (first ++ second) =
      blocksAt unit header n first ++ blocksAt unit header n second := rfl

@[simp] theorem blocksAt_all (parts : List Code) :
    blocksAt unit header n (all parts) = parts.flatMap (blocksAt unit header n) := by
  induction parts with
  | nil => rfl
  | cons code parts ih =>
      rw [List.flatMap_cons, ← ih]
      rfl

@[simp] theorem blocksAt_all_map_line {α : Type} (items : List α) (text : α → Text) :
    blocksAt unit header n (all (items.map fun item => .line (text item))) = [] := by
  simp [List.flatMap_map]

theorem blocksAt_of_each {code : Code} (h : code.Each (· ≠ header)) (n : Nat) :
    blocksAt unit header n code = [] := by
  induction code generalizing n with
  | empty | line | verbatim | indent | dedent => rfl
  | block title close body ih =>
      obtain ⟨htitle, -, hbody, -⟩ := (each_block_iff title close).mp h
      rw [blocksAt_block, if_neg (fun he => htitle he.1), ih hbody]
  | conditional condition? body ih =>
      rw [blocksAt_conditional, ih ((each_conditional_iff condition?).mp h).2]
  | seq first second ih₁ ih₂ =>
      obtain ⟨h₁, h₂⟩ := each_append_iff.mp h
      exact List.append_eq_nil_iff.mpr ⟨ih₁ h₁ n, ih₂ h₂ n⟩

end Trees

/-! ## Reading the blocks of a tree -/

section Reading

variable {unit header close : Text}

theorem ifLine_ne_brace (c : Text) : ifLine c ≠ "\x7b" := by
  simp [ifLine, Text.ofString_eq]

theorem endLine_ne_brace (c : Text) : endLine c ≠ "\x7b" := by
  simp [endLine, Text.ofString_eq]

theorem indented_ne_brace_of_ne {text : Text} (n : Nat) (hu : '\x7b' ∉ unit ∨ text ≠ [])
    (h : text ≠ "\x7b") : Line.indented unit ⟨n, text⟩ ≠ "\x7b" := by
  intro he
  rw [Line.indented, Text.ofString_eq, show "\x7b".toList = ['\x7b'] from rfl,
    List.append_eq_singleton_iff] at he
  rcases he with ⟨_, rfl⟩ | ⟨hpad, rfl⟩
  · exact h (by rw [Text.ofString_eq]; rfl)
  · have hmem : '\x7b' ∈ (List.replicate n unit).flatten := by simp [hpad]
    obtain ⟨_, hunit, hmem⟩ := List.mem_flatten.mp hmem
    rw [List.eq_of_mem_replicate hunit] at hmem
    exact hu.elim (· hmem) (· rfl)

theorem indented_ne_brace (hu : '\x7b' ∉ unit) {text : Text} (n : Nat) (h : text ≠ "\x7b") :
    Line.indented unit ⟨n, text⟩ ≠ "\x7b" :=
  indented_ne_brace_of_ne n (.inl hu) h

theorem indented_brace_eq_iff {n : Nat} :
    Line.indented unit ⟨n, "\x7b"⟩ = "\x7b" ↔ (List.replicate n unit).flatten = [] := by
  simp [Line.indented]

theorem shows_wrapped {lines : List Text} {found : List (List Text)}
    (h : Shows header close lines found) (condition? : Option Text) :
    Shows header close (wrapped id condition? lines) found := by
  unfold wrapped
  split
  · exact h
  · rename_i c _
    simpa using (h.append (shows_singleton (endLine_ne_brace c))).cons (ifLine_ne_brace c)

/-- The lines of a tree show its blocks up to the first close, if all have the close that is
looked for. -/
theorem shows_blocksAt {code : Code} (hu : '\x7b' ∉ unit ∨ code.EachRow (· ≠ []))
    (hsteady : code.Steady) (hopens : code.Opens) {n : Nat} {found : List (List Text)}
    (hfound : code.blocksAt unit header n = found.map (close, ·)) :
    Shows header close (code.indentedAt unit n) (found.map (·.takeWhile (· ≠ close))) := by
  induction code generalizing n found with
  | empty =>
      obtain rfl := List.map_eq_nil_iff.mp hfound.symm
      exact shows_nil
  | indent | dedent => exact hsteady.elim
  | line text =>
      obtain rfl := List.map_eq_nil_iff.mp hfound.symm
      exact shows_singleton
        (indented_ne_brace_of_ne n (hu.imp_right (eachRow_line_iff text).mp) hopens)
  | verbatim text =>
      obtain rfl := List.map_eq_nil_iff.mp hfound.symm
      exact shows_singleton hopens
  | block title ending body ih =>
      obtain ⟨htitle, hending, hbody⟩ := hopens
      have hinside : body.Steady := hsteady
      have hrows := hu.imp_right (eachRow_block_iff title ending).mp
      have hu' := hrows.imp_right (·.2.2.1)
      rw [hinside.indentedAt_block]
      by_cases hmatch : title = header ∧ (List.replicate n unit).flatten = []
      · rw [blocksAt, if_pos hmatch] at hfound
        obtain ⟨rows, others, rfl, hrows, hothers⟩ := List.map_eq_cons_iff.mp hfound.symm
        obtain ⟨rfl, rfl⟩ := Prod.mk.inj hrows
        obtain ⟨rfl, hpad⟩ := hmatch
        simp only [Line.indented, hpad, List.nil_append]
        exact (ih hu' hinside hbody hothers.symm).block htitle hending
      · rw [blocksAt, if_neg hmatch] at hfound
        refine (ih hu' hinside hbody hfound).skip
          (indented_ne_brace_of_ne n (hrows.imp_right (·.1)) htitle)
          (indented_ne_brace_of_ne n (hrows.imp_right (·.2.2.2)) hending) fun hskip => hmatch ?_
        -- a brace without indentation stands below a header without indentation
        have hpad := indented_brace_eq_iff.mp hskip.2
        refine ⟨?_, hpad⟩
        simpa [Line.indented, hpad] using hskip.1
  | conditional condition? body ih =>
      rw [indentedAt_conditional]
      exact shows_wrapped
        (ih (hu.imp_right (eachRow_conditional_iff condition?).mp) hsteady hopens hfound) condition?
  | seq first second ih₁ ih₂ =>
      have hrows : '\x7b' ∉ unit ∨ first.EachRow (· ≠ []) ∧ second.EachRow (· ≠ []) :=
        hu.imp_right eachRow_append_iff.mp
      obtain ⟨front, back, rfl, hfront, hback⟩ := List.map_eq_append_iff.mp hfound.symm
      change Shows _ _ ((first ++ second).indentedAt unit n) _
      rw [hsteady.1.indentedAt_append, List.map_append]
      exact (ih₁ (hrows.imp_right (·.1)) hsteady.1 hopens.1 hfront.symm).append
        (ih₂ (hrows.imp_right (·.2)) hsteady.2 hopens.2 hback.symm)

/-- The lines of a tree show its blocks, if they all have the close that is looked for and
none of them has a row that reads like it. -/
theorem shows_indentedAt (hu : '\x7b' ∉ unit) {code : Code} (hsteady : code.Steady)
    (hopens : code.Opens) {n : Nat} {found : List (List Text)}
    (hfound : code.blocksAt unit header n = found.map (close, ·))
    (hclose : ∀ rows ∈ found, close ∉ rows) :
    Shows header close (code.indentedAt unit n) found := by
  have htake : found.map (·.takeWhile (· ≠ close)) = found := by
    refine (List.map_congr_left fun rows hrows => ?_).trans (List.map_id found)
    exact takeWhile_ne_of_not_mem (hclose rows hrows)
  have hshows := shows_blocksAt (.inl hu) hsteady hopens hfound
  rwa [htake] at hshows

end Reading

end Code

end EnumCodegen
