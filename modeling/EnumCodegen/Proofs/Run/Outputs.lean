import EnumCodegen.Proofs.Run.Semantics

/-! # What a finished run leaves in the files

The paths of a run are found apart from each other, and two of them may lead to one
place. The file that is written last to a place is the one that stands there. -/

namespace EnumCodegen

/-! ## The places of the three files -/

/-- Where the description and the two outputs of a run lie afterwards, and what every
file holds then: the definition was written after the declaration. -/
structure Lands (fs fs' : FileSystem) (input : Path) (a b : Artifact) (l₀ l₁ l₂ : Location) :
    Prop where
  before : fs.locate input = .ok l₀
  description : fs'.locate input = .ok l₀
  declaration : fs'.locate a.path = .ok l₁
  definition : fs'.locate b.path = .ok l₂
  file? : ∀ l, fs'.file? l =
    if l = l₂ then some (Utf8.encode b.text)
    else if l = l₁ then some (Utf8.encode a.text) else fs.file? l

theorem Finishes.lands {c : Config} {input : Path} {letters source : Text} {d : Description}
    {r : Report} {fs mid fs' : FileSystem} {drawn : Nat}
    (h : Finishes c input letters fs source d r mid fs' drawn) :
    ∃ l₀ l₁ l₂, Lands fs fs' input
      ⟨r.declarationPath, (c.emission d (Guard.title input) r.guard.token).declaration⟩
      ⟨r.definitionPath, (c.emission d (Guard.title input) r.guard.token).definition⟩ l₀ l₁ l₂ := by
  rw [h.declarationPath, h.definitionPath]
  obtain ⟨content, hread, _⟩ := FileSystem.text_eq_ok_iff.mp h.read
  obtain ⟨l₀, hl₀, _⟩ := FileSystem.read_eq_ok_iff.mp hread
  obtain ⟨l₁, hl₁, hup⟩ := h.declared.updates
  obtain ⟨l₂, hl₂, hup'⟩ := h.defined.updates
  refine ⟨l₀, l₁, l₂, hl₀, (hup.grows.trans hup'.grows).locate hl₀, hup'.grows.locate hl₁,
    hl₂, fun l => ?_⟩
  rw [hup'.file?, hup.file?]
  rfl

namespace Lands

variable {fs fs' : FileSystem} {input : Path} {a b : Artifact} {l₀ l₁ l₂ : Location}

/-- The definition holds its text, whatever its path is. -/
theorem read_definition (h : Lands fs fs' input a b l₀ l₁ l₂) :
    fs'.read b.path = .ok (Utf8.encode b.text) := by
  rw [FileSystem.read_eq_ok_iff_of_locate h.definition, h.file?, if_pos rfl]

/-- The declaration holds its text unless the definition was written over it. -/
theorem read_declaration_iff (h : Lands fs fs' input a b l₀ l₁ l₂) (hne : a.text ≠ b.text) :
    fs'.read a.path = .ok (Utf8.encode a.text) ↔ ¬ fs'.SamePlace a.path b.path := by
  rw [FileSystem.read_eq_ok_iff_of_locate h.declaration,
    FileSystem.samePlace_iff_of_locate h.declaration h.definition, h.file?]
  by_cases hl : l₁ = l₂
  · rw [if_pos hl]
    simpa [hl] using fun he => hne (Utf8.encode_injective he).symm
  · simp [hl]

/-- Where the outputs lie apart, the description is as it was unless one of them was
written over it. -/
theorem read_description_iff (h : Lands fs fs' input a b l₀ l₁ l₂)
    {old : Bytes} (hold : fs.read input = .ok old) (hne : ¬ fs'.SamePlace a.path b.path) :
    fs'.read input = fs.read input ↔
      (fs'.SamePlace input a.path → fs.read input = .ok (Utf8.encode a.text)) ∧
      (fs'.SamePlace input b.path → fs.read input = .ok (Utf8.encode b.text)) := by
  have hf := (FileSystem.read_eq_ok_iff_of_locate h.before).mp hold
  rw [FileSystem.samePlace_iff_of_locate h.declaration h.definition] at hne
  rw [hold, FileSystem.read_eq_ok_iff_of_locate h.description, h.file?, hf,
    FileSystem.samePlace_iff_of_locate h.description h.declaration,
    FileSystem.samePlace_iff_of_locate h.description h.definition]
  by_cases hb : l₀ = l₂
  · have ha : l₀ ≠ l₁ := fun ha => hne (ha.symm.trans hb)
    subst hb
    simp [ha, eq_comm (a := old)]
  · by_cases ha : l₀ = l₁
    · subst ha
      simp [hb, eq_comm (a := old)]
    · simp [hb, ha]

end Lands

/-! ## Whether all three files are as they should be -/

/-- Both outputs hold what was emitted for them, and the description what it did. -/
structure Delivers (fs fs' : FileSystem) (input : Path) (r : Report) (e : Emission) : Prop where
  declaration : fs'.read r.declarationPath = .ok (Utf8.encode e.declaration)
  definition : fs'.read r.definitionPath = .ok (Utf8.encode e.definition)
  description : fs'.read input = fs.read input

/-- The files are as they should be just when the two outputs lie in two places and
neither was written over the description, unless the description was that very text. -/
theorem Finishes.delivers_iff {c : Config} {input : Path} {letters source : Text}
    {d : Description} {r : Report} {fs mid fs' : FileSystem} {drawn : Nat} {e : Emission}
    (h : Finishes c input letters fs source d r mid fs' drawn)
    (he : e = c.emission d (Guard.title input) r.guard.token) :
    Delivers fs fs' input r e ↔
      ¬ fs'.SamePlace r.declarationPath r.definitionPath ∧
      (fs'.SamePlace input r.declarationPath → fs.read input = .ok (Utf8.encode e.declaration)) ∧
      (fs'.SamePlace input r.definitionPath → fs.read input = .ok (Utf8.encode e.definition)) := by
  subst he
  obtain ⟨l₀, l₁, l₂, hl⟩ := h.lands
  obtain ⟨old, hold, _⟩ := FileSystem.text_eq_ok_iff.mp h.read
  have hdeclaration := hl.read_declaration_iff (Emission.declaration_ne_definition _ _)
  have hdescription := hl.read_description_iff hold
  constructor
  · intro hd
    have hne := hdeclaration.mp hd.declaration
    exact ⟨hne, (hdescription hne).mp hd.description⟩
  · rintro ⟨hne, hkept⟩
    exact ⟨hdeclaration.mpr hne, hl.read_definition, (hdescription hne).mpr hkept⟩

theorem Finishes.delivers {c : Config} {input : Path} {letters source : Text}
    {d : Description} {r : Report} {fs mid fs' : FileSystem} {drawn : Nat}
    (h : Finishes c input letters fs source d r mid fs' drawn)
    (ha : fs'.Apart [input, r.declarationPath, r.definitionPath]) :
    Delivers fs fs' input r (c.emission d (Guard.title input) r.guard.token) := by
  simp only [FileSystem.Apart, List.pairwise_cons, List.mem_cons, List.not_mem_nil] at ha
  obtain ⟨hinput, hdeclaration, _⟩ := ha
  refine (h.delivers_iff rfl).mpr ⟨hdeclaration _ (by simp), fun hs => ?_, fun hs => ?_⟩
  · exact absurd hs (hinput _ (by simp))
  · exact absurd hs (hinput _ (by simp))

/-- A run with a report leaves its files as they should be if, and only if, its outputs
lie in two places and neither is written over the description, unless the description
was that very text. -/
theorem generate_delivers_iff {c : Config} {input : Path} {w w' : World} {r : Report}
    (h : w.after (generate c input) = (.ok r, w')) :
    ∃ source d, w.files.text input = .ok source ∧ Description.ofText source = .ok d ∧
      let e := c.emission d (Guard.title input) r.guard.token
      (Delivers w.files w'.files input r e ↔
        ¬ w'.files.SamePlace r.declarationPath r.definitionPath ∧
        (w'.files.SamePlace input r.declarationPath →
          w.files.read input = .ok (Utf8.encode e.declaration)) ∧
        (w'.files.SamePlace input r.definitionPath →
          w.files.read input = .ok (Utf8.encode e.definition))) := by
  obtain ⟨source, d, mid, drawn, hf, _⟩ := finishes_of_generate h
  exact ⟨source, d, hf.read, hf.built, hf.delivers_iff rfl⟩

/-- The description of an enumeration, and below it the report of a first run. -/
def plainDescription : Text := "[Color]\nfield=RED\n"

def plainReport : Report where
  guard := ⟨"colors_aaaaaaaaaaaaaaaa", .generated⟩
  declarationPath := .ofText "./colors.h"
  definitionPath := .ofText "./colors.c"
  declaration := .written
  definition := .written
  warnings := 0

theorem generate_delivers_plain :
    let w := World.holding [("colors.ini", plainDescription)]
    let input := Path.ofText "colors.ini"
    ∃ source d, w.files.text input = .ok source ∧ Description.ofText source = .ok d ∧
      Delivers w.files (w.after (generate {} input)).2.files input plainReport
        (Config.emission {} d (Guard.title input) plainReport.guard.token) := by
  intro w input
  have hrun : w.after (generate {} input) = (.ok plainReport, (w.after (generate {} input)).2) :=
    Prod.ext (by decide +kernel) rfl
  obtain ⟨source, d, hread, hbuilt, hiff⟩ := generate_delivers_iff hrun
  refine ⟨source, d, hread, hbuilt, hiff.mpr ⟨by decide +kernel, fun h => ?_, fun h => ?_⟩⟩
  · exact absurd h (by decide +kernel)
  · exact absurd h (by decide +kernel)

/-- A description whose declaration gets its own name is lost. -/
theorem generate_overwrites_description :
    ¬ ∀ (c : Config) (input : Path) (w w' : World) (r : Report),
      w.after (generate c input) = (.ok r, w') →
        ∃ source d, w.files.text input = .ok source ∧ Description.ofText source = .ok d ∧
          Delivers w.files w'.files input r (c.emission d (Guard.title input) r.guard.token) := by
  intro h
  let w := World.holding [("colors.ini", "c-header=ini\n" ++ plainDescription)]
  let input := Path.ofText "colors.ini"
  have hrun : w.after (generate {} input) =
      (.ok { plainReport with declarationPath := .ofText "./colors.ini" },
        (w.after (generate {} input)).2) :=
    Prod.ext (by decide +kernel) rfl
  obtain ⟨source, d, _, _, hd⟩ := h _ _ _ _ _ hrun
  exact absurd hd.description (by decide +kernel)

end EnumCodegen
