import EnumCodegen.Proofs.Description.Values

/-! # The normal form of a description

What is read from any text can be written down on plain lines, the section of a setting
above the setting itself, and is read back as it was. So what is read obeys the rules of
the lines that it is written on. -/

namespace EnumCodegen

open Text

/-! ## Lines that say one thing -/

theorem uncommented_eq_self {text : Text} {afterBlank : Bool} (h : CommentFree text)
    (hstart : afterBlank = true → text.head? ≠ some ';') : uncommented afterBlank text = text := by
  induction text generalizing afterBlank with
  | nil => rfl
  | cons c text ih =>
      have hkept : ¬ (c = ';' ∧ afterBlank = true) := fun hc => hstart hc.2 (by simp [hc.1])
      have hnext : isBlank c = true → text.head? ≠ some ';' := by
        intro hblank hhead
        obtain ⟨back, rfl⟩ := List.head?_eq_some_iff.mp hhead
        simp [h [] c back rfl] at hblank
      rw [uncommented, if_neg hkept, ih h.tail hnext]

theorem Text.trimmed_append_cons {front back : Text} {c : Char} (hc : isBlank c = false)
    (hfront : ∀ d ∈ front.head?, isBlank d = false)
    (hback : ∀ d ∈ back.getLast?, isBlank d = false) : (front ++ c :: back).Trimmed := by
  refine ⟨?_, getLast?_append_cons hc hback front⟩
  cases front with
  | nil => simpa using hc
  | cons d front => simpa using hfront

namespace LineForm

variable {name key value : Text}

theorem ofLine_header (h : IsSectionName name) :
    ofLine ('[' :: (name ++ [']'])) = .header name := by
  have htrimmed : Text.Trimmed ('[' :: name ++ [']']) :=
    trimmed_append_cons (by decide) (by simp; decide) (by simp)
  have htrim : Text.trim ('[' :: (name ++ [']'])) = '[' :: (name ++ [']']) :=
    trim_eq_self_iff.mpr htrimmed
  rw [ofLine, htrim]
  exact ofTrimmed_eq_header_iff.mpr
    ⟨name, [], rfl, h.bracket, (trim_eq_self_iff.mpr h.trimmed).symm⟩

theorem ofLine_assignment (hkey : IsKey key) (hvalue : IsValue value) :
    ofLine (key ++ '=' :: value) = .assignment key value := by
  have htrimmed : (key ++ '=' :: value).Trimmed :=
    trimmed_append_cons (by decide) hkey.trimmed.1 hvalue.trimmed.2
  have hcut : Text.cut? isSeparator (key ++ '=' :: value) = some (key, value) := by
    refine cut?_eq_some_iff.mpr ⟨'=', rfl, by decide, fun d hd => ?_⟩
    have hequals : d ≠ '=' := fun he => hkey.separator.1 (he ▸ hd)
    have hcolon : d ≠ ':' := fun he => hkey.separator.2 (he ▸ hd)
    simp [isSeparator, hequals, hcolon]
  have hread : (uncommented false value.trimStart).trimEnd = value := by
    rw [trimStart_eq_self hvalue.trimmed.1, uncommented_eq_self hvalue.comment (by simp),
      trimEnd_eq_self hvalue.trimmed.2]
  have hstart : ∀ c ∈ (key ++ '=' :: value).head?, c ≠ ';' ∧ c ≠ '#' ∧ c ≠ '[' := by
    cases hk : key with
    | nil => simp
    | cons c key => simpa [hk] using hkey.start
  rw [ofLine, trim_eq_self_iff.mpr htrimmed]
  exact ofTrimmed_eq_assignment_iff.mpr
    ⟨hstart, key, value, hcut, (trim_eq_self_iff.mpr hkey.trimmed).symm, hread.symm⟩

end LineForm

/-! ## Writing settings down -/

/-- A setting on a line of its own, under the header of its section. -/
def Triple.lines (t : Triple) : List Text :=
  ['[' :: (t.sectionName ++ [']']), t.key ++ '=' :: t.value]

def Triple.written (triples : List Triple) : Text :=
  (triples.flatMap Triple.lines).flatMap (· ++ ['\n'])

theorem Triple.Writable.newline_not_mem {t : Triple} (h : t.Writable) :
    ∀ line ∈ t.lines, '\n' ∉ line := by
  simp [Triple.lines, h.sectionName.newline, h.key.newline, h.value.newline]

namespace Reading

/-- Two lines that write a setting down are read as that setting, whatever section was open. -/
theorem ofLines_lines {t : Triple} (h : t.Writable) (sectionName : Text) (n : Nat)
    (rest : List Text) :
    ofLines sectionName n (t.lines ++ rest) =
      ⟨{ t with line := n + 1 } :: (ofLines t.sectionName (n + 2) rest).triples,
        (ofLines t.sectionName (n + 2) rest).diagnostics⟩ := by
  simp only [Triple.lines, List.cons_append, List.nil_append]
  rw [ofLines, LineForm.ofLine_header h.sectionName]
  simp only
  rw [ofLines, LineForm.ofLine_assignment h.key h.value]

theorem ofLines_written {triples : List Triple} (h : ∀ t ∈ triples, t.Writable)
    (sectionName : Text) (n : Nat) :
    ofLines sectionName n (triples.flatMap Triple.lines ++ [[]]) =
      ⟨triples.mapIdx fun i t => { t with line := 2 * i + (n + 1) }, []⟩ := by
  induction triples generalizing sectionName n with
  | nil => rfl
  | cons t triples ih =>
      rw [List.forall_mem_cons] at h
      have hnumbers : ∀ i, 2 * i + (n + 2 + 1) = 2 * (i + 1) + (n + 1) := by omega
      rw [List.flatMap_cons, List.append_assoc, ofLines_lines h.1, ih h.2, List.mapIdx_cons]
      simp only [hnumbers, Nat.mul_zero, Nat.zero_add]

theorem ofText_written {triples : List Triple} (h : ∀ t ∈ triples, t.Writable) :
    ofText (Triple.written triples) =
      ⟨triples.mapIdx fun i t => { t with line := 2 * i + 2 }, []⟩ := by
  have hlines : ∀ line ∈ triples.flatMap Triple.lines, '\n' ∉ line := by
    intro line hl
    obtain ⟨t, ht, hmem⟩ := List.mem_flatMap.mp hl
    exact (h t ht).newline_not_mem line hmem
  have hmark : withoutMark (Triple.written triples) = Triple.written triples := by
    cases triples <;> rfl
  rw [ofText, hmark, Triple.written, pieces_flatMap_ended hlines]
  exact ofLines_written h [] 1

/-- What is read from a text is read again from its normal form, and every part of it has
the form that this needs. -/
theorem ofText_normalForm (source : Text) :
    ofText (Triple.written (ofText source).triples) =
        ⟨(ofText source).triples.mapIdx fun i t => { t with line := 2 * i + 2 }, []⟩ ∧
      ∀ t ∈ (ofText source).triples, t.Writable :=
  ⟨ofText_written fun _ => writable_of_mem, fun _ => writable_of_mem⟩

example : Triple.written (ofText "[ A ] x\r\n k : v;w ; c\nfield").triples =
    "[A]\nk=v;w\n" := by decide +kernel

end Reading

end EnumCodegen
