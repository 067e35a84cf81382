import EnumCodegen.Emission
import EnumCodegen.Guard
import EnumCodegen.Proofs.Code.Layout
import EnumCodegen.Proofs.Text.LineFeed
import Mathlib.Data.List.Basic
import Mathlib.Data.List.TakeWhile

/-! # The marker of a declaration file

A declaration file opens with the line that keeps its token, and reading the file back
finds that token, whatever the lines after it say. -/

namespace EnumCodegen

/-! ## The front of emitted text -/

theorem Code.layOut_isPrefix_seq {lines : List Line} {first : Code} (second : Code) {n : Nat}
    (h : lines <+: (first.layOut n).1) : lines <+: ((first ++ second).layOut n).1 := by
  rw [Code.layOut_seq]
  exact h.trans (List.prefix_append _ _)

/-- A text starts with a line when it goes on after its line feed. -/
def Text.StartsWith (text line : Text) : Prop := ∃ rest, text = line ++ '\n' :: rest

theorem Code.render_startsWith {code : Code} {line : Text} (unit : Text)
    (h : [⟨0, line⟩] <+: code.lines) : (code.render unit).StartsWith line := by
  obtain ⟨rest, h⟩ := h
  refine ⟨rest.flatMap (Line.render unit), ?_⟩
  simp [Code.render, ← h, Line.render]

namespace Emission

theorem declaration_startsWith (e : Emission) :
    e.declaration.StartsWith (markerLead ++ e.token) := by
  apply Code.render_startsWith
  unfold Code.lines Declaration.code Declaration.head
  iterate 7 apply Code.layOut_isPrefix_seq
  exact List.prefix_rfl

theorem definition_startsWith (e : Emission) :
    e.definition.StartsWith ("// file auto-generated by [" ++ toolName ++ "]") := by
  apply Code.render_startsWith
  unfold Code.lines Definition.code Definition.head banner
  iterate 5 apply Code.layOut_isPrefix_seq
  exact List.prefix_rfl

/-- The two files of one description never hold the same text. -/
theorem declaration_ne_definition (e e' : Emission) : e.declaration ≠ e'.definition := by
  intro h
  obtain ⟨rest, hd⟩ := e.declaration_startsWith
  obtain ⟨rest', hd'⟩ := e'.definition_startsWith
  have hc := congrArg (·[3]?) (hd.symm.trans (h.trans hd'))
  simp [markerLead, Text.ofString_eq] at hc

end Emission

/-! ## Reading the marker back -/

namespace Guard

theorem newline_not_mem_markerLead : '\n' ∉ markerLead := by
  simp [markerLead, Text.ofString_eq]

theorem markedText?_encode (text : Text) :
    markedText? (Utf8.encode (markerLead ++ text)) = some text.trim := by
  rw [markedText?, Utf8.decodeLossy_encode, List.isPrefixOf?_eq_some_iff_append_eq.mpr rfl]
  rfl

theorem exists_append_newline (token rest : Text) :
    ∃ rest', token ++ '\n' :: rest = token.takeWhile (· ≠ '\n') ++ '\n' :: rest' := by
  induction token with
  | nil => exact ⟨rest, rfl⟩
  | cons c token ih =>
      by_cases hc : c = '\n'
      · exact ⟨token ++ '\n' :: rest, by simp [hc]⟩
      · obtain ⟨rest', he⟩ := ih
        exact ⟨rest', by simp [hc, he]⟩

/-- Whatever follows its first line, a marked text keeps the trimmed token up to the
token's own first line feed, unless that is empty. -/
theorem recovered?_encode_of_startsWith {text token : Text}
    (h : text.StartsWith (markerLead ++ token)) :
    recovered? (Utf8.encode text) = nonEmpty? (Text.trim (token.takeWhile (· ≠ '\n'))) := by
  obtain ⟨rest, rfl⟩ := h
  obtain ⟨rest', he⟩ := exists_append_newline token rest
  have hline : '\n' ∉ markerLead ++ token.takeWhile (· ≠ '\n') := by
    intro hm
    rcases List.mem_append.mp hm with hm | hm
    · exact newline_not_mem_markerLead hm
    · simpa using List.mem_takeWhile_imp hm
  rw [List.append_assoc, he, ← List.append_assoc, Utf8.encode_append, Utf8.encode_newline_cons,
    recovered?, pieces_append_cons fun hb => hline ((Utf8.newline_mem_encode_iff _).mp hb),
    List.findSome?_cons, markedText?_encode]
  rfl

/-- A token that its marker gives back as it is. -/
structure Keepable (token : Text) : Prop where
  ne_nil : token ≠ []
  newline : '\n' ∉ token
  trimmed : token.Trimmed

/-- The marker of a declaration file gives its token back. -/
theorem recovered?_declaration {e : Emission} (h : Keepable e.token) :
    recovered? (Utf8.encode e.declaration) = some e.token := by
  have hline : e.token.takeWhile (· ≠ '\n') = e.token := by
    apply List.takeWhile_eq_self_iff.mpr
    intro c hc
    simpa using fun hn : c = '\n' => h.newline (hn ▸ hc)
  rw [recovered?_encode_of_startsWith e.declaration_startsWith, hline,
    Text.trim_eq_self_iff.mpr h.trimmed, nonEmpty?, if_neg h.ne_nil]

/-! ## Tokens that are kept -/

theorem keepable_of_recovered? {content : Bytes} {token : Text}
    (h : recovered? content = some token) : Keepable token := by
  obtain ⟨marked, hf, hn⟩ := Option.bind_eq_some_iff.mp h
  obtain ⟨line, hl, hm⟩ := List.exists_of_findSome?_eq_some hf
  obtain ⟨after, hp, rfl⟩ := Option.map_eq_some_iff.mp hm
  unfold nonEmpty? at hn
  split at hn
  · cases hn
  · rename_i hne
    obtain rfl := Option.some.inj hn
    refine ⟨hne, fun hc => ?_, Text.trimmed_trim after⟩
    apply Utf8.newline_not_mem_decodeLossy (not_mem_of_mem_pieces hl)
    rw [← List.isPrefixOf?_eq_some_iff_append_eq.mp hp]
    exact List.mem_append_right _ (Text.mem_of_mem_trim hc)

theorem isBlank_of_isWordChar {c : Char} (h : isWordChar c = true) : isBlank c = false := by
  have hb : blanks.all (fun b => !isWordChar b) = true := by decide
  cases hc : isBlank c with
  | false => rfl
  | true =>
      have hmem : c ∈ blanks := by simpa [isBlank] using hc
      have hn := List.all_eq_true.mp hb c hmem
      rw [h] at hn
      cases hn

theorem isWordChar_of_mem_generated {title letters : Text} {c : Char}
    (h : ∀ c ∈ letters, c.isLower = true) (hc : c ∈ generated title letters) :
    isWordChar c = true := by
  rcases List.mem_append.mp hc with hc | hc
  · exact (List.mem_filter.mp hc).2
  · rcases List.mem_cons.mp hc with rfl | hc
    · rfl
    · change (c.isUpper || c.isLower || c.isDigit || decide (c = '_')) = true
      simp [h c hc]

theorem keepable_generated (title : Text) {letters : Text} (h : ∀ c ∈ letters, c.isLower = true) :
    Keepable (generated title letters) := by
  refine ⟨by simp [generated], fun hc => ?_, fun c hc => ?_, fun c hc => ?_⟩
  · exact absurd (isWordChar_of_mem_generated h hc) (by decide)
  · exact isBlank_of_isWordChar (isWordChar_of_mem_generated h (List.mem_of_mem_head? hc))
  · exact isBlank_of_isWordChar (isWordChar_of_mem_generated h (List.mem_of_mem_getLast? hc))

end Guard

end EnumCodegen
