import EnumCodegen.Proofs.Run.Regeneration

/-! # Recovering a token

A marker is one line, and what is read from it is trimmed. So it gives back the tokens that
are one trimmed line, and all that a run can find are such tokens, whether a description sets
them, a file keeps them or letters make them. -/

namespace EnumCodegen

namespace Guard

theorem keepable_iff {token : Text} :
    Keepable token ↔ token ≠ [] ∧ '\n' ∉ token ∧ token.trim = token := by
  rw [Text.trim_eq_self_iff]
  exact ⟨fun h => ⟨h.ne_nil, h.newline, h.trimmed⟩, fun h => ⟨h.1, h.2.1, h.2.2⟩⟩

theorem keepable_of_nonEmpty?_trim {token found : Text}
    (h : nonEmpty? (Text.trim (token.takeWhile (· ≠ '\n'))) = some found) : Keepable found := by
  unfold nonEmpty? at h
  split at h
  · cases h
  · rename_i hne
    obtain rfl := Option.some.inj h
    refine ⟨hne, fun hmem => ?_, Text.trimmed_trim _⟩
    simpa using List.mem_takeWhile_imp (Text.mem_of_mem_trim hmem)

/-- The marker of a declaration file gives its token back just when it is one trimmed line. -/
theorem recovered?_declaration_eq_some_iff (e : Emission) :
    recovered? (Utf8.encode e.declaration) = some e.token ↔ Keepable e.token := by
  constructor
  · intro h
    rw [recovered?_encode_of_startsWith e.declaration_startsWith] at h
    exact keepable_of_nonEmpty?_trim h
  · exact recovered?_declaration

/-- What is read from a declaration file is its token up to a line feed, trimmed. -/
theorem readMarker_after {w : World} {e : Emission} {declaration : Path}
    (h : w.files.read declaration = .ok (Utf8.encode e.declaration)) :
    (w.after (readMarker declaration)).1 =
      .ok (nonEmpty? (Text.trim (e.token.takeWhile (· ≠ '\n')))) := by
  rw [World.after_readMarker, FileSystem.marker, FileSystem.content?_of_read h]
  exact congrArg Except.ok (recovered?_encode_of_startsWith e.declaration_startsWith)

theorem readMarker_after_eq_some_iff {w : World} {e : Emission} {declaration : Path}
    (h : w.files.read declaration = .ok (Utf8.encode e.declaration)) :
    (w.after (readMarker declaration)).1 = .ok (some e.token) ↔ Keepable e.token := by
  rw [readMarker_after h, ← recovered?_declaration_eq_some_iff,
    recovered?_encode_of_startsWith e.declaration_startsWith, Except.ok.injEq]

theorem keepable_of_resolve {w w' : World} {source : Text} {d : Description}
    {spans : List Span} {input declaration : Path} {guard : GuardToken}
    (hd : Description.ofText source = .ok d) (hlow : w.LowerCase)
    (h : w.after (resolve spans d.guardToken? input declaration) = (.ok guard, w')) :
    Keepable guard.token := by
  rcases resolve_after w spans d.guardToken? input declaration with
    ⟨found, drawn, log, touched, hfound, he⟩ | ⟨e, touched, -, -, he⟩
  · obtain ⟨hguard, -⟩ := Prod.ext_iff.mp (he.symm.trans h)
    obtain rfl := Except.ok.inj hguard
    exact hfound.keepable (fun own => keepable_of_ofText hd) (hlow.letters _)
  · cases (Prod.ext_iff.mp (he.symm.trans h)).1

/-- Where a declaration file keeps a token, a run without its own finds that and draws nothing. -/
theorem resolve_kept {v : World} {e : Emission} {own? : Option Text} {spans : List Span}
    {input declaration : Path} (hown : own?.filter (· ≠ []) = none)
    (hread : v.files.read declaration = .ok (Utf8.encode e.declaration))
    (hk : Keepable e.token) :
    ∃ v', v.after (resolve spans own? input declaration) = (.ok ⟨e.token, .recovered⟩, v') ∧
      v'.files = v.files ∧ v'.drawn = v.drawn := by
  have hm := FileSystem.marker_of_read hread hk
  rcases resolve_after v spans own? input declaration with
    ⟨found, drawn, log, touched, hfound, he⟩ | ⟨e, touched, -, hm', -⟩
  · obtain ⟨rfl, rfl⟩ := hfound.eq_kept hm
    rw [hown] at he
    exact ⟨_, he, rfl, rfl⟩
  · cases hm.symm.trans hm'

/-- Writing a marker and reading it are inverse on the tokens that are one trimmed line, and
these are all that a run can find. So what it finds, the next run without a token of its own
recovers. -/
theorem marker_inverts :
    (∀ (e : Emission) (w : World) (declaration : Path),
      w.files.read declaration = .ok (Utf8.encode e.declaration) →
        ((w.after (readMarker declaration)).1 = .ok (some e.token) ↔
          e.token ≠ [] ∧ '\n' ∉ e.token ∧ e.token.trim = e.token) ∧
        (w.after (readMarker declaration)).1 =
          .ok (nonEmpty? (Text.trim (e.token.takeWhile (· ≠ '\n'))))) ∧
    ∀ (source : Text) (d : Description) (w w' : World) (spans : List Span)
        (input declaration : Path) (guard : GuardToken),
      Description.ofText source = .ok d → w.LowerCase →
      w.after (resolve spans d.guardToken? input declaration) = (.ok guard, w') →
        (guard.token ≠ [] ∧ '\n' ∉ guard.token ∧ guard.token.trim = guard.token) ∧
        ∀ (e : Emission) (v : World) (own? : Option Text) (spans : List Span)
            (input declaration : Path),
          e.token = guard.token → own?.filter (· ≠ []) = none →
          v.files.read declaration = .ok (Utf8.encode e.declaration) →
            ∃ v', v.after (resolve spans own? input declaration) =
                (.ok ⟨guard.token, .recovered⟩, v') ∧
              v'.files = v.files ∧ v'.drawn = v.drawn := by
  constructor
  · intro e w declaration h
    rw [← keepable_iff]
    exact ⟨readMarker_after_eq_some_iff h, readMarker_after h⟩
  · intro source d w w' spans input declaration guard hd hlow h
    have hk := keepable_of_resolve hd hlow h
    refine ⟨keepable_iff.mp hk, fun e v own? spans input declaration htoken hown hread => ?_⟩
    rw [← htoken] at hk ⊢
    exact resolve_kept hown hread hk

/-- A made token is recovered though a line below its marker looks like another one. -/
theorem marker_inverts_made :
    let made : Text := "mycolors_aaaaaaaaaaaaaaaa"
    let w := World.holding []
    let e : Emission := {
      description := { top := ["// enumg-guard: other"] }, token := made, title := "colors" }
    let v := World.holding [("colors.h", e.declaration)]
    (w.after (resolve [] none (.ofText "my-colors.ini") (.ofText "colors.h"))).1 =
        .ok ⟨made, .generated⟩ ∧
      (v.after (readMarker (.ofText "colors.h"))).1 = .ok (some made) ∧
      (v.after (resolve [] none (.ofText "my-colors.ini") (.ofText "colors.h"))).1 =
        .ok ⟨made, .recovered⟩ := by
  intro made w e v
  have hmade : (w.after (resolve [] none (.ofText "my-colors.ini") (.ofText "colors.h"))).1 =
      .ok ⟨made, .generated⟩ := by decide +kernel
  have hread : v.files.read (.ofText "colors.h") = .ok (Utf8.encode e.declaration) := by
    decide +kernel
  obtain ⟨hmarker, hresolve⟩ := marker_inverts
  obtain ⟨hline, hagain⟩ := hresolve [] {} w _ [] _ _ ⟨made, .generated⟩ (by decide +kernel)
    (fun _ => rfl) (Prod.ext hmade rfl)
  obtain ⟨v', hrun, -, -⟩ := hagain e v none [] (.ofText "my-colors.ini") (.ofText "colors.h")
    rfl rfl hread
  exact ⟨hmade, (hmarker e v _ hread).1.mpr hline, congrArg Prod.fst hrun⟩

end Guard

end EnumCodegen
