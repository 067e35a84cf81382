import EnumCodegen.Proofs.Run.Steps
import EnumCodegen.Proofs.Storage.Ancestors

/-! # Settling artifacts on the way to a known end

Some run settled all artifacts, and `final` is what it left. In any state on the way there
each artifact can be settled, in whatever order, and all that this does is to bring the way
to its place to what stands there in the end. -/

namespace EnumCodegen

/-! ## One file that will stand -/

namespace FileSystem

variable {fs mid final : FileSystem} {p : Path} {front : List Bytes} {name : Bytes}

theorem node?_origin (h : fs.node? fs.current = some .directory) (p : Path) :
    fs.node? (fs.origin p) = some .directory := by
  rw [origin]
  split
  · exact fs.node?_root
  · exact h

/-- A file that will stand can be looked at before that, though it may be missing. -/
theorem Route.exists_content? (h : Route final p front name) (hk : Persists fs final)
    (hfile : final.node? (final.place p) ≠ some .directory) : ∃ old, fs.content? p = .ok old := by
  have hwalk := h.walk
  rw [hk.origin] at hwalk
  rcases hk.walk_or hwalk with hwalk | hwalk
  · have hlocate : fs.locate p = .ok (final.place p) :=
      locate_eq_ok_iff.mpr ⟨h.check, hwalk, by simp [h.plain]⟩
    cases hn : fs.node? (final.place p) with
    | none => exact ⟨none, content?_of_notFound (read_of_none hlocate hn)⟩
    | some node =>
        cases node with
        | directory => exact absurd (hk.directory _ hn) hfile
        | file content =>
            have hread : fs.read p = .ok content := by
              rw [read_eq_ok_iff_of_locate hlocate, file?, hn]
            exact ⟨some content, content?_of_read hread⟩
  · exact ⟨none, content?_of_notFound (read_of_error (locate_of_error h.check hwalk))⟩

theorem Route.makeParent (h : Route final p front name) (hk : Persists fs final)
    (horigin : fs.node? (fs.origin p) = some .directory) :
    ∃ mid, fs.makeParent p = (.ok (), mid) ∧
      Paves fs (fs.origin p) (descend (fs.origin p) front) mid := by
  obtain ⟨parts, hcomponents, hfilter⟩ := Path.exists_components_of_names h.names h.dot
  have hparts : parts.Sublist p.names := by
    have hsub := p.components_sublist
    rw [hcomponents] at hsub
    exact (List.sublist_append_left _ _).trans hsub
  have hfront := descend_eq_of_filter hfilter (fs.origin p)
  have hparent : p.parent? = some (.ofComponents p.isAbsolute parts) := by
    simp [Path.parent?, hcomponents]
  rw [FileSystem.makeParent, hparent]
  by_cases hne : (Path.ofComponents p.isAbsolute parts).bytes = []
  · simp only [hne, if_true]
    have hnone : parts = [] := by
      by_contra hsome
      exact (Path.bytes_ofComponents_ne_nil_iff hparts).mpr (.inr hsome) hne
    refine ⟨fs, rfl, paves_self fun other ho => ?_⟩
    rw [← hfront, hnone, descend_nil, onWay_self_iff] at ho
    rw [ho, horigin]
  · simp only [hne, if_false]
    have hare : Path.AreComponents p.isAbsolute parts := by
      have hall := p.areComponents_components.take parts.length
      rwa [hcomponents, List.take_left] at hall
    exact h.makeDirectories hk horigin hparts hfront hare
      ((Path.bytes_ofComponents_ne_nil_iff hparts).mp hne)

theorem Route.of_paves (h : Route final p front name)
    (hpaves : Paves fs (fs.origin p) (descend (fs.origin p) front) mid) :
    Route mid p front name := by
  have horigin : mid.origin p = fs.origin p := by
    rw [origin, origin, hpaves.current]
  refine ⟨h.names, h.descends, h.dot, h.plain, h.check, h.short, ?_⟩
  rw [horigin]
  exact fun other => hpaves.directory

theorem Route.exists_write (h : Route final p front name) (hk : Persists fs final)
    (hpaves : Paves fs (fs.origin p) (descend (fs.origin p) front) mid)
    (hfree : final.node? (final.place p) ≠ some .directory) (content : Bytes) :
    ∃ written, mid.write p content = .ok written ∧ Puts mid (fs.place p) content written := by
  have hway := h.way
  rw [hk.origin] at hway
  have hpersists := hpaves.persists hk hway
  rw [hpersists.place_eq] at hfree
  rw [← hk.place_eq, hpersists.place_eq]
  exact (h.of_paves hpaves).write (fun hd => hfree (hpersists.directory _ hd)) content

end FileSystem

/-! ## What settling takes from the end -/

section Adopts

variable {fs fs' mid final : FileSystem} {a : Artifact} {as : List Artifact}

/-- On the ways to artifacts there is what stands in the end, and elsewhere what stood there. -/
structure Adopts (fs final : FileSystem) (as : List Artifact) (fs' : FileSystem) : Prop
    extends fs.SameSetting fs' where
  node : ∀ l, fs'.node? l =
    if ∃ a ∈ as, FileSystem.OnWay (fs.origin a.path) (fs.place a.path) l then final.node? l
    else fs.node? l

theorem adopts_nil : Adopts fs final [] fs := ⟨.refl fs, fun l => by simp⟩

/-- Whoever takes from the end what the end itself has of some artifacts, has all of it. -/
theorem Adopts.node?_eq {bs : List Artifact} (h : Adopts fs final as fs')
    (hfinal : Adopts fs final bs final) (hsub : bs ⊆ as) (l : Location) :
    fs'.node? l = final.node? l := by
  rw [h.node]
  split
  · rfl
  · rename_i hnone
    rw [hfinal.node, if_neg]
    rintro ⟨b, hb, ho⟩
    exact hnone ⟨b, hsub hb, ho⟩

theorem Adopts.origin_eq (h : Adopts fs final as mid) (p : Path) : mid.origin p = fs.origin p := by
  rw [FileSystem.origin, FileSystem.origin, h.current]

theorem Adopts.place_eq (h : Adopts fs final as mid) (p : Path) : mid.place p = fs.place p := by
  rw [FileSystem.place, FileSystem.place, h.origin_eq]

theorem Adopts.cons (h : Adopts fs final [a] mid) (hrest : Adopts mid final as fs') :
    Adopts fs final (a :: as) fs' := by
  refine ⟨h.toSameSetting.trans hrest.toSameSetting, fun l => ?_⟩
  have hnode := h.node l
  simp only [List.mem_singleton, exists_eq_left] at hnode
  rw [hrest.node, hnode]
  simp only [h.origin_eq, h.place_eq, List.exists_mem_cons_iff]
  by_cases ha : FileSystem.OnWay (fs.origin a.path) (fs.place a.path) l
  · simp [ha]
  · simp [ha]

theorem Adopts.persists (h : Adopts fs final as fs') (hk : fs.Persists final) :
    fs'.Persists final := by
  refine ⟨⟨h.toSameSetting.symm.trans hk.toSameSetting, fun l hd => ?_⟩, fun l hf => ?_⟩
  · rw [h.node] at hd
    split at hd
    · exact hd
    · exact hk.directory l hd
  · have hnode := h.node l
    split at hnode
    · rwa [FileSystem.file?_congr hnode] at hf
    · rw [FileSystem.file?_congr hnode] at hf
      exact hk.file l hf

/-- One artifact is settled as it will stand if its place holds what it will hold, and the
directories that lead there are made. -/
theorem adopts_of_route {front : List Bytes} {name : Bytes} (h : final.Route a.path front name)
    (hk : fs.Persists final) (hsetting : fs.SameSetting fs')
    (hnode : ∀ l, fs'.node? l =
      if l = fs.place a.path then final.node? l
      else if FileSystem.OnWay (fs.origin a.path) (FileSystem.descend (fs.origin a.path) front) l
        then some .directory else fs.node? l) :
    Adopts fs final [a] fs' := by
  refine ⟨hsetting, fun l => ?_⟩
  have hway := h.way
  have hplace := h.place_eq
  rw [hk.origin] at hway hplace
  rw [hk.place_eq] at hplace
  have hl := FileSystem.suffix_descend (fs.origin a.path) front
  simp only [List.mem_singleton, exists_eq_left, hnode, hplace, FileSystem.onWay_cons_iff hl]
  by_cases hend : l = name :: FileSystem.descend (fs.origin a.path) front
  · simp [hend]
  · simp only [hend, if_false, false_or]
    split
    · rename_i ho
      exact (hway l ho).symm
    · rfl

theorem adopts_self {front : List Bytes} {name : Bytes} (h : final.Route a.path front name)
    (hk : fs.Persists final) (hdescends : a.path.Descends)
    (hread : fs.read a.path = final.read a.path) {content : Bytes}
    (hcontent : final.read a.path = .ok content) : Adopts fs final [a] fs := by
  rw [hcontent] at hread
  obtain ⟨front', name', hroute⟩ := FileSystem.exists_route_of_read hread hdescends
  obtain ⟨rfl, hname⟩ := List.append_inj' (h.names.symm.trans hroute.names) rfl
  rw [FileSystem.read_eq_ok_iff_of_locate hroute.locate, FileSystem.file?_eq_some_iff] at hread
  rw [FileSystem.read_eq_ok_iff_of_locate h.locate, FileSystem.file?_eq_some_iff,
    hk.place_eq] at hcontent
  refine adopts_of_route h hk (.refl fs) fun l => ?_
  by_cases hl : l = fs.place a.path
  · rw [if_pos hl, hl, hread, hcontent]
  · rw [if_neg hl]
    split
    · rename_i ho
      exact hroute.way l ho
    · rfl

/-- An artifact whose text will stand at its place is settled, and all that this changes
is the way to that place. -/
theorem Settles.adopts {answer : Except FileError Outcome} (h : Settles fs a answer fs')
    (hk : fs.Persists final) (hread : final.read a.path = .ok (Utf8.encode a.text))
    (hdescends : a.path.Descends) (hcurrent : fs.node? fs.current = some .directory) :
    (∃ outcome, answer = .ok outcome) ∧ Adopts fs final [a] fs' := by
  obtain ⟨front, name, hroute⟩ := FileSystem.exists_route_of_read hread hdescends
  have hfile : final.node? (final.place a.path) = some (.file (Utf8.encode a.text)) := by
    rwa [FileSystem.read_eq_ok_iff_of_locate hroute.locate, FileSystem.file?_eq_some_iff] at hread
  have hfree : final.node? (final.place a.path) ≠ some .directory := by
    simp [hfile]
  obtain ⟨mid, hmake, hpaves⟩ := hroute.makeParent hk (fs.node?_origin hcurrent a.path)
  obtain ⟨written, hwrite, hputs⟩ := hroute.exists_write hk hpaves hfree (Utf8.encode a.text)
  cases h with
  | same h => exact ⟨⟨_, rfl⟩, adopts_self hroute hk hdescends (h.trans hread.symm) hread⟩
  | unread h =>
      obtain ⟨old, hold⟩ := hroute.exists_content? hk hfree
      rw [hold] at h
      cases h
  | unplaced h hd hp =>
      rw [hmake] at hp
      cases hp
  | unwritten h hd hp hw =>
      rw [hmake, hwrite] at hw
      cases hw
  | written h hd hp hw =>
      rw [hmake, hwrite] at hw
      cases hw
      have hsetting := hpaves.toSameSetting.trans hputs.toSameSetting
      refine ⟨⟨_, rfl⟩, adopts_of_route hroute hk hsetting fun l => ?_⟩
      rw [hputs.node, hpaves.node, ← hk.place_eq]
      by_cases hl : l = final.place a.path
      · rw [if_pos hl, if_pos hl, hl, hfile]
      · rw [if_neg hl, if_neg hl]

end Adopts

/-! ## Other files -/

theorem Settles.updates_target {fs fs' : FileSystem} {a : Artifact} {outcome : Outcome}
    (h : Settles fs a (.ok outcome) fs') :
    fs.Updates (fs.target a.path) (Utf8.encode a.text) fs' ∧
      fs'.read a.path = .ok (Utf8.encode a.text) := by
  obtain ⟨l, hlocate, hupdates⟩ := h.updates
  obtain rfl := FileSystem.eq_target_of_locate hlocate
  rw [FileSystem.read_eq_ok_iff_of_locate hlocate, hupdates.file?, if_pos rfl]
  rw [hupdates.grows.target_eq] at hupdates
  exact ⟨hupdates, rfl⟩

/-! ## Artifact after artifact -/

/-- All artifacts were settled, each in the files that the one before it left. -/
inductive SettlesAll : FileSystem → List Artifact → FileSystem → Prop where
  | nil (fs) : SettlesAll fs [] fs
  | cons {fs mid fs' a as outcome} (h : Settles fs a (.ok outcome) mid)
      (hrest : SettlesAll mid as fs') : SettlesAll fs (a :: as) fs'

namespace SettlesAll

variable {fs fs' mid final : FileSystem} {as bs : List Artifact}

theorem append (h : SettlesAll fs as mid) (h' : SettlesAll mid bs fs') :
    SettlesAll fs (as ++ bs) fs' := by
  induction h with
  | nil => exact h'
  | cons h hrest ih => exact .cons h (ih h')

theorem persists (h : SettlesAll fs as fs') : fs.Persists fs' := by
  induction h with
  | nil fs => exact .refl fs
  | cons h hrest ih =>
      obtain ⟨_, _, hupdates⟩ := h.updates
      exact hupdates.persists.trans ih

theorem current_directory (h : SettlesAll fs as fs')
    (hcurrent : fs.node? fs.current = some .directory) :
    fs'.node? fs'.current = some .directory := by
  rw [h.persists.current]
  exact h.persists.directory _ hcurrent

theorem file?_other (h : SettlesAll fs as fs') {l : Location}
    (hne : ∀ a ∈ as, fs.target a.path ≠ l) : fs'.file? l = fs.file? l := by
  induction h with
  | nil => rfl
  | cons h hrest ih =>
      rw [List.forall_mem_cons] at hne
      obtain ⟨hupdates, _⟩ := h.updates_target
      rw [ih, hupdates.file?, if_neg hne.1.symm]
      simpa only [hupdates.grows.target_eq] using hne.2

theorem read_other (h : SettlesAll fs as fs') {p : Path} {content : Bytes}
    (hread : fs.read p = .ok content) (hne : ∀ a ∈ as, fs.target p ≠ fs.target a.path) :
    fs'.read p = .ok content := by
  obtain ⟨hlocate, hfile⟩ := FileSystem.read_eq_ok_iff_target.mp hread
  rw [FileSystem.read_eq_ok_iff_of_locate (h.persists.locate hlocate),
    h.file?_other fun a ha => (hne a ha).symm, hfile]

theorem read (h : SettlesAll fs as fs') (hapart : (as.map fun a => fs.target a.path).Nodup) :
    ∀ a ∈ as, fs'.read a.path = .ok (Utf8.encode a.text) := by
  induction h with
  | nil => exact List.forall_mem_nil _
  | cons h hrest ih =>
      rw [List.map_cons, List.nodup_cons] at hapart
      obtain ⟨hupdates, hread⟩ := h.updates_target
      have htarget := hupdates.grows.target_eq
      rw [List.forall_mem_cons]
      constructor
      · apply hrest.read_other hread
        intro b hb he
        rw [htarget, htarget] at he
        exact hapart.1 (he ▸ List.mem_map_of_mem hb)
      · apply ih
        simpa only [htarget] using hapart.2

/-- Settling artifacts whose texts will stand takes from the end the ways to their places,
and nothing else. -/
theorem adopts (h : SettlesAll fs as fs') (hk : fs.Persists final)
    (hcurrent : fs.node? fs.current = some .directory) (has : ∀ a ∈ as, a.path.Descends)
    (hread : ∀ a ∈ as, final.read a.path = .ok (Utf8.encode a.text)) :
    Adopts fs final as fs' := by
  induction h with
  | nil => exact adopts_nil
  | cons h hrest ih =>
      rw [List.forall_mem_cons] at has hread
      have hfirst := (h.adopts hk hread.1 has.1 hcurrent).2
      have hcurrent := (SettlesAll.cons h (.nil _)).current_directory hcurrent
      exact hfirst.cons (ih (hfirst.persists hk) hcurrent has.2 hread.2)

theorem next_ok (h : SettlesAll fs as mid) (hk : fs.Persists final)
    (hcurrent : fs.node? fs.current = some .directory) {a : Artifact} {later : List Artifact}
    (has : ∀ b ∈ as ++ a :: later, b.path.Descends)
    (hread : ∀ b ∈ as ++ a :: later, final.read b.path = .ok (Utf8.encode b.text))
    {answer : Except FileError Outcome} (hs : Settles mid a answer fs') :
    ∃ outcome, answer = .ok outcome := by
  rw [List.forall_mem_append, List.forall_mem_cons] at has hread
  have hadopts := h.adopts hk hcurrent has.1 hread.1
  exact (hs.adopts (hadopts.persists hk) hread.2.1 has.2.1 (h.current_directory hcurrent)).1

end SettlesAll

end EnumCodegen
