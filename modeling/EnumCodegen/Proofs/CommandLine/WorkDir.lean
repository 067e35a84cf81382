import EnumCodegen.CommandLine.Arguments
import EnumCodegen.Proofs.Checked
import EnumCodegen.Proofs.Text.Ascii
import Mathlib.Data.List.Basic

/-! # Ways to spell the working directory

The working directory can be a word of its own or stand in the word of its option, directly
or after one sign. A word of its own is checked later than the others, but in the end every
word is checked, so the same arguments come out, whatever other words stand around. -/

namespace EnumCodegen

/-- The ways to give the option for the working directory its value. -/
inductive WorkDirSpelling where
  | separate
  | attached
  | afterEquals
  | afterColon
  deriving DecidableEq, Repr

def WorkDirSpelling.words (dir : Text) : WorkDirSpelling → List Bytes
  | .separate => [Utf8.encode "-d", Utf8.encode dir]
  | .attached => [Utf8.encode ("-d" ++ dir)]
  | .afterEquals => [Utf8.encode ("-d=" ++ dir)]
  | .afterColon => [Utf8.encode ("-d:" ++ dir)]

namespace Arguments

/-! ## A directory that is set stays -/

section Set

variable {a a' : Arguments}

theorem workDir?_of_setWorkDir {value : Bytes} (h : a.setWorkDir value = .ok a') :
    a.workDir? = none := by
  unfold setWorkDir at h
  split at h
  · cases h
  · rename_i hset
    simpa using hset

theorem workDir?_addInputs {names : List Path} (h : a.addInputs names = .ok a') :
    a'.workDir? = a.workDir? := by
  unfold addInputs at h
  split at h
  · cases h
  · cases h
    rfl

theorem workDir?_setFlag {f : Flag} (h : a.setFlag f = .ok a') : a'.workDir? = a.workDir? := by
  cases f with
  | help => cases h
  | version | verbose =>
      simp only [setFlag] at h
      split at h
      · cases h
      · cases h
        rfl

end Set

namespace Parsing

/-- The arguments with the words that are pending. -/
def checked (p : Parsing) : Except UsageError Arguments :=
  match p.pending with
  | .nothing => .ok p.done
  | .files names => p.done.addInputs names
  | .workDir none => .error (.missingValue workDirShown)
  | .workDir (some value) => p.done.setWorkDir value

theorem flush_eq (p : Parsing) :
    p.flush = p.checked >>= fun done => pure { p with done, pending := .nothing } := by
  obtain ⟨done, pending, ended⟩ := p
  cases pending with
  | nothing => rfl
  | files names => rfl
  | workDir value? => cases value? <;> rfl

theorem flush_eq_ok_iff {p q : Parsing} :
    p.flush = .ok q ↔ ∃ done, p.checked = .ok done ∧ { p with done, pending := .nothing } = q := by
  rw [flush_eq, bind_eq_ok_iff]
  simp only [pure_eq_ok_iff]

/-- What words between two states leave alone: a directory that is set, and whether options
have ended. -/
structure Keeps (p q : Parsing) : Prop where
  workDir? : ∀ dir, p.done.workDir? = some dir → q.done.workDir? = some dir
  ended : q.ended = p.ended

section Keeps

variable {p q r : Parsing}

theorem Keeps.refl (p : Parsing) : p.Keeps p := ⟨fun _ h => h, rfl⟩

theorem Keeps.trans (h : p.Keeps q) (h' : q.Keeps r) : p.Keeps r :=
  ⟨fun dir hdir => h'.workDir? dir (h.workDir? dir hdir), h'.ended.trans h.ended⟩

theorem flush_keeps (h : p.flush = .ok q) : p.Keeps q := by
  obtain ⟨done, hdone, rfl⟩ := flush_eq_ok_iff.mp h
  refine ⟨fun dir hdir => ?_, rfl⟩
  unfold checked at hdone
  split at hdone
  · cases hdone
    exact hdir
  · exact (workDir?_addInputs hdone).trans hdir
  · cases hdone
  · rw [workDir?_of_setWorkDir hdone] at hdir
    cases hdir

theorem flag_keeps {f : Flag} (h : p.flag f = .ok q) : p.Keeps q := by
  obtain ⟨mid, hmid, h⟩ := bind_eq_ok_iff.mp h
  obtain ⟨done, hdone, hq⟩ := bind_eq_ok_iff.mp h
  obtain rfl := pure_eq_ok_iff.mp hq
  exact (flush_keeps hmid).trans ⟨fun dir hdir => (workDir?_setFlag hdone).trans hdir, rfl⟩

theorem workDirOption_keeps {attached : Bytes} (h : p.workDirOption attached = .ok q) :
    p.Keeps q := by
  obtain ⟨mid, hmid, h⟩ := bind_eq_ok_iff.mp h
  refine (flush_keeps hmid).trans ?_
  cases attached with
  | nil =>
      obtain rfl := pure_eq_ok_iff.mp h
      exact ⟨fun _ hdir => hdir, rfl⟩
  | cons b rest =>
      obtain ⟨done, hdone, hq⟩ := bind_eq_ok_iff.mp h
      obtain rfl := pure_eq_ok_iff.mp hq
      refine ⟨fun dir hdir => ?_, rfl⟩
      rw [workDir?_of_setWorkDir hdone] at hdir
      cases hdir

theorem short_keeps {group : Bytes} (h : p.short group = .ok q) : p.Keeps q := by
  induction group generalizing p with
  | nil =>
      cases h
      exact .refl _
  | cons b rest ih =>
      unfold short at h
      split at h
      · exact workDirOption_keeps h
      · split at h
        · cases h
        · obtain ⟨mid, hmid, h⟩ := bind_eq_ok_iff.mp h
          exact (flag_keeps hmid).trans (ih h)

theorem long_keeps {body : Bytes} (h : p.long body = .ok q) : p.Keeps q := by
  unfold long at h
  dsimp only at h
  split at h
  · cases h
  · split at h
    · exact flag_keeps h
    · cases h

theorem value_keeps {w : Bytes} (h : p.value w = .ok q) : p.Keeps q := by
  unfold value at h
  split at h
  · split at h
    · cases h
    · cases h
      exact ⟨fun _ hdir => hdir, rfl⟩
  · cases h
    exact ⟨fun _ hdir => hdir, rfl⟩
  · obtain ⟨mid, hmid, hq⟩ := bind_eq_ok_iff.mp h
    obtain rfl := pure_eq_ok_iff.mp hq
    exact (flush_keeps hmid).trans ⟨fun _ hdir => hdir, rfl⟩

theorem word_keeps {w : Bytes} (hw : w ≠ [dash, dash]) (h : p.word w = .ok q) : p.Keeps q := by
  unfold word at h
  split at h
  · exact value_keeps h
  · split at h
    · exact absurd rfl hw
    · exact long_keeps h
    · exact short_keeps h
    · exact value_keeps h

theorem workDir?_word {w : Bytes} {dir : Path} (hdir : p.done.workDir? = some dir)
    (h : p.word w = .ok q) : q.done.workDir? = some dir := by
  by_cases hw : w = [dash, dash]
  · subst hw
    unfold word at h
    split at h
    · exact (value_keeps h).workDir? dir hdir
    · cases h
      exact hdir
  · exact (word_keeps hw h).workDir? dir hdir

end Keeps

/-- Reads words and checks those that are pending at their end. -/
def finish (p : Parsing) (words : List Bytes) : Except UsageError Arguments := do
  let p ← words.foldlM word p
  return (← p.flush).done

theorem finish_nil_eq_ok_iff {p : Parsing} {a : Arguments} :
    p.finish [] = .ok a ↔ ∃ mid, p.flush = .ok mid ∧ mid.done = a := by
  rw [finish, List.foldlM_nil, pure_bind, bind_eq_ok_iff]
  simp only [pure_eq_ok_iff]

theorem finish_cons (p : Parsing) (w : Bytes) (words : List Bytes) :
    p.finish (w :: words) = p.word w >>= (·.finish words) := by
  unfold finish
  rw [List.foldlM_cons, bind_assoc]

theorem finish_append (p : Parsing) (front back : List Bytes) :
    p.finish (front ++ back) = front.foldlM word p >>= (·.finish back) := by
  unfold finish
  rw [List.foldlM_append, bind_assoc]

theorem workDir?_finish {p : Parsing} {words : List Bytes} {a : Arguments} {dir : Path}
    (hdir : p.done.workDir? = some dir) (h : p.finish words = .ok a) :
    a.workDir? = some dir := by
  induction words generalizing p with
  | nil =>
      obtain ⟨q, hq, rfl⟩ := finish_nil_eq_ok_iff.mp h
      exact (flush_keeps hq).workDir? dir hdir
  | cons w words ih =>
      rw [finish_cons, bind_eq_ok_iff] at h
      obtain ⟨q, hq, h⟩ := h
      exact ih (workDir?_word hdir hq) h

/-! ## Checking pending words -/

section Flush

variable {p q : Parsing}

theorem flush_flushed (h : p.flush = .ok q) : q.flush = .ok q := by
  obtain ⟨done, -, rfl⟩ := flush_eq_ok_iff.mp h
  rfl

theorem flag_flushed (h : p.flush = .ok q) (f : Flag) : q.flag f = p.flag f := by
  rw [flag, flag, h, flush_flushed h]

theorem workDirOption_flushed (h : p.flush = .ok q) (attached : Bytes) :
    q.workDirOption attached = p.workDirOption attached := by
  rw [workDirOption, workDirOption, h, flush_flushed h]

theorem short_flushed (h : p.flush = .ok q) (b : UInt8) (rest : Bytes) :
    q.short (b :: rest) = p.short (b :: rest) := by
  unfold short
  rw [workDirOption_flushed h]
  simp only [flag_flushed h]

theorem long_flushed (h : p.flush = .ok q) (body : Bytes) : q.long body = p.long body := by
  unfold long
  simp only [flag_flushed h]

theorem value_flushed (h : p.flush = .ok q) {value : Bytes}
    (hp : p.pending = .workDir (some value)) (w : Bytes) : q.value w = p.value w := by
  have hflushed := flush_flushed h
  obtain ⟨done, -, rfl⟩ := flush_eq_ok_iff.mp h
  simp only [Parsing.value, hp, h, hflushed]

/-- A word is read alike whether the directory before it was checked or not, unless it only
ends the options. -/
theorem word_flushed (h : p.flush = .ok q) {value : Bytes}
    (hp : p.pending = .workDir (some value)) {w : Bytes}
    (hw : p.ended = true ∨ w ≠ [dash, dash]) : q.word w = p.word w := by
  unfold word
  rw [(flush_keeps h).ended]
  split
  · exact value_flushed h hp w
  · rename_i hopen
    split
    · exact absurd rfl (hw.resolve_left hopen)
    · exact long_flushed h _
    · exact short_flushed h _ _
    · exact value_flushed h hp _

theorem exists_flush_of_flag {f : Flag} (h : p.flag f = .ok q) : ∃ mid, p.flush = .ok mid := by
  obtain ⟨mid, hmid, -⟩ := bind_eq_ok_iff.mp h
  exact ⟨mid, hmid⟩

theorem exists_flush_of_workDirOption {attached : Bytes} (h : p.workDirOption attached = .ok q) :
    ∃ mid, p.flush = .ok mid := by
  obtain ⟨mid, hmid, -⟩ := bind_eq_ok_iff.mp h
  exact ⟨mid, hmid⟩

theorem exists_flush_of_short {b : UInt8} {rest : Bytes} (h : p.short (b :: rest) = .ok q) :
    ∃ mid, p.flush = .ok mid := by
  unfold short at h
  split at h
  · exact exists_flush_of_workDirOption h
  · split at h
    · cases h
    · obtain ⟨mid, hmid, -⟩ := bind_eq_ok_iff.mp h
      exact exists_flush_of_flag hmid

theorem exists_flush_of_long {body : Bytes} (h : p.long body = .ok q) :
    ∃ mid, p.flush = .ok mid := by
  unfold long at h
  dsimp only at h
  split at h
  · cases h
  · split at h
    · exact exists_flush_of_flag h
    · cases h

theorem exists_flush_of_value {value : Bytes} (hp : p.pending = .workDir (some value)) {w : Bytes}
    (h : p.value w = .ok q) : ∃ mid, p.flush = .ok mid := by
  simp only [Parsing.value, hp] at h
  obtain ⟨mid, hmid, -⟩ := bind_eq_ok_iff.mp h
  exact ⟨mid, hmid⟩

/-- A word that is read has the directory before it checked, unless it only ends the options. -/
theorem exists_flush_of_word {value : Bytes} (hp : p.pending = .workDir (some value)) {w : Bytes}
    (hw : p.ended = true ∨ w ≠ [dash, dash]) (h : p.word w = .ok q) :
    ∃ mid, p.flush = .ok mid := by
  unfold word at h
  split at h
  · exact exists_flush_of_value hp h
  · rename_i hopen
    split at h
    · exact absurd rfl (hw.resolve_left hopen)
    · exact exists_flush_of_long h
    · exact exists_flush_of_short h
    · exact exists_flush_of_value hp h

theorem word_eq_ok_iff {value : Bytes} (hp : p.pending = .workDir (some value)) {w : Bytes}
    (hw : p.ended = true ∨ w ≠ [dash, dash]) :
    p.word w = .ok q ↔ ∃ mid, p.flush = .ok mid ∧ mid.word w = .ok q := by
  constructor
  · intro h
    obtain ⟨mid, hmid⟩ := exists_flush_of_word hp hw h
    exact ⟨mid, hmid, (word_flushed hmid hp hw).trans h⟩
  · rintro ⟨mid, hmid, h⟩
    exact (word_flushed hmid hp hw).symm.trans h

theorem word_dashes (hopen : p.ended = false) :
    p.word [dash, dash] = .ok { p with ended := true } := by
  simp only [word, hopen, Bool.false_eq_true, if_false]
  rfl

theorem finish_dashes (hopen : p.ended = false) (words : List Bytes) :
    p.finish ([dash, dash] :: words) = ({ p with ended := true } : Parsing).finish words := by
  rw [finish_cons, word_dashes hopen]
  rfl

theorem flush_ended_eq_ok_iff : ({ p with ended := true } : Parsing).flush = .ok q ↔
    ∃ mid, p.flush = .ok mid ∧ { mid with ended := true } = q := by
  constructor
  · intro h
    obtain ⟨done, hdone, rfl⟩ := flush_eq_ok_iff.mp h
    exact ⟨_, flush_eq_ok_iff.mpr ⟨done, hdone, rfl⟩, rfl⟩
  · rintro ⟨mid, hmid, rfl⟩
    obtain ⟨done, hdone, rfl⟩ := flush_eq_ok_iff.mp hmid
    exact flush_eq_ok_iff.mpr ⟨done, hdone, rfl⟩

/-- A directory that is a word of its own may as well be checked at once. -/
theorem finish_eq_ok_iff {value : Bytes} (hp : p.pending = .workDir (some value))
    {words : List Bytes} {a : Arguments} :
    p.finish words = .ok a ↔ ∃ mid, p.flush = .ok mid ∧ mid.finish words = .ok a := by
  induction words generalizing p with
  | nil =>
      constructor
      · intro h
        obtain ⟨mid, hmid, ha⟩ := finish_nil_eq_ok_iff.mp h
        exact ⟨mid, hmid, finish_nil_eq_ok_iff.mpr ⟨mid, flush_flushed hmid, ha⟩⟩
      · rintro ⟨mid, hmid, h⟩
        obtain ⟨mid', hmid', ha⟩ := finish_nil_eq_ok_iff.mp h
        obtain rfl : mid = mid' := Except.ok.inj ((flush_flushed hmid).symm.trans hmid')
        exact finish_nil_eq_ok_iff.mpr ⟨mid, hmid, ha⟩
  | cons w words ih =>
      by_cases hw : p.ended = true ∨ w ≠ [dash, dash]
      · simp only [finish_cons, bind_eq_ok_iff, word_eq_ok_iff hp hw]
        grind
      · -- only here does the directory stay pending
        obtain ⟨hopen, rfl⟩ : p.ended = false ∧ w = [dash, dash] := by simpa using hw
        have hrest := ih (p := { p with ended := true }) hp
        rw [finish_dashes hopen, hrest]
        constructor
        · rintro ⟨q, hq, h⟩
          obtain ⟨mid, hmid, rfl⟩ := flush_ended_eq_ok_iff.mp hq
          exact ⟨mid, hmid, (finish_dashes ((flush_keeps hmid).ended.trans hopen) words).trans h⟩
        · rintro ⟨mid, hmid, h⟩
          rw [finish_dashes ((flush_keeps hmid).ended.trans hopen)] at h
          exact ⟨_, flush_ended_eq_ok_iff.mpr ⟨mid, hmid, rfl⟩, h⟩

end Flush

/-! ## The option -/

theorem foldlM_keeps {p q : Parsing} {words : List Bytes} (hwords : [dash, dash] ∉ words)
    (h : words.foldlM word p = .ok q) : p.Keeps q := by
  induction words generalizing p with
  | nil =>
      obtain rfl := pure_eq_ok_iff.mp h
      exact .refl p
  | cons w words ih =>
      rw [List.foldlM_cons, bind_eq_ok_iff] at h
      obtain ⟨mid, hmid, h⟩ := h
      rw [List.mem_cons, not_or] at hwords
      exact (word_keeps (Ne.symm hwords.1) hmid).trans (ih hwords.2 h)

section Option

variable {p q : Parsing}

theorem word_workDirOption (hopen : p.ended = false) (attached : Bytes) :
    p.word (dash :: workDirLetter.toUInt8 :: attached) = p.workDirOption attached := by
  simp only [word, hopen, Bool.false_eq_true, if_false]
  change p.short (workDirLetter.toUInt8 :: attached) = p.workDirOption attached
  rw [short, if_pos rfl]

theorem word_value (hopen : p.ended = false) {w : Bytes} (hw : w.head? ≠ some dash) :
    p.word w = p.value w := by
  unfold word
  rw [hopen, if_neg Bool.false_ne_true]
  split
  · exact absurd rfl hw
  · exact absurd rfl hw
  · exact absurd rfl hw
  · rfl

/-- A directory in the word of its option is checked after the words before it. -/
theorem finish_attached_eq_ok_iff (hopen : p.ended = false) {attached : Bytes}
    (hattached : attached ≠ []) {words : List Bytes} {a : Arguments} :
    p.finish ((dash :: workDirLetter.toUInt8 :: attached) :: words) = .ok a ↔
      ∃ q done, p.flush = .ok q ∧
        q.done.setWorkDir (if attached.head? = some equalsSign then attached.tail else attached)
          = .ok done ∧
        ({ q with done } : Parsing).finish words = .ok a := by
  obtain ⟨b, rest, rfl⟩ := List.exists_cons_of_ne_nil hattached
  rw [finish_cons, word_workDirOption hopen, workDirOption]
  simp only [bind_eq_ok_iff, pure_eq_ok_iff, List.head?_cons, Option.some_inj, List.tail_cons]
  grind

theorem workDirOption_nil_eq_ok_iff :
    p.workDirOption [] = .ok q ↔
      ∃ mid, p.flush = .ok mid ∧ { mid with pending := .workDir none } = q := by
  rw [workDirOption, bind_eq_ok_iff]
  simp only [pure_eq_ok_iff]

theorem finish_value_eq_ok_iff (hopen : p.ended = false) (hp : p.pending = .workDir none)
    {value : Bytes} (hvalue : value.head? ≠ some dash) {words : List Bytes} {a : Arguments} :
    p.finish (value :: words) = .ok a ↔
      ∃ done, p.done.setWorkDir value = .ok done ∧
        ({ p with done, pending := .nothing } : Parsing).finish words = .ok a := by
  have hword : p.word value = .ok { p with pending := .workDir (some value) } := by
    simp only [word_value hopen hvalue, Parsing.value, hp, hopen, Bool.false_eq_true, if_false]
  rw [finish_cons, hword]
  refine (finish_eq_ok_iff rfl).trans ?_
  simp only [flush_eq_ok_iff, checked]
  constructor
  · rintro ⟨mid, ⟨done, hdone, rfl⟩, h⟩
    exact ⟨done, hdone, h⟩
  · rintro ⟨done, hdone, h⟩
    exact ⟨_, ⟨done, hdone, rfl⟩, h⟩

theorem finish_separate_eq_ok_iff (hopen : p.ended = false) {value : Bytes}
    (hvalue : value.head? ≠ some dash) {words : List Bytes} {a : Arguments} :
    p.finish ([dash, workDirLetter.toUInt8] :: value :: words) = .ok a ↔
      ∃ q done, p.flush = .ok q ∧ q.done.setWorkDir value = .ok done ∧
        ({ q with done } : Parsing).finish words = .ok a := by
  have hrest : ∀ q, p.flush = .ok q →
      (({ q with pending := .workDir none } : Parsing).finish (value :: words) = .ok a ↔
        ∃ done, q.done.setWorkDir value = .ok done ∧
          ({ q with done } : Parsing).finish words = .ok a) := by
    intro q hq
    refine (finish_value_eq_ok_iff (p := { q with pending := .workDir none })
      ((flush_keeps hq).ended.trans hopen) rfl hvalue).trans ?_
    obtain ⟨done, -, rfl⟩ := flush_eq_ok_iff.mp hq
    exact Iff.rfl
  rw [finish_cons, word_workDirOption hopen, bind_eq_ok_iff]
  simp only [workDirOption_nil_eq_ok_iff]
  constructor
  · rintro ⟨r, ⟨q, hq, rfl⟩, h⟩
    obtain ⟨done, hdone, h⟩ := (hrest q hq).mp h
    exact ⟨q, done, hq, hdone, h⟩
  · rintro ⟨q, done, hq, hdone, h⟩
    exact ⟨_, ⟨q, hq, rfl⟩, (hrest q hq).mpr ⟨done, hdone, h⟩⟩

end Option

end Parsing

/-! ## A directory that is a text -/

section Dir

variable {dir : Text}

theorem setWorkDir_encode (a : Arguments) (hdir : dir ≠ []) (hcolon : dir.head? ≠ some ':') :
    a.setWorkDir (Utf8.encode dir) =
      if a.workDir?.isSome then .error (.repeated workDirShown)
      else .ok { a with workDir? := some (.ofText dir) } := by
  simp [setWorkDir, Utf8.decode?_encode, hcolon, hdir]

theorem setWorkDir_encode_colon (a : Arguments) (hdir : dir ≠ []) :
    a.setWorkDir (Utf8.encode (':' :: dir)) =
      if a.workDir?.isSome then .error (.repeated workDirShown)
      else .ok { a with workDir? := some (.ofText dir) } := by
  simp [setWorkDir, Utf8.decode?_encode, -Utf8.encode_cons, hdir]

theorem encode_option : Utf8.encode "-d" = [dash, workDirLetter.toUInt8] := by
  rw [Text.ofString_eq]
  rfl

theorem encode_option_append (dir : Text) :
    Utf8.encode ("-d" ++ dir) = dash :: workDirLetter.toUInt8 :: Utf8.encode dir := by
  rw [Utf8.encode_append, encode_option]
  rfl

theorem encode_option_equals_append (dir : Text) : Utf8.encode ("-d=" ++ dir) =
    dash :: workDirLetter.toUInt8 :: equalsSign :: Utf8.encode dir := by
  rw [Utf8.encode_append, Text.ofString_eq]
  rfl

theorem encode_option_colon_append (dir : Text) : Utf8.encode ("-d:" ++ dir) =
    dash :: workDirLetter.toUInt8 :: Utf8.encode (':' :: dir) := by
  rw [Utf8.encode_append, Text.ofString_eq]
  rfl

theorem head?_encode_ne_dash (h : dir.head? ≠ some '-') : (Utf8.encode dir).head? ≠ some dash :=
  fun hdash => h ((Utf8.head?_encode_eq_ofNat_iff (by decide) dir).mp hdash)

theorem head?_encode_ne_equalsSign (h : dir.head? ≠ some '=') :
    (Utf8.encode dir).head? ≠ some equalsSign :=
  fun hequals => h ((Utf8.head?_encode_eq_ofNat_iff (by decide) dir).mp hequals)

theorem encode_ne_nil (h : dir ≠ []) : Utf8.encode dir ≠ [] := by
  intro hnil
  exact h (Utf8.encode_injective hnil)

/-- Whatever the spelling, the words before the option are checked, then the directory is set
and then the words after it are read. -/
theorem finish_words_eq_ok_iff {p : Parsing} (hopen : p.ended = false) (hdir : dir ≠ [])
    (hdash : dir.head? ≠ some '-') (hcolon : dir.head? ≠ some ':') (hequals : dir.head? ≠ some '=')
    (s : WorkDirSpelling) {after : List Bytes} {a : Arguments} :
    p.finish (s.words dir ++ after) = .ok a ↔
      ∃ q done, p.flush = .ok q ∧ q.done.setWorkDir (Utf8.encode dir) = .ok done ∧
        ({ q with done } : Parsing).finish after = .ok a := by
  cases s with
  | separate =>
      change p.finish (Utf8.encode "-d" :: Utf8.encode dir :: after) = .ok a ↔ _
      rw [encode_option]
      exact Parsing.finish_separate_eq_ok_iff hopen (head?_encode_ne_dash hdash)
  | attached =>
      change p.finish (Utf8.encode ("-d" ++ dir) :: after) = .ok a ↔ _
      rw [encode_option_append, Parsing.finish_attached_eq_ok_iff hopen (encode_ne_nil hdir),
        if_neg (head?_encode_ne_equalsSign hequals)]
  | afterEquals =>
      change p.finish (Utf8.encode ("-d=" ++ dir) :: after) = .ok a ↔ _
      rw [encode_option_equals_append,
        Parsing.finish_attached_eq_ok_iff hopen (List.cons_ne_nil _ _), List.head?_cons,
        if_pos rfl, List.tail_cons]
  | afterColon =>
      change p.finish (Utf8.encode ("-d:" ++ dir) :: after) = .ok a ↔ _
      rw [encode_option_colon_append,
        Parsing.finish_attached_eq_ok_iff hopen (encode_ne_nil (List.cons_ne_nil _ _)),
        if_neg (head?_encode_ne_equalsSign (by simp))]
      simp only [setWorkDir_encode _ hdir hcolon, setWorkDir_encode_colon _ hdir]

theorem workDir?_setWorkDir_encode {a a' : Arguments} (hdir : dir ≠ [])
    (hcolon : dir.head? ≠ some ':') (h : a.setWorkDir (Utf8.encode dir) = .ok a') :
    a'.workDir? = some (.ofText dir) := by
  rw [setWorkDir_encode a hdir hcolon] at h
  split at h
  · cases h
  · cases h
    rfl

theorem parse_append (front back : List Bytes) :
    parse (front ++ back) = front.foldlM Parsing.word {} >>= (·.finish back) :=
  Parsing.finish_append {} front back

theorem parse_words_eq_ok_iff {before after : List Bytes} (hbefore : Utf8.encode "--" ∉ before)
    (hdir : dir ≠ []) (hdash : dir.head? ≠ some '-') (hcolon : dir.head? ≠ some ':')
    (hequals : dir.head? ≠ some '=') (s : WorkDirSpelling) {a : Arguments} :
    parse (before ++ s.words dir ++ after) = .ok a ↔
      ∃ p q done, before.foldlM Parsing.word {} = .ok p ∧ p.flush = .ok q ∧
        q.done.setWorkDir (Utf8.encode dir) = .ok done ∧
        ({ q with done } : Parsing).finish after = .ok a := by
  have hdashes : [dash, dash] ∉ before := by
    rwa [Text.ofString_eq] at hbefore
  have hrest : ∀ p, before.foldlM Parsing.word {} = .ok p →
      (p.finish (s.words dir ++ after) = .ok a ↔
        ∃ q done, p.flush = .ok q ∧ q.done.setWorkDir (Utf8.encode dir) = .ok done ∧
          ({ q with done } : Parsing).finish after = .ok a) := by
    intro p hp
    exact finish_words_eq_ok_iff (Parsing.foldlM_keeps hdashes hp).ended hdir hdash hcolon hequals s
  rw [List.append_assoc, parse_append, bind_eq_ok_iff]
  constructor
  · rintro ⟨p, hp, h⟩
    obtain ⟨q, done, h⟩ := (hrest p hp).mp h
    exact ⟨p, q, done, hp, h⟩
  · rintro ⟨p, q, done, hp, h⟩
    exact ⟨p, hp, (hrest p hp).mpr ⟨q, done, h⟩⟩

/-- The ways to spell the working directory can replace each other: all are understood alike,
as the directory that is spelled, or none is understood. -/
theorem parse_spellings {before after : List Bytes} (hbefore : Utf8.encode "--" ∉ before)
    (hdir : dir ≠ []) (hhead : ∀ c ∈ dir.head?, c ≠ '-' ∧ c ≠ ':' ∧ c ≠ '=') :
    (∃ a, (∀ s : WorkDirSpelling, parse (before ++ s.words dir ++ after) = .ok a) ∧
      a.workDir? = some (.ofText dir) ∧
      a.config = { workDir := .ofText dir, verbose := a.verbose }) ∨
    ∀ s : WorkDirSpelling, ∃ e, parse (before ++ s.words dir ++ after) = .error e := by
  have hiff := @parse_words_eq_ok_iff dir before after hbefore hdir
    (fun h => (hhead _ h).1 rfl) (fun h => (hhead _ h).2.1 rfl) (fun h => (hhead _ h).2.2 rfl)
  by_cases hread : ∃ a, parse (before ++ WorkDirSpelling.separate.words dir ++ after) = .ok a
  · obtain ⟨a, ha⟩ := hread
    obtain ⟨p, q, done, -, -, hdone, hfinish⟩ := (hiff .separate).mp ha
    have hset : a.workDir? = some (.ofText dir) := Parsing.workDir?_finish
      (workDir?_setWorkDir_encode hdir (fun h => (hhead _ h).2.1 rfl) hdone) hfinish
    refine .inl ⟨a, fun s => (hiff s).mpr ((hiff .separate).mp ha), hset, ?_⟩
    rw [config, hset]
    rfl
  · refine .inr fun s => ?_
    cases hs : parse (before ++ s.words dir ++ after) with
    | error e => exact ⟨e, rfl⟩
    | ok a => exact absurd ⟨a, (hiff .separate).mpr ((hiff s).mp hs)⟩ hread

/-- Between other words the directory is understood, and after an option without its value no
spelling is. -/
theorem parse_spellings_out :
    (∀ s : WorkDirSpelling, parse ([Utf8.encode "-V", Utf8.encode "a.ini"] ++ s.words "out" ++
        [Utf8.encode "--", Utf8.encode "-b.ini"]) =
      .ok { inputs := [.ofText "a.ini", .ofText "-b.ini"], verbose := true,
            workDir? := some (.ofText "out") }) ∧
    ∀ s : WorkDirSpelling, ∃ e, parse ([Utf8.encode "-d"] ++ s.words "out" ++ []) = .error e := by
  have hdir : ("out" : Text) ≠ [] := by decide +kernel
  have hhead : ∀ c ∈ ("out" : Text).head?, c ≠ '-' ∧ c ≠ ':' ∧ c ≠ '=' := by
    rw [Text.ofString_eq]
    intro c hc
    obtain rfl : 'o' = c := Option.some.inj hc
    decide
  have hread : parse ([Utf8.encode "-V", Utf8.encode "a.ini"] ++
      WorkDirSpelling.separate.words "out" ++ [Utf8.encode "--", Utf8.encode "-b.ini"]) =
      .ok { inputs := [.ofText "a.ini", .ofText "-b.ini"], verbose := true,
            workDir? := some (.ofText "out") } := by decide +kernel
  have hfail : parse ([Utf8.encode "-d"] ++ WorkDirSpelling.separate.words "out" ++ []) =
      .error (.missingValue workDirShown) := by decide +kernel
  constructor
  · obtain ⟨a, hall, -⟩ | hnone := @parse_spellings "out"
      [Utf8.encode "-V", Utf8.encode "a.ini"] [Utf8.encode "--", Utf8.encode "-b.ini"]
      (by decide +kernel) hdir hhead
    · obtain rfl := Except.ok.inj (hread.symm.trans (hall .separate))
      exact hall
    · obtain ⟨e, he⟩ := hnone .separate
      cases hread.symm.trans he
  · obtain ⟨a, hall, -⟩ | hnone := @parse_spellings "out" [Utf8.encode "-d"] []
      (by decide +kernel) hdir hhead
    · cases (hall .separate).symm.trans hfail
    · exact hnone

end Dir

end Arguments

end EnumCodegen
