import EnumCodegen.Emission.Definition
import EnumCodegen.Proofs.Lookup.Matching
import EnumCodegen.Proofs.Lookup.Statements

/-! # The comparison that a lookup by name makes

The statements that are generated for it decide what `nameMatches` does: they come to an
end, read no byte after the zero byte of either string, and report a match just when the
name matches the stored one. -/

namespace EnumCodegen.Comparison

open Utf8

/-! ## The statements -/

/-- Whether one more byte of the stored string is passed over. -/
def passing : Test := .both (.less .skip .ignorePrefixLen) (.hasByte .stored .skip)

/-- Takes the bytes that the two pointers stand at, in small letters if case is ignored. -/
def reading : Statement :=
  .declare .a (.byte .cursor) ++ .declare .b (.byte .stored) ++
  .onlyIf (.isSet .ignoreCase) (.assign .a (.lowered .a) ++ .assign .b (.lowered .b))

/-- Compares the bytes that the two pointers stand at, and moves on. -/
def round : Statement :=
  reading ++
  .onlyIf (.differ .a .b) .leave ++
  .onlyIf (.isNul .a) .report ++
  .advance .cursor ++
  .advance .stored

def program : Statement :=
  .point .cursor .str ++ .declare .skip .zero ++ .loopWhile passing (.increment .skip) ++
  .move .stored .skip ++ .loop round

/-- The definition of a lookup by name with the given comparison. -/
def lookupBy (e : Enumeration) (comparison : Code) : Code :=
  .braces (e.signature .fromString) <|
    Definition.countLine e ++
    Definition.forEachIndex
      (.line (e.name ++ " value = " ++ Helper.name .fromIndex e.name ++ "(i);") ++
        .line ("const char *stored = " ++ Helper.name .toString e.name ++ "(value);") ++
        comparison) ++
    Definition.returnNotFound

theorem code_loop_round : Statement.code (.loop round) = Definition.comparison := by
  decide +kernel

theorem code_program :
    program.code =
      .line "const char *cursor = str;" ++ .line "unsigned skip = 0;" ++
        .braces "while (skip < ignorePrefixLen && stored[skip] != '\\0')" (.line "++skip;") ++
        .line "stored += skip;" ++ Definition.comparison := by
  rw [← code_loop_round]
  decide +kernel

theorem linesAt_fromStringBody (e : Enumeration) (n : Nat) :
    (Definition.fromStringBody e).linesAt n = (lookupBy e program.code).linesAt n := by
  rw [code_program]
  have h : Definition.comparison.Steady := by
    simp [Definition.comparison]
  simp [Definition.fromStringBody, lookupBy, Definition.countLine, Definition.forEachIndex,
    Definition.returnNotFound, h]

/-! ## Bytes as they are compared -/

def comparedByte (ignoreCase : Bool) (b : UInt8) : UInt8 := if ignoreCase then lowerByte b else b

theorem comparedBytes_eq_map (ignoreCase : Bool) (bytes : Bytes) :
    comparedBytes ignoreCase bytes = bytes.map (comparedByte ignoreCase) := by
  cases ignoreCase with
  | false => exact (List.map_id' bytes).symm
  | true => rfl

@[simp] theorem comparedByte_zero (ignoreCase : Bool) : comparedByte ignoreCase 0 = 0 := by
  cases ignoreCase <;> rfl

theorem comparedByte_eq_zero_iff (ignoreCase : Bool) (b : UInt8) :
    comparedByte ignoreCase b = 0 ↔ b = 0 := by
  cases ignoreCase with
  | false => rfl
  | true =>
      simp only [comparedByte, if_true, lowerByte]
      grind

theorem comparedByte_ne_zero (ignoreCase : Bool) {b : UInt8} {bytes : Bytes} (h : 0 ∉ b :: bytes) :
    comparedByte ignoreCase b ≠ comparedByte ignoreCase 0 := by
  rw [comparedByte_zero, Ne, comparedByte_eq_zero_iff]
  rintro rfl
  exact h List.mem_cons_self

theorem lower?_toNat (b : UInt8) : lower? b.toNat = some (lowerByte b).toNat := by
  have hcapital : (65 ≤ b ∧ b ≤ 90) ↔ 65 ≤ b.toNat ∧ b.toNat ≤ 90 :=
    and_congr UInt8.le_iff_toNat_le UInt8.le_iff_toNat_le
  rw [lower?, if_pos b.toNat_lt, lowerByte]
  by_cases h : 65 ≤ b.toNat ∧ b.toNat ≤ 90
  · rw [if_pos h, if_pos (hcapital.mpr h), UInt8.toNat_add]
    congr 1
    change b.toNat + 32 = (b.toNat + 32) % 256
    omega
  · rw [if_neg h, if_neg (mt hcapital.mp h)]

/-! ## One round -/

/-- Whether the variable for it asks that letter case is ignored. -/
def State.ignoring (s : State) : Bool := s.ignoreCase != 0

theorem run_reading (limit : Nat) {s : State} {x y : UInt8} (hx : s.cursor.read? 0 = some x)
    (hy : s.stored.read? 0 = some y) :
    reading.run limit s =
      .next { s with
        a := (comparedByte s.ignoring x).toNat
        b := (comparedByte s.ignoring y).toNat } := by
  by_cases h : s.ignoreCase = 0
  · have hignoring : s.ignoring = false := by simp [State.ignoring, h]
    simp [reading, run_append, Statement.run, Outcome.ofValue, Outcome.andThen, Term.value?,
      Test.holds?, State.place, State.number, State.setNumber, hx, hy, h, hignoring, comparedByte]
  · have hignoring : s.ignoring = true := by simp [State.ignoring, h]
    simp [reading, run_append, Statement.run, Outcome.ofValue, Outcome.andThen, Term.value?,
      Test.holds?, State.place, State.number, State.setNumber, hx, hy, h, hignoring, comparedByte,
      lower?_toNat]

theorem run_round (limit : Nat) {s : State} {x y : UInt8} (hx : s.cursor.read? 0 = some x)
    (hy : s.stored.read? 0 = some y) :
    ∃ a b, round.run limit s =
      if comparedByte s.ignoring x ≠ comparedByte s.ignoring y then .left { s with a, b }
      else if x = 0 then .reported
      else .next { s with a, b, cursor := s.cursor.moved 1, stored := s.stored.moved 1 } := by
  have hread := run_reading limit hx hy
  have heq := UInt8.toNat_inj (a := comparedByte s.ignoring x) (b := comparedByte s.ignoring y)
  have hzero : (comparedByte s.ignoring x).toNat = 0 ↔ x = 0 :=
    UInt8.toNat_inj.trans (comparedByte_eq_zero_iff s.ignoring x)
  generalize (comparedByte s.ignoring x).toNat = a at hread heq hzero
  generalize (comparedByte s.ignoring y).toNat = b at hread heq
  refine ⟨a, b, ?_⟩
  simp only [round, run_append, hread, Outcome.andThen_next, Ne, ← heq, ← hzero, Statement.run,
    Outcome.ofValue, Test.holds?, State.number]
  by_cases hab : a = b
  · subst hab
    by_cases ha : a = 0
    · simp [ha]
    · simp [ha, State.place, State.setPlace]
  · simp [hab]

/-! ## All rounds -/

/-- A comparison that came to its end: it has reported a match, or it goes on with what
follows, and as it should. -/
inductive Outcome.Tells (isMatch : Prop) : Outcome → Prop where
  | found (h : isMatch) : Tells isMatch .reported
  | missed (h : ¬ isMatch) (last : State) : Tells isMatch (.next last)

theorem Outcome.Tells.eq_reported_iff {isMatch : Prop} {outcome : Outcome}
    (h : outcome.Tells isMatch) : outcome = .reported ↔ isMatch := by
  cases h with
  | found h => exact iff_of_true rfl h
  | missed h last => exact iff_of_false (by simp) h

/-- The rounds of the comparison, and the loops within them with a limit of their own. -/
def comparing (inner : Nat) : Nat → State → Outcome :=
  rounds (fun _ => some true) (round.run inner)

section Rounds

variable (inner limit : Nat) {s : State} {x y : UInt8}

theorem comparing_succ (hx : s.cursor.read? 0 = some x) (hy : s.stored.read? 0 = some y) :
    ∃ a b, comparing inner (limit + 1) s =
      if comparedByte s.ignoring x ≠ comparedByte s.ignoring y then .next { s with a, b }
      else if x = 0 then .reported
      else comparing inner limit
        { s with a, b, cursor := s.cursor.moved 1, stored := s.stored.moved 1 } := by
  obtain ⟨a, b, hround⟩ := run_round inner hx hy
  refine ⟨a, b, ?_⟩
  rw [comparing, rounds_succ, Outcome.ofValue, if_pos rfl, hround]
  split
  · rfl
  split
  · rfl
  · rfl

theorem comparing_of_ne (hx : s.cursor.read? 0 = some x) (hy : s.stored.read? 0 = some y)
    (hne : comparedByte s.ignoring x ≠ comparedByte s.ignoring y) {isMatch : Prop}
    (h : ¬ isMatch) : (comparing inner (limit + 1) s).Tells isMatch := by
  obtain ⟨a, b, hstep⟩ := comparing_succ inner limit hx hy
  rw [hstep, if_pos hne]
  exact .missed h _

theorem comparing_of_zero (hx : s.cursor.read? 0 = some 0) (hy : s.stored.read? 0 = some 0)
    {isMatch : Prop} (h : isMatch) : (comparing inner (limit + 1) s).Tells isMatch := by
  obtain ⟨a, b, hstep⟩ := comparing_succ inner limit hx hy
  rw [hstep, if_neg (not_not.mpr rfl), if_pos rfl]
  exact .found h

theorem comparing_of_eq (hx : s.cursor.read? 0 = some x) (hy : s.stored.read? 0 = some y)
    (h : comparedByte s.ignoring x = comparedByte s.ignoring y) (hne : x ≠ 0) :
    ∃ s' : State, comparing inner (limit + 1) s = comparing inner limit s' ∧
      s'.ignoring = s.ignoring ∧ s'.cursor = s.cursor.moved 1 ∧
        s'.stored = s.stored.moved 1 := by
  obtain ⟨a, b, hstep⟩ := comparing_succ inner limit hx hy
  rw [if_neg (not_not.mpr h), if_neg hne] at hstep
  exact ⟨_, hstep, rfl, rfl, rfl⟩

end Rounds

/-- The rounds from a place in each string compare what is left of the strings. -/
theorem comparing_tells (inner : Nat) {xs ys : Bytes} (hx : 0 ∉ xs) (hy : 0 ∉ ys)
    {front back : Bytes} {limit : Nat} (hlimit : xs.length < limit) {s : State}
    (hcursor : s.cursor = .between front xs) (hstored : s.stored = .between back ys) :
    (comparing inner limit s).Tells
      (xs.map (comparedByte s.ignoring) = ys.map (comparedByte s.ignoring)) := by
  induction limit generalizing xs ys front back s with
  | zero => omega
  | succ limit ih =>
      cases xs with
      | nil =>
          have hxread : s.cursor.read? 0 = some 0 := by rw [hcursor, Place.read?_between_nil]
          cases ys with
          | nil =>
              have hyread : s.stored.read? 0 = some 0 := by rw [hstored, Place.read?_between_nil]
              exact comparing_of_zero inner limit hxread hyread rfl
          | cons y ys =>
              have hyread : s.stored.read? 0 = some y := by rw [hstored, Place.read?_between_cons]
              have hne := (comparedByte_ne_zero s.ignoring hy).symm
              exact comparing_of_ne inner limit hxread hyread hne (List.cons_ne_nil _ _).symm
      | cons x xs =>
          have hxread : s.cursor.read? 0 = some x := by rw [hcursor, Place.read?_between_cons]
          have hxne := comparedByte_ne_zero s.ignoring hx
          cases ys with
          | nil =>
              have hyread : s.stored.read? 0 = some 0 := by rw [hstored, Place.read?_between_nil]
              exact comparing_of_ne inner limit hxread hyread hxne (List.cons_ne_nil _ _)
          | cons y ys =>
              have hyread : s.stored.read? 0 = some y := by rw [hstored, Place.read?_between_cons]
              by_cases heq : comparedByte s.ignoring x = comparedByte s.ignoring y
              · -- neither string ends here, and the rounds go on with the rest of both
                have hzero : x ≠ 0 := fun h => hxne (congrArg _ h)
                have hrest : xs.length < limit := by
                  rw [List.length_cons] at hlimit
                  omega
                obtain ⟨s', hstep, hsame, hcursor', hstored'⟩ :=
                  comparing_of_eq inner limit hxread hyread heq hzero
                rw [hcursor] at hcursor'
                rw [hstored] at hstored'
                rw [hstep, List.map_cons, List.map_cons, List.cons.injEq, eq_true heq, true_and,
                  ← hsame]
                exact ih (List.not_mem_of_not_mem_cons hx) (List.not_mem_of_not_mem_cons hy) hrest
                  (hcursor'.trans (Place.moved_between front xs [x]))
                  (hstored'.trans (Place.moved_between back ys [y]))
              · exact comparing_of_ne inner limit hxread hyread heq
                  fun h => heq (List.cons.inj h).1

/-! ## The bytes that are passed over -/

theorem holds?_passing {bytes : Bytes} (h : 0 ∉ bytes) {s : State}
    (hstored : s.stored = .between [] bytes) (hskip : s.skip ≤ bytes.length) :
    passing.holds? s = some (decide (s.skip < min s.ignorePrefixLen bytes.length)) := by
  have hbyte : (Test.hasByte .stored .skip).holds? s = some (decide (s.skip < bytes.length)) := by
    simp only [Test.holds?, State.place, State.number, hstored, Place.read?_between]
    rcases Nat.lt_or_eq_of_le hskip with hlt | heq
    · have hne : bytes[s.skip] ≠ 0 := by
        intro hzero
        exact h (hzero ▸ List.getElem_mem hlt)
      rw [List.getElem?_append_left hlt, List.getElem?_eq_getElem hlt]
      simp [hlt, hne]
    · simp [heq]
  simp only [passing, Test.holds?, State.number] at hbyte ⊢
  by_cases hless : s.skip < s.ignorePrefixLen
  · have hmin : s.skip < min s.ignorePrefixLen bytes.length ↔ s.skip < bytes.length := by omega
    rw [decide_eq_decide.mpr hmin]
    simpa [hless] using hbyte
  · have hmin : ¬ s.skip < min s.ignorePrefixLen bytes.length := by omega
    rw [decide_eq_false hmin]
    simp [hless]

/-- Bytes are passed over up to the number that is asked for, or to the end of the string. -/
theorem rounds_passing (inner : Nat) {bytes : Bytes} (h : 0 ∉ bytes) {limit : Nat} {s : State}
    (hstored : s.stored = .between [] bytes) (hskip : s.skip ≤ min s.ignorePrefixLen bytes.length)
    (hlimit : bytes.length < s.skip + limit) :
    rounds passing.holds? (Statement.run inner (.increment .skip)) limit s =
      .next { s with skip := min s.ignorePrefixLen bytes.length } := by
  induction limit generalizing s with
  | zero => omega
  | succ limit ih =>
      rw [rounds_succ, holds?_passing h hstored (by omega), Outcome.ofValue]
      by_cases hlt : s.skip < min s.ignorePrefixLen bytes.length
      · rw [if_pos (decide_eq_true hlt)]
        exact ih hstored hlt (by change _ < s.skip + 1 + limit; omega)
      · rw [if_neg (by simpa using hlt)]
        have heq : s.skip = min s.ignorePrefixLen bytes.length := by omega
        rw [← heq]

/-! ## The whole comparison -/

/-- What a comparison starts from. The other variables may hold anything. -/
structure State.Asks (s : State) (ignoreCase : Bool) (skip : Nat) (name stored : Text) : Prop where
  str : s.str = ⟨encode name, 0⟩
  stored : s.stored = ⟨encode stored, 0⟩
  ignoreCase : s.ignoring = ignoreCase
  ignorePrefixLen : s.ignorePrefixLen = skip

/-- Up to its rounds, a comparison moves the stored pointer past the bytes that are passed
over. -/
theorem run_program {limit : Nat} {s : State} {bytes : Bytes} (h : 0 ∉ bytes)
    (hstored : s.stored = ⟨bytes, 0⟩) (hlimit : bytes.length < limit) :
    ∃ s' : State, program.run limit s = comparing limit limit s' ∧
      s'.ignoring = s.ignoring ∧ s'.cursor = s.str ∧
        s'.stored = ⟨bytes, min s.ignorePrefixLen bytes.length⟩ := by
  let started : State := { s with cursor := s.str, skip := 0 }
  have hstarted : Statement.run limit (.point .cursor .str ++ .declare .skip .zero) s =
      .next started := rfl
  have hcounted : Statement.run limit (.loopWhile passing (.increment .skip)) started =
      .next { started with skip := min s.ignorePrefixLen bytes.length } :=
    rounds_passing limit h hstored (Nat.zero_le _) (by change _ < 0 + limit; omega)
  refine ⟨{ started with
    skip := min s.ignorePrefixLen bytes.length
    stored := s.stored.moved (min s.ignorePrefixLen bytes.length) }, ?_, rfl, rfl, ?_⟩
  · rw [program, run_append, run_append, run_append, hstarted, Outcome.andThen_next, hcounted]
    rfl
  · simp only [hstored, Place.moved, Nat.zero_add]

theorem zero_mem_encode_iff (text : Text) : 0 ∈ encode text ↔ '\x00' ∈ text :=
  ofNat_mem_encode_iff (a := '\x00') (by decide) text

/-- These statements are generated for the lookup by name, and as a program they come to an
end before a loop has had more rounds than the longer string has bytes, its end included.
They read no byte after the end of a string, and report a match just when the name
matches. -/
theorem program_tells {name stored : Text} (hname : '\x00' ∉ name) (hstored : '\x00' ∉ stored)
    (ignoreCase : Bool) (skip : Nat) :
    (∀ e n, (Definition.fromStringBody e).linesAt n = (lookupBy e program.code).linesAt n) ∧
      ∀ s : State, s.Asks ignoreCase skip name stored →
        ∀ limit > max (encode name).length (encode stored).length,
          (program.run limit s).Tells (nameMatches ignoreCase skip name stored = true) := by
  refine ⟨linesAt_fromStringBody, fun s hs limit hlimit => ?_⟩
  have hx : 0 ∉ encode name := mt (zero_mem_encode_iff name).mp hname
  have hy : 0 ∉ encode stored := mt (zero_mem_encode_iff stored).mp hstored
  have htail : 0 ∉ tail skip stored := fun h => hy (List.mem_of_mem_drop h)
  have hstr : s.str = .between [] (encode name) := hs.str
  obtain ⟨s', hrun, hsame, hcursor, hmoved⟩ :=
    run_program hy hs.stored (Nat.lt_of_le_of_lt (Nat.le_max_right ..) hlimit)
  rw [hs.ignorePrefixLen, ← Place.between_take_drop (Nat.min_le_right ..)] at hmoved
  rw [nameMatches_iff, agree_iff, comparedBytes_eq_map, comparedBytes_eq_map, hrun,
    ← hs.ignoreCase, ← hsame]
  refine comparing_tells limit hx htail ?_ (hcursor.trans hstr) hmoved
  exact Nat.lt_of_le_of_lt (Nat.le_max_left ..) hlimit

/-- A name with another letter case and a character of two bytes, and a stored name of which
one byte is passed over. -/
theorem program_tells_capitals :
    let name : Text := "bä"
    let stored : Text := "aBä"
    let s : State :=
      { str := ⟨encode name, 0⟩, cursor := ⟨[], 7⟩, stored := ⟨encode stored, 0⟩
        ignoreCase := 1, ignorePrefixLen := 1, skip := 5, a := 9, b := 9 }
    '\x00' ∉ name ∧ '\x00' ∉ stored ∧ s.Asks true 1 name stored ∧
      5 > max (encode name).length (encode stored).length ∧ program.run 5 s = .reported := by
  intro name stored s
  have hname : '\x00' ∉ name := by decide +kernel
  have hstored : '\x00' ∉ stored := by decide +kernel
  have hs : s.Asks true 1 name stored := ⟨rfl, rfl, rfl, rfl⟩
  have hlimit : 5 > max (encode name).length (encode stored).length := by decide +kernel
  have htells := (program_tells hname hstored true 1).2 s hs 5 hlimit
  exact ⟨hname, hstored, hs, hlimit, htells.eq_reported_iff.mpr (by decide +kernel)⟩

end EnumCodegen.Comparison
