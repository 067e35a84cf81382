import EnumCodegen.Proofs.Code.Layout

/-! # Statements that compare two strings

The part of C in which the comparison of a lookup by name is generated: how its statements
are written, and what they do. A string is its bytes and a zero byte after them, and to
read further than that is a fault. A loop has a limit on its rounds, which it may turn out
not to need. Numbers are not bounded: the only ones here are bytes, and a counter that never
gets past the number it is counted up to. -/

namespace EnumCodegen.Comparison

/-! ## Statements as text -/

inductive Pointer where
  | str
  | cursor
  | stored
  deriving DecidableEq, Repr

inductive Number where
  | ignoreCase
  | ignorePrefixLen
  | skip
  | a
  | b
  deriving DecidableEq, Repr

inductive Term where
  | zero
  | byte (p : Pointer)
  | lowered (n : Number)
  deriving DecidableEq, Repr

inductive Test where
  | isSet (n : Number)
  | isNul (n : Number)
  | differ (m n : Number)
  | less (m n : Number)
  | hasByte (p : Pointer) (n : Number)
  | both (first second : Test)
  deriving DecidableEq, Repr

/-- `leave` leaves the innermost loop. `report` stores the value that is looked for and
returns. -/
inductive Statement where
  | point (p q : Pointer)
  | declare (n : Number) (value : Term)
  | assign (n : Number) (value : Term)
  | increment (n : Number)
  | advance (p : Pointer)
  | move (p : Pointer) (n : Number)
  | onlyIf (test : Test) (body : Statement)
  | loopWhile (test : Test) (body : Statement)
  | loop (body : Statement)
  | leave
  | report
  | seq (first second : Statement)
  deriving DecidableEq, Repr

instance : Append Statement := ⟨.seq⟩

def Pointer.name : Pointer → Text
  | .str => "str"
  | .cursor => "cursor"
  | .stored => "stored"

def Number.name : Number → Text
  | .ignoreCase => "ignoreCase"
  | .ignorePrefixLen => "ignorePrefixLen"
  | .skip => "skip"
  | .a => "a"
  | .b => "b"

def Number.type : Number → Text
  | .ignorePrefixLen | .skip => "unsigned"
  | .ignoreCase | .a | .b => "int"

def Term.text : Term → Text
  | .zero => "0"
  | .byte p => "(unsigned char)*" ++ p.name
  | .lowered n => "tolower(" ++ n.name ++ ")"

def Test.text : Test → Text
  | .isSet n => n.name
  | .isNul n => n.name ++ " == '\\0'"
  | .differ m n => m.name ++ " != " ++ n.name
  | .less m n => m.name ++ " < " ++ n.name
  | .hasByte p n => p.name ++ "[" ++ n.name ++ "] != '\\0'"
  | .both first second => first.text ++ " && " ++ second.text

def Statement.code : Statement → Code
  | .point p q => .line ("const char *" ++ p.name ++ " = " ++ q.name ++ ";")
  | .declare n value => .line (n.type ++ " " ++ n.name ++ " = " ++ value.text ++ ";")
  | .assign n value => .line (n.name ++ " = " ++ value.text ++ ";")
  | .increment n => .line ("++" ++ n.name ++ ";")
  | .advance p => .line ("++" ++ p.name ++ ";")
  | .move p n => .line (p.name ++ " += " ++ n.name ++ ";")
  | .onlyIf test body => .braces ("if (" ++ test.text ++ ")") body.code
  | .loopWhile test body => .braces ("while (" ++ test.text ++ ")") body.code
  | .loop body => .braces "for (;;)" body.code
  | .leave => .line "break;"
  | .report => .line "*presult = value;" ++ .line "return 0;"
  | .seq first second => first.code ++ second.code

/-! ## Values -/

/-- A place in a string, counted from its start. -/
structure Place where
  string : Bytes
  offset : Nat
  deriving DecidableEq, Repr

namespace Place

def read? (p : Place) (n : Nat) : Option UInt8 := (p.string ++ [0])[p.offset + n]?

def moved (p : Place) (n : Nat) : Place := { p with offset := p.offset + n }

/-- The place in a string with the given bytes before it and after it. -/
def between (front rest : Bytes) : Place := ⟨front ++ rest, front.length⟩

variable (front rest : Bytes)

theorem read?_between (n : Nat) : (between front rest).read? n = (rest ++ [0])[n]? := by
  rw [read?, between, List.append_assoc, List.getElem?_append_right (Nat.le_add_right ..),
    Nat.add_sub_cancel_left]

theorem read?_between_nil : (between front []).read? 0 = some 0 := read?_between front [] 0

theorem read?_between_cons (b : UInt8) : (between front (b :: rest)).read? 0 = some b :=
  read?_between front (b :: rest) 0

theorem moved_between (passed : Bytes) :
    (between front (passed ++ rest)).moved passed.length = between (front ++ passed) rest := by
  simp [between, moved]

theorem between_take_drop {bytes : Bytes} {n : Nat} (h : n ≤ bytes.length) :
    between (bytes.take n) (bytes.drop n) = ⟨bytes, n⟩ := by
  rw [between, List.take_append_drop, List.length_take_of_le h]

end Place

/-- The small letter of a capital, or else the number itself. A number that is none of a
byte has no answer. -/
def lower? (n : Nat) : Option Nat :=
  if n < 256 then some (if 65 ≤ n ∧ n ≤ 90 then n + 32 else n) else none

structure State where
  str : Place
  cursor : Place
  stored : Place
  ignoreCase : Nat
  ignorePrefixLen : Nat
  skip : Nat
  a : Nat
  b : Nat
  deriving DecidableEq, Repr

namespace State

def place (s : State) : Pointer → Place
  | .str => s.str
  | .cursor => s.cursor
  | .stored => s.stored

def setPlace (s : State) (value : Place) : Pointer → State
  | .str => { s with str := value }
  | .cursor => { s with cursor := value }
  | .stored => { s with stored := value }

def number (s : State) : Number → Nat
  | .ignoreCase => s.ignoreCase
  | .ignorePrefixLen => s.ignorePrefixLen
  | .skip => s.skip
  | .a => s.a
  | .b => s.b

def setNumber (s : State) (value : Nat) : Number → State
  | .ignoreCase => { s with ignoreCase := value }
  | .ignorePrefixLen => { s with ignorePrefixLen := value }
  | .skip => { s with skip := value }
  | .a => { s with a := value }
  | .b => { s with b := value }

end State

def Term.value? (s : State) : Term → Option Nat
  | .zero => some 0
  | .byte p => ((s.place p).read? 0).map UInt8.toNat
  | .lowered n => lower? (s.number n)

/-- The second of two tests is left out if the first one fails. -/
def Test.holds? (s : State) : Test → Option Bool
  | .isSet n => some (s.number n != 0)
  | .isNul n => some (s.number n == 0)
  | .differ m n => some (s.number m != s.number n)
  | .less m n => some (decide (s.number m < s.number n))
  | .hasByte p n => ((s.place p).read? (s.number n)).map (· != 0)
  | .both first second => do if ← first.holds? s then second.holds? s else some false

/-! ## Runs -/

/-- How a statement ends: before the next one, after the innermost loop, with a match, at
a read that there is no answer to, or at the limit of a loop. -/
inductive Outcome where
  | next (s : State)
  | left (s : State)
  | reported
  | fault
  | unfinished
  deriving DecidableEq, Repr

namespace Outcome

/-- There is nothing to go on with after a fault. -/
def ofValue {α : Type} (value? : Option α) (f : α → Outcome) : Outcome :=
  match value? with
  | none => .fault
  | some value => f value

def andThen (outcome : Outcome) (f : State → Outcome) : Outcome :=
  match outcome with
  | .next s => f s
  | _ => outcome

@[simp] theorem andThen_next (s : State) (f : State → Outcome) : (next s).andThen f = f s := rfl

@[simp] theorem andThen_left (s : State) (f : State → Outcome) :
    (left s).andThen f = .left s := rfl

@[simp] theorem andThen_reported (f : State → Outcome) : reported.andThen f = .reported := rfl

/-- What the body of a loop ends with, and then further rounds or what follows the loop. -/
def again (outcome : Outcome) (f : State → Outcome) : Outcome :=
  match outcome with
  | .next s => f s
  | .left s => .next s
  | _ => outcome

end Outcome

/-- A number of rounds at most, each of which begins with a test. -/
def rounds (test : State → Option Bool) (body : State → Outcome) : Nat → State → Outcome
  | 0, _ => .unfinished
  | limit + 1, s =>
    .ofValue (test s) fun holds =>
      if holds then (body s).again (rounds test body limit) else .next s

/-- Runs a statement in which every loop has the same limit. -/
def Statement.run (limit : Nat) : Statement → State → Outcome
  | .point p q, s => .next (s.setPlace (s.place q) p)
  | .declare n value, s | .assign n value, s =>
    .ofValue (value.value? s) fun v => .next (s.setNumber v n)
  | .increment n, s => .next (s.setNumber (s.number n + 1) n)
  | .advance p, s => .next (s.setPlace ((s.place p).moved 1) p)
  | .move p n, s => .next (s.setPlace ((s.place p).moved (s.number n)) p)
  | .onlyIf test body, s =>
    .ofValue (test.holds? s) fun holds => if holds then body.run limit s else .next s
  | .loopWhile test body, s => rounds test.holds? (body.run limit) limit s
  | .loop body, s => rounds (fun _ => some true) (body.run limit) limit s
  | .leave, s => .left s
  | .report, _ => .reported
  | .seq first second, s => (first.run limit s).andThen (second.run limit)

theorem rounds_succ (test : State → Option Bool) (body : State → Outcome) (limit : Nat)
    (s : State) :
    rounds test body (limit + 1) s =
      .ofValue (test s) fun holds =>
        if holds then (body s).again (rounds test body limit) else .next s := rfl

theorem run_append (limit : Nat) (first second : Statement) (s : State) :
    (first ++ second).run limit s = (first.run limit s).andThen (second.run limit) := rfl

end EnumCodegen.Comparison
