import EnumCodegen.Text.Pattern.Basic

/-! Searching for a pattern from left to right.
A pattern is followed by an automaton in all ways at once, the preferred ones first, so a
search reads every character once. -/

namespace EnumCodegen.Pattern

/-- A state of an automaton, with the numbers of the states after it. A branch tries its
first state before its second one. -/
inductive State where
  | done
  | read (ranges : List (Nat × Nat)) (next : Nat)
  | pass (place : Place) (next : Nat)
  | branch (first second : Nat)
  deriving DecidableEq, Repr

namespace State

def after? (c : Char) : State → Option Nat
  | read ranges next => if inRanges ranges c then some next else none
  | _ => none

def choice (eager : Bool) (more rest : Nat) : State :=
  if eager then branch more rest else branch rest more

end State

/-- Adds the states of a text that goes on to a state, and gives the first of them. -/
def addWord (states : Array State) (next : Nat) : Text → Nat × Array State
  | [] => (next, states)
  | c :: text =>
    let (next, states) := addWord states next text
    (states.size, states.push (.read [(c.toNat, c.toNat)] next))

/-- Adds the states of a pattern that goes on to a state, and gives the first of them.
Repetitions go back to a branch that is added before what they repeat. One that may be
left out starts there too, unless a round can fit without a character: then it starts
with a branch of its own. -/
def addStates (states : Array State) (next : Nat) : Pattern → Nat × Array State
  | empty => (next, states)
  | word text => addWord states next text
  | one ranges => (states.size, states.push (.read ranges next))
  | atPlace place => (states.size, states.push (.pass place next))
  | sequence first second =>
    let (next, states) := addStates states next second
    addStates states next first
  | either first second =>
    let (first, states) := addStates states next first
    let (second, states) := addStates states next second
    (states.size, states.push (.branch first second))
  | optional inner eager =>
    let (more, states) := addStates states next inner
    (states.size, states.push (.choice eager more next))
  | several inner eager =>
    let back := states.size
    let (more, states) := addStates (states.push .done) back inner
    (more, states.setIfInBounds back (.choice eager more next))
  | many inner eager =>
    let back := states.size
    let (more, states) := addStates (states.push .done) back inner
    let states := states.setIfInBounds back (.choice eager more next)
    if inner.minimum?.any (0 < ·) then (back, states)
    else (states.size, states.push (.choice eager more next))
  | group _ inner => addStates states next inner

/-- States by number, and the one to start from. -/
structure Automaton where
  states : Array State
  start : Nat
  deriving DecidableEq, Repr

def automaton (p : Pattern) : Automaton :=
  let (start, states) := addStates #[.done] 0 p
  { states, start }

namespace Automaton

def isDone (a : Automaton) (i : Nat) : Bool := a.states[i]? = some .done

/-- Visits the states that are reached from one without a character, each once: puts them
in front of those seen so far, the latest first. No way is longer than there are states,
which bounds the `depth`. -/
def visit (a : Automaton) (isOpen : Place → Bool) : Nat → Nat → List Nat → List Nat
  | 0, _, seen => seen
  | depth + 1, i, seen =>
    if seen.contains i then seen
    else
      match a.states[i]? with
      | some (.branch first second) =>
        a.visit isOpen depth second (a.visit isOpen depth first (i :: seen))
      | some (.pass place next) =>
        if isOpen place then a.visit isOpen depth next (i :: seen) else i :: seen
      | _ => i :: seen

/-- The states that are reached from some states without a character, the preferred ones
first. -/
def reached (a : Automaton) (isOpen : Place → Bool) (starts : List Nat) : List Nat :=
  (starts.foldl (fun seen i => a.visit isOpen (a.states.size + 1) i seen) []).reverse

/-- Whether a match can be done between the bytes of a character above ASCII. -/
def isDoneInside (a : Automaton) (c : Char) : Bool :=
  0x80 ≤ c.toNat && (a.reached (Place.isOpen (some c) (some c)) [a.start]).any a.isDone

/-- Whether the match that a search finds ends where the text ends. `begun` are the states
of matches that have been begun, the preferred ones first, and `fresh` tells whether
another one may begin, which it may at every byte. One that is done ends those that are
less preferred. -/
def search (a : Automaton) (begun : List Nat) (fresh : Bool) (before : Option Char) :
    Text → Bool
  | [] =>
    let starts := begun ++ if fresh then [a.start] else []
    (a.reached (Place.isOpen before none) starts).any a.isDone
  | c :: text =>
    let starts := begun ++ if fresh then [a.start] else []
    let all := a.reached (Place.isOpen before (some c)) starts
    let preferred := all.takeWhile (!a.isDone ·)
    let fresh := fresh && preferred.length = all.length && !a.isDoneInside c
    a.search (preferred.filterMap fun i => a.states[i]?.bind (State.after? c)) fresh (some c) text

end Automaton

/-- Whether the first match of a pattern in a text is there and ends where the text ends. -/
def fitsEnd (p : Pattern) (text : Text) : Bool := p.automaton.search [] true none text

end EnumCodegen.Pattern
