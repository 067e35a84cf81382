import EnumCodegen.Text.Alphanumeric

/-! Sets of characters.
A set is spelled with ranges and the operations on sets, and every spelling of one set has
the same ranges. The named sets hold ASCII characters only. -/

namespace EnumCodegen

/-- A set of characters by their numbers. `differing` holds what is in exactly one of two
sets, and `anyCase` also what is in a set but for the case of an ASCII letter. -/
inductive CharSet where
  | nothing
  | range (low high : Nat)
  | union (s t : CharSet)
  | both (s t : CharSet)
  | without (s t : CharSet)
  | differing (s t : CharSet)
  | outside (s : CharSet)
  | anyCase (s : CharSet)
  deriving DecidableEq, Repr

namespace CharSet

def lowered (n : Nat) : Nat := if 0x41 ≤ n ∧ n ≤ 0x5a then n + 0x20 else n

def raised (n : Nat) : Nat := if 0x61 ≤ n ∧ n ≤ 0x7a then n - 0x20 else n

def has (n : Nat) : CharSet → Bool
  | nothing => false
  | range low high => low ≤ n && n ≤ high
  | union s t => s.has n || t.has n
  | both s t => s.has n && t.has n
  | without s t => s.has n && !t.has n
  | differing s t => s.has n != t.has n
  | outside s => !s.has n
  | anyCase s => s.has (lowered n) || s.has (raised n)

def contains (s : CharSet) (c : Char) : Bool := s.has c.toNat

def chars (low high : Char) : CharSet := range low.toNat high.toNat

def only (c : Char) : CharSet := chars c c

def unions (sets : List CharSet) : CharSet := sets.foldr union nothing

def ofRanges (ranges : List (Nat × Nat)) : CharSet :=
  unions (ranges.map fun (low, high) => range low high)

/-- The numbers where a range of a set may start. -/
def starts : CharSet → List Nat
  | nothing => [0]
  | range low high => [0, low, high + 1]
  | union s t | both s t | without s t | differing s t => s.starts ++ t.starts
  | outside s => s.starts
  | anyCase s =>
    let starts := 0x41 :: 0x5b :: 0x61 :: 0x7b :: s.starts
    starts ++ starts.map lowered ++ starts.map raised

def lastNumber : Nat := 0x10ffff

/-- Puts a range in front of others, as one with the first of them if it ends there. -/
def joined (r : Nat × Nat) : List (Nat × Nat) → List (Nat × Nat)
  | next :: rest => if r.2 + 1 = next.1 then (r.1, next.2) :: rest else r :: next :: rest
  | [] => [r]

/-- The ranges of a set in increasing order. Between two numbers where one may start all
characters are in the set, or none is. -/
def ranges (s : CharSet) : List (Nat × Nat) :=
  let starts := (s.starts.mergeSort.filter (· ≤ lastNumber)).eraseDups
  let pieces := starts.zip (starts.tail.map (· - 1) ++ [lastNumber])
  (pieces.filter fun piece => s.has piece.1).foldr joined []

/-- The same set, spelled by its ranges. -/
def normal (s : CharSet) : CharSet := ofRanges s.ranges

def digit : CharSet := chars '0' '9'

def upper : CharSet := chars 'A' 'Z'

def lower : CharSet := chars 'a' 'z'

def alpha : CharSet := union upper lower

def alnum : CharSet := union digit alpha

def word : CharSet := union alnum (only '_')

def space : CharSet := union (chars '\t' '\x0d') (only ' ')

/-- The names of sets inside of brackets. -/
def named : List (Text × CharSet) :=
  [("alnum", alnum), ("alpha", alpha), ("ascii", chars '\x00' '\x7f'),
   ("blank", union (only '\t') (only ' ')), ("cntrl", union (chars '\x00' '\x1f') (only '\x7f')),
   ("digit", digit), ("graph", chars '!' '~'), ("lower", lower), ("print", chars ' ' '~'),
   ("punct", unions [chars '!' '/', chars ':' '@', chars '[' '\x60', chars '\x7b' '~']),
   ("space", space), ("upper", upper), ("word", word),
   ("xdigit", unions [digit, chars 'A' 'F', chars 'a' 'f'])]

end CharSet

end EnumCodegen
