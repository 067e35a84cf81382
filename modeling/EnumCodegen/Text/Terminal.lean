import EnumCodegen.Text.Utf8.Basic

/-! Text that is safe on a terminal.
Characters that a terminal may act on are spelled out, or taken out together with the
control sequences that they start. -/

namespace EnumCodegen

/-- The control characters of ASCII that a terminal may act on: bell, backspace, form
feed, escape and delete. -/
def terminalControls : List Char := ['\x07', '\x08', '\x0c', '\x1b', '\x7f']

def isHighControl (c : Char) : Bool := 0x80 ≤ c.toNat && c.toNat ≤ 0x9f

def hexByte (n : Nat) : Text := [Nat.digitChar (n / 16), Nat.digitChar (n % 16)]

/-- A character as it is, or the spelling of one that a terminal may act on. -/
def spelled (c : Char) : Text :=
  if terminalControls.contains c then "\\x" ++ hexByte c.toNat
  else if isHighControl c then "\\u\x7b" ++ hexByte c.toNat ++ "\x7d"
  else [c]

def Text.spelledOut (text : Text) : Text := text.flatMap spelled

/-- Where a reader of control sequences stands: in plain text, after an escape character
and what may follow it, inside a control sequence, in the head of a device string, in a
string that the terminal keeps, or in a system command. -/
inductive TerminalState where
  | plain
  | escape
  | escapeIntermediate
  | sequence
  | deviceEntry
  | deviceParameter
  | deviceIntermediate
  | keptString
  | systemCommand
  deriving DecidableEq, Repr

namespace TerminalState

/-- The controls that move the cursor to a new line or along one. -/
def isLayout (c : Char) : Bool := ['\t', '\n', '\x0c', '\x0d'].contains c

def inRange (c : Char) (low high : Nat) : Bool := low ≤ c.toNat && c.toNat ≤ high

/-- The byte that ends a string in the eight-bit code. -/
def stringTerminator : UInt8 := 0x9c

def afterEscape (c : Char) : TerminalState :=
  if c = '[' then .sequence
  else if c = ']' then .systemCommand
  else if c = 'P' then .deviceEntry
  else if c = 'X' ∨ c = '^' ∨ c = '_' then .keptString
  else if inRange c 0x20 0x2f then .escapeIntermediate
  else if inRange c 0x30 0x7e then .plain
  else .escape

/-- The state after a character that is neither escape nor cancel. -/
def next (c : Char) : TerminalState → TerminalState
  | .plain => .plain
  | .escape => afterEscape c
  | .escapeIntermediate => if inRange c 0x30 0x7e then .plain else .escapeIntermediate
  | .sequence => if inRange c 0x40 0x7e then .plain else .sequence
  | .deviceEntry =>
    if inRange c 0x20 0x2f then .deviceIntermediate
    else if inRange c 0x30 0x3f then .deviceParameter
    else if inRange c 0x40 0x7e then .keptString
    else .deviceEntry
  | .deviceParameter =>
    if inRange c 0x20 0x2f then .deviceIntermediate
    else if inRange c 0x3c 0x7e then .keptString
    else .deviceParameter
  | .deviceIntermediate => if inRange c 0x30 0x7e then .keptString else .deviceIntermediate
  | .keptString => if (Utf8.encodeChar c).contains stringTerminator then .plain else .keptString
  | .systemCommand => if c = '\x07' then .plain else .systemCommand

/-- Whether layout controls act in the middle of what is being read. -/
def allowsLayout : TerminalState → Bool
  | .plain | .escape | .escapeIntermediate | .sequence => true
  | _ => false

/-- The text that remains: what is plain and visible, and layout controls. Escape starts
a new sequence wherever it stands, and the two cancelling controls end one. In the middle
of a sequence a layout control ends it or, if it `suspends`, makes plain what follows
until the next other control, from where the sequence goes on; a character above ASCII
ends a sequence that is `suspended`. -/
def remaining (suspends : Bool) (state : TerminalState) (suspended : Bool) : Text → Text
  | [] => []
  | c :: rest =>
    if c = '\x1b' then remaining suspends .escape false rest
    else if c = '\x18' ∨ c = '\x1a' then remaining suspends .plain false rest
    else if (state = .plain ∨ suspended) ∧ 0x20 ≤ c.toNat ∧ c ≠ '\x7f' then
      c :: remaining suspends (if c.toNat < 0x80 then state else .plain) suspended rest
    else if isLayout c ∧ (state.allowsLayout ∨ suspended) then
      c :: remaining suspends (if suspends then state else .plain) suspends rest
    else remaining suspends (state.next c) false rest

end TerminalState

/-- The text without control characters and control sequences, which layout controls
end. -/
def Text.withoutControls (text : Text) : Text := TerminalState.plain.remaining false false text

/-- The text without control characters and control sequences, which layout controls
suspend. -/
def Text.withoutSuspendedControls (text : Text) : Text :=
  TerminalState.plain.remaining true false text

end EnumCodegen
