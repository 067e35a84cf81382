import EnumCodegen.Text.Basic

/-! Text as UTF-8 bytes.
Decoding reads back every encoded text; bytes that encode no character are told
apart from those that do, one longest truncated sequence at a time. -/

namespace EnumCodegen.Utf8

/-- The bytes of one character: one up to U+007F, two up to U+07FF, three up to
U+FFFF and four above. -/
def encodeChar (c : Char) : Bytes :=
  let v := c.toNat
  if v < 0x80 then [UInt8.ofNat v]
  else if v < 0x800 then [UInt8.ofNat (0xC0 + v / 0x40), UInt8.ofNat (0x80 + v % 0x40)]
  else if v < 0x10000 then
    [UInt8.ofNat (0xE0 + v / 0x1000), UInt8.ofNat (0x80 + v / 0x40 % 0x40),
     UInt8.ofNat (0x80 + v % 0x40)]
  else
    [UInt8.ofNat (0xF0 + v / 0x40000), UInt8.ofNat (0x80 + v / 0x1000 % 0x40),
     UInt8.ofNat (0x80 + v / 0x40 % 0x40), UInt8.ofNat (0x80 + v % 0x40)]

def encode (text : Text) : Bytes := text.flatMap encodeChar

@[simp] theorem encode_nil : encode [] = [] := rfl

@[simp] theorem encode_cons (c : Char) (text : Text) :
    encode (c :: text) = encodeChar c ++ encode text := by
  simp [encode]

@[simp] theorem encode_append (s t : Text) : encode (s ++ t) = encode s ++ encode t := by
  simp [encode]

/-- Where a decoder stands: between characters, or inside one of which `owed + 1`
bytes are missing, the next of them from `low` to `high`, with the bits read so far. -/
inductive State where
  | between
  | inside (owed low high bits : Nat)
  deriving DecidableEq, Repr

/-- What a first byte announces: a whole character, the rest of one, or nothing.
The narrow ranges after E0, ED, F0 and F4 leave out long forms, surrogates and
numbers that are no characters. -/
def start (b : Nat) : Option (Option Char) × State :=
  if b < 0x80 then (some (some (Char.ofNat b)), .between)
  else if b < 0xC2 then (some none, .between)
  else if b < 0xE0 then (none, .inside 0 0x80 0xBF (b - 0xC0))
  else if b = 0xE0 then (none, .inside 1 0xA0 0xBF 0)
  else if b = 0xED then (none, .inside 1 0x80 0x9F 0xD)
  else if b < 0xF0 then (none, .inside 1 0x80 0xBF (b - 0xE0))
  else if b = 0xF0 then (none, .inside 2 0x90 0xBF 0)
  else if b < 0xF4 then (none, .inside 2 0x80 0xBF (b - 0xF0))
  else if b = 0xF4 then (none, .inside 2 0x80 0x8F 4)
  else (some none, .between)

/-- Reads a first byte. `decoded` holds what has been read, latest first: a
character, or `none` for a sequence that encodes none. -/
def feedFirst (decoded : List (Option Char)) (byte : UInt8) : List (Option Char) × State :=
  ((start byte.toNat).1.toList ++ decoded, (start byte.toNat).2)

/-- Reads one byte. A byte that cannot continue a character ends it and is read
again as a first byte. -/
def feed (decoded : List (Option Char)) (state : State) (byte : UInt8) :
    List (Option Char) × State :=
  match state with
  | .between => feedFirst decoded byte
  | .inside owed low high bits =>
    if low ≤ byte.toNat ∧ byte.toNat ≤ high then
      match owed with
      | 0 => (some (Char.ofNat (bits * 0x40 + (byte.toNat - 0x80))) :: decoded, .between)
      | owed + 1 => (decoded, .inside owed 0x80 0xBF (bits * 0x40 + (byte.toNat - 0x80)))
    else feedFirst (none :: decoded) byte

/-- Reads bytes to their end, where a character that is not complete encodes none. -/
def feedAll : List (Option Char) → State → Bytes → List (Option Char)
  | decoded, .between, [] => decoded.reverse
  | decoded, .inside .., [] => (none :: decoded).reverse
  | decoded, state, b :: rest =>
    feedAll (feed decoded state b).1 (feed decoded state b).2 rest

/-- The characters of a byte sequence, and `none` for each part that encodes none. -/
def decodeParts (bytes : Bytes) : List (Option Char) := feedAll [] .between bytes

def decode? (bytes : Bytes) : Option Text :=
  let parts := decodeParts bytes
  if parts.all Option.isSome then some (parts.filterMap id) else none

/-- The text for display: U+FFFD stands for every part that encodes no character. -/
def decodeLossy (bytes : Bytes) : Text := (decodeParts bytes).map (·.getD '\uFFFD')

end EnumCodegen.Utf8
