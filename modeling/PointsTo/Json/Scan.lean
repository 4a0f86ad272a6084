import PointsTo.Binary64

/-! Reading JSON text in one pass over its bytes. The first problem met decides how reading fails: the
text ends too early, it is no JSON at that place, or it is JSON of another shape than the one sought.
Strings that are read must be valid text; strings that are passed over need only be closed. -/

namespace PointsTo.Json

inductive Fault where
  /-- The text ends too early. -/
  | truncated
  /-- The text is no JSON at this place. -/
  | malformed
  /-- There is JSON, but not what is sought. -/
  | misfit
  /-- The text could not be had at all. -/
  | unreadable
  deriving DecidableEq, Repr

def Fault.category : Fault → String
  | truncated => "eof"
  | malformed => "syntax"
  | misfit => "data"
  | unreadable => "io"

/-- A reader of what is left of a text. The number it is given exceeds the length of the whole text, and
no loop takes more steps. -/
abbrev Scan := ReaderT Nat (StateT (List UInt8) (Except Fault))

def byte (c : Char) : UInt8 := c.val.toUInt8

def isBlank (b : UInt8) : Bool := b == 32 || b == 9 || b == 10 || b == 13

def isDigit (b : UInt8) : Bool := byte '0' ≤ b && b ≤ byte '9'

def peek? : Scan (Option UInt8) := return (← get).head?

def next? : Scan (Option UInt8) := do
  let rest ← get
  set rest.tail
  return rest.head?

def drop : Scan Unit := modify List.tail

/-- The next byte after blanks, which stays. -/
def peekToken? : Scan (Option UInt8) := do
  modify (·.dropWhile isBlank)
  peek?

/-- Blanks and then the byte sought. -/
def punctuation (b : UInt8) : Scan Unit := do
  match ← peekToken? with
  | none => throw .truncated
  | some c => if c = b then drop else throw .malformed

/-- The rest of a word such as `null`. -/
def letters : List UInt8 → Scan Unit
  | [] => return
  | b :: bs => do
    match ← next? with
    | none => throw .truncated
    | some c => if c = b then letters bs else throw .malformed

def nullTail : Scan Unit := letters [byte 'u', byte 'l', byte 'l']

def trueTail : Scan Unit := letters [byte 'r', byte 'u', byte 'e']

def falseTail : Scan Unit := letters [byte 'a', byte 'l', byte 's', byte 'e']

/-! ### Strings -/

def hexDigit? (b : UInt8) : Option Nat :=
  if isDigit b then some (b.toNat - 48)
  else if 97 ≤ b && b ≤ 102 then some (b.toNat - 87)
  else if 65 ≤ b && b ≤ 70 then some (b.toNat - 55)
  else none

/-- The four digits after `\u`. -/
def hexEscape : Scan Nat := do
  let rest ← get
  let digits := rest.take 4
  set (rest.drop 4)
  if digits.length < 4 then throw .truncated
  match digits.mapM hexDigit? with
  | none => throw .malformed
  | some ds => return ds.foldl (fun n d => 16 * n + d) 0

def shortEscape? (b : UInt8) : Option UInt8 :=
  if b = byte '"' || b = byte '\\' || b = byte '/' then some b
  else if b = byte 'b' then some 8
  else if b = byte 'f' then some 12
  else if b = byte 'n' then some 10
  else if b = byte 'r' then some 13
  else if b = byte 't' then some 9
  else none

/-- The next byte must be there and be the one sought. -/
def require (b : UInt8) : Scan Unit := do
  match ← peek? with
  | none => throw .truncated
  | some c => if c = b then drop else throw .malformed

def isLeading (unit : Nat) : Bool := 0xD800 ≤ unit && unit ≤ 0xDBFF

def isTrailing (unit : Nat) : Bool := 0xDC00 ≤ unit && unit ≤ 0xDFFF

/-- The character after `\u`; a surrogate must come in a pair of escapes. -/
def unicodeEscape : Scan Char := do
  let unit ← hexEscape
  if isTrailing unit then throw .malformed
  if isLeading unit then
    require (byte '\\')
    require (byte 'u')
    let second ← hexEscape
    if isTrailing second then
      return Char.ofNat ((unit - 0xD800) * 0x400 + (second - 0xDC00) + 0x10000)
    else throw .malformed
  else return Char.ofNat unit

/-- What an escape after its backslash stands for. -/
def escape : Scan (List UInt8) := do
  match ← next? with
  | none => throw .truncated
  | some b =>
    if b = byte 'u' then return (String.singleton (← unicodeEscape)).toUTF8.toList
    else
      match shortEscape? b with
      | none => throw .malformed
      | some c => return [c]

/-- An escape in a string that is passed over. -/
def skipEscape : Scan (List UInt8) := do
  match ← next? with
  | none => throw .truncated
  | some b =>
    if b = byte 'u' then
      let _ ← hexEscape
      return []
    else if (shortEscape? b).isSome then return []
    else throw .malformed

/-- The bytes of a string up to its closing quote; `found` holds those met so far, last first. -/
def stringBytes (readEscape : Scan (List UInt8)) : Nat → List UInt8 → Scan (List UInt8)
  | 0, _ => throw .truncated
  | fuel + 1, found => do
    match ← next? with
    | none => throw .truncated
    | some b =>
      if b = byte '"' then return found.reverse
      else if b = byte '\\' then
        let bytes ← readEscape
        stringBytes readEscape fuel (bytes.reverse ++ found)
      else if b < 32 then throw .malformed
      else stringBytes readEscape fuel (b :: found)

/-- A string after its opening quote. -/
def stringTail : Scan String := do
  let bytes ← stringBytes escape (← readThe Nat) []
  match String.fromUTF8? ⟨bytes.toArray⟩ with
  | none => throw .malformed
  | some s => return s

def skipStringTail : Scan Unit := do
  let _ ← stringBytes skipEscape (← readThe Nat) []

/-! ### Numbers -/

def takeDigits : Scan (List UInt8) := do
  let rest ← get
  set (rest.dropWhile isDigit)
  return rest.takeWhile isDigit

def isExponentMark (b : UInt8) : Bool := b == byte 'e' || b == byte 'E'

/-- Whether the next byte is as wanted. -/
def nextIs (p : UInt8 → Bool) : Scan Bool := return (← peek?).any p

/-- An exponent after its mark: its sign and digits. What fails for want of a digit at the end of the
text is `atEnd`. -/
def exponentTail (atEnd : Fault) : Scan (Bool × List UInt8) := do
  let negative ← nextIs (· == byte '-')
  if negative || (← nextIs (· == byte '+')) then drop
  match ← next? with
  | none => throw atEnd
  | some b =>
    if isDigit b then return (negative, b :: (← takeDigits)) else throw .malformed

/-- The digits after a point. -/
def fractionTail (atEnd : Fault) : Scan (List UInt8) := do
  let digits ← takeDigits
  if digits.isEmpty then throw (if (← peek?).isNone then atEnd else .malformed)
  return digits

/-- The digits of a number before its point. -/
def integerPart (atEnd : Fault) : Scan (List UInt8) := do
  match ← next? with
  | none => throw atEnd
  | some b =>
    if b = byte '0' then
      if ← nextIs isDigit then throw .malformed
      return [b]
    else if isDigit b then return b :: (← takeDigits)
    else throw .malformed

/-- The parts of a number after its sign. -/
structure NumberParts where
  integer : List UInt8
  fraction : List UInt8
  exponentNegative : Bool
  exponent : List UInt8

def numberParts (atEnd : Fault) : Scan NumberParts := do
  let integer ← integerPart atEnd
  let mut fraction := []
  if ← nextIs (· == byte '.') then
    drop
    fraction ← fractionTail atEnd
  if ← nextIs isExponentMark then
    drop
    let (negative, exponent) ← exponentTail atEnd
    return ⟨integer, fraction, negative, exponent⟩
  return ⟨integer, fraction, false, []⟩

/-- A number that is passed over; a number cut off by the end of the text is malformed. -/
def skipNumber : Scan Unit := do
  let _ ← numberParts .malformed

def digitsValue (digits : List UInt8) : Nat := digits.foldl (fun n d => 10 * n + (d.toNat - 48)) 0

/-- Appends digits to a number while it fits into 64 bits, and counts the digits left over. -/
def significand : Nat → List UInt8 → Nat × Nat
  | n, [] => (n, 0)
  | n, d :: ds =>
    let longer := 10 * n + (d.toNat - 48)
    if longer < 1 <<< 64 then significand longer ds else (n, ds.length + 1)

/-- The greatest exponent that is counted exactly. -/
def exponentRange : Nat := 1 <<< 31

/-- Whether a number is too large for binary floating point. Its leading digits and the power of ten
they are scaled by are rounded each, and so is their product. -/
def NumberParts.overflows (n : NumberParts) : Bool :=
  let (whole, left) := significand 0 n.integer
  let (digits, cut) := significand whole n.fraction
  let places := n.fraction.length - cut
  let exponent := digitsValue n.exponent
  if digits = 0 then false
  else if exponentRange ≤ exponent then !n.exponentNegative
  else
    let up := left + if n.exponentNegative then 0 else exponent
    let down := places + if n.exponentNegative then exponent else 0
    if up ≤ down then false
    else if 308 < up - down then true
    else
      let value := (Ratio.toBinary64 ⟨digits, 1⟩).mul (Ratio.toBinary64 ⟨Nat.pow 10 (up - down), 1⟩)
      decide (Ratio.overflowBound * value.den ≤ value.num)

/-! ### Values of no interest -/

/-- What stands where something else is sought. A scalar must be well-formed to be refused as such. -/
def refuse {α : Type} : Scan α := do
  match ← peek? with
  | none => throw .malformed
  | some b =>
    if b = byte 'n' then drop; nullTail
    else if b = byte 't' then drop; trueTail
    else if b = byte 'f' then drop; falseTail
    else if b = byte '"' then drop; let _ ← stringTail
    else if b = byte '-' || isDigit b then
      if b = byte '-' then drop
      if (← numberParts .truncated).overflows then throw .malformed
    else if b = byte '[' || b = byte '\x7b' then throw .misfit
    else throw .malformed
    throw .misfit

/-- A bracket that is open. -/
inductive Bracket where
  | list
  | record
  deriving DecidableEq, Repr

def Bracket.closing : Bracket → UInt8
  | list => byte ']'
  | record => byte '\x7d'

/-- A key that is passed over, and its colon. -/
def skipKey : Scan Unit := do
  match ← peekToken? with
  | none => throw .truncated
  | some b => if b = byte '"' then drop else throw .malformed
  skipStringTail
  punctuation (byte ':')

/-- Goes from the end of a value to the start of the next one inside the open brackets, innermost
first. Without a next one the outermost value is complete. -/
def nextInside : List Bracket → Scan (Option (List Bracket))
  | [] => return none
  | bracket :: outer => do
    match ← peekToken? with
    | none => throw .truncated
    | some b =>
      if b = byte ',' then
        drop
        if bracket = .record then skipKey
        return some (bracket :: outer)
      else if b = bracket.closing then
        drop
        nextInside outer
      else throw .malformed

/-- Goes from an opening bracket to the first value inside, or past the closing bracket. -/
def enterBracket (bracket : Bracket) (outer : List Bracket) : Scan (Option (List Bracket)) := do
  match ← peekToken? with
  | none => throw .truncated
  | some b =>
    if b = bracket.closing then
      drop
      nextInside outer
    else
      if bracket = .record then skipKey
      return some (bracket :: outer)

/-- A scalar that is passed over. -/
def skipScalar (b : UInt8) : Scan Unit := do
  if b = byte 'n' then drop; nullTail
  else if b = byte 't' then drop; trueTail
  else if b = byte 'f' then drop; falseTail
  else if b = byte '"' then drop; skipStringTail
  else if b = byte '-' then drop; skipNumber
  else if isDigit b then skipNumber
  else throw .malformed

def skipValues : Nat → List Bracket → Scan Unit
  | 0, _ => throw .truncated
  | fuel + 1, outer => do
    match ← peekToken? with
    | none => throw .truncated
    | some b =>
      let inside ←
        if b = byte '[' then
          drop
          enterBracket .list outer
        else if b = byte '\x7b' then
          drop
          enterBracket .record outer
        else
          skipScalar b
          nextInside outer
      match inside with
      | none => return
      | some inside => skipValues fuel inside

/-- Passes over one value of any depth. -/
def skipValue : Scan Unit := do skipValues (← readThe Nat) []

end PointsTo.Json
