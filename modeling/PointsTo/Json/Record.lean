import PointsTo.Json.Scan

/-! Reading JSON of a known shape: texts, flags, lists, records and variants. A record is an object or an
array of its fields in order; keys that are not known are passed over, and fields may be left out if they
are not required. A variant is a name, or an object with that name as its only key. -/

namespace PointsTo.Json

variable {α σ : Type}

/-- The next byte after blanks, which must be there. -/
def peekToken : Scan UInt8 := do
  match ← peekToken? with
  | none => throw .truncated
  | some b => return b

def text : Scan String := do
  if (← peekToken) = byte '"' then
    drop
    stringTail
  else refuse

def flag : Scan Bool := do
  let b ← peekToken
  if b = byte 't' then
    drop
    trueTail
    return true
  else if b = byte 'f' then
    drop
    falseTail
    return false
  else refuse

def null : Scan Unit := do
  if (← peekToken) = byte 'n' then
    drop
    nullTail
  else refuse

def optional (value : Scan α) : Scan (Option α) := do
  if (← peekToken?) = some (byte 'n') then
    drop
    nullTail
    return none
  else return some (← value)

/-- Whether an array goes on, after the comma that is due; `first` says that no element was read yet. -/
def moreElements (first : Bool) : Scan Bool := do
  let b ← peekToken
  if b = byte ']' then return false
  if first then return true
  if b = byte ',' then
    drop
    if (← peekToken) = byte ']' then throw .malformed
    return true
  throw .malformed

def elements (value : Scan α) : Nat → List α → Scan (List α)
  | 0, _ => throw .truncated
  | fuel + 1, found => do
    if ← moreElements found.isEmpty then
      let a ← value
      elements value fuel (a :: found)
    else return found.reverse

def list (value : Scan α) : Scan (List α) := do
  if (← peekToken) = byte '[' then
    drop
    let found ← elements value (← readThe Nat) []
    drop
    return found
  else refuse

/-- A field of a record under construction. -/
structure Field (σ : Type) where
  name : String
  required : Bool
  read : σ → Scan σ

def Field.needed (name : String) (value : Scan α) (store : σ → α → σ) : Field σ :=
  ⟨name, true, fun s => return store s (← value)⟩

def Field.default (name : String) (value : Scan α) (store : σ → α → σ) : Field σ :=
  ⟨name, false, fun s => return store s (← value)⟩

/-- The fields of a record as an array. -/
def fieldsInOrder : Bool → List (Field σ) → σ → Scan σ
  | _, [], s => return s
  | first, f :: fs, s => do
    if ← moreElements first then
      let s ← f.read s
      fieldsInOrder false fs s
    else if f.required then throw .misfit
    else fieldsInOrder first fs s

/-- A key with its opening quote to come. -/
def key : Scan String := do
  if (← peekToken) = byte '"' then
    drop
    stringTail
  else throw .malformed

/-- The fields of a record as an object; `seen` names those read so far. -/
def fieldsByName (fields : List (Field σ)) : Nat → Bool → List String → σ → Scan σ
  | 0, _, _, _ => throw .truncated
  | fuel + 1, first, seen, s => do
    let b ← peekToken
    if b = byte '\x7d' then
      if fields.any fun f => f.required && !seen.contains f.name then throw .misfit
      return s
    if !first then
      if b = byte ',' then drop else throw .malformed
    let name ← key
    match fields.find? fun f => f.name == name with
    | some f =>
      if seen.contains name then throw .misfit
      punctuation (byte ':')
      let s ← f.read s
      fieldsByName fields fuel false (name :: seen) s
    | none =>
      punctuation (byte ':')
      skipValue
      fieldsByName fields fuel false seen s

def record (fields : List (Field σ)) (start : σ) : Scan σ := do
  let b ← peekToken
  if b = byte '[' then
    drop
    let s ← fieldsInOrder true fields start
    punctuation (byte ']')
    return s
  else if b = byte '\x7b' then
    drop
    let s ← fieldsByName fields (← readThe Nat) true [] start
    drop
    return s
  else refuse

/-- A variant. Each case has the value it stands for on its own, if it may stand so, and a reader for
what it holds as a key. -/
def variant (cases : List (String × Option α × Scan α)) : Scan α := do
  let b ← peekToken
  if b = byte '\x7b' then
    drop
    let name ← key
    match cases.find? fun c => c.1 == name with
    | none => throw .misfit
    | some (_, _, value) =>
      punctuation (byte ':')
      let a ← value
      punctuation (byte '\x7d')
      return a
  else if b = byte '"' then
    let name ← text
    match cases.find? fun c => c.1 == name with
    | some (_, some a, _) => return a
    | _ => throw .misfit
  else throw .malformed

/-- A variant whose cases hold nothing. -/
def enumeration (cases : List (String × α)) : Scan α :=
  variant (cases.map fun (name, a) => (name, some a, null *> pure a))

/-- Reads a whole text. -/
def readAll (value : Scan α) (bytes : List UInt8) : Except Fault α :=
  let reader : Scan α := do
    let a ← value
    if (← peekToken?).isSome then throw .malformed
    return a
  (reader.run (bytes.length + 1)).run' bytes

end PointsTo.Json
