/-
Readers of Json values of a wanted shape.

Each reader commits to its shape at the first byte of a value: a value of
another kind is refused there, before what it contains is looked at. A
repeated or unknown member is refused at its name, and a member that is
missing at the end of its object.

Arrays and objects may be nested to a fixed depth. `room` is the number of
levels left; the outermost value of a text has `fullRoom`.
-/
import Bytewise.Json.Scanner

namespace Bytewise.Json.Reader

variable {α σ : Type}

-- ====================================================== punctuation

/-- The room of the outermost value. -/
def fullRoom : Nat := 128

/-- Opens an array or an object, and answers the room inside. -/
def enter (room : Nat) : Reader Nat := do
  if room ≤ 1 then fail .malformed
  drop
  return room - 1

/-- Whether another element follows in an array. -/
def moreElements (first : Bool) : Reader Bool := do
  match ← peek with
  | none => fail .truncated
  | some b =>
    if b == 0x5d then return false
    else if first then return true
    else if b == 0x2c then
      drop
      match ← peek with
      | none => fail .truncated
      | some b => if b == 0x5d then fail .malformed else return true
    else fail .malformed

/-- Closes an array that has no further element. -/
def closeArray : Reader Unit := do
  match ← peek with
  | none => fail .truncated
  | some b => if b == 0x5d then drop else fail .malformed

/-- The name of the next member of an object, if there is one. -/
def nextName (first : Bool) : Reader (Option String) := do
  match ← peek with
  | none => fail .truncated
  | some b =>
    if b == 0x7d then return none
    else
      if !first then
        if b == 0x2c then drop else fail .malformed
      match ← peek with
      | none => fail .truncated
      | some b =>
        if b == 0x22 then
          drop
          some <$> stringRest
        else fail .malformed

/-- The colon between a name and its value. -/
def colon : Reader Unit := do
  match ← peek with
  | none => fail .truncated
  | some b => if b == 0x3a then drop else fail .malformed

/-- Closes an object that has no further member. -/
def closeObject : Reader Unit := do
  match ← peek with
  | none => fail .truncated
  | some b => if b == 0x7d then drop else fail .malformed

-- ====================================================== loops

/-- Folds over the members of an object, after its opening brace. -/
def foldMembers (member : String → σ → Reader σ) :
    (bound : Nat) → (first : Bool) → σ → Reader σ
  | 0, _, _ => fail .truncated
  | bound + 1, first, s => do
    match ← nextName first with
    | none => return s
    | some name => foldMembers member bound false (← member name s)

/-- Folds over the members of an object whose opening brace is the next
byte. -/
def members (room : Nat) (member : Nat → String → σ → Reader σ) (s : σ) :
    Reader σ := do
  let room ← enter room
  let bound := (← get).length + 1
  let s ← foldMembers (member room) bound true s
  closeObject
  return s

/-- The elements of an array, after its opening bracket. -/
def elementsFrom (element : Reader α) :
    (bound : Nat) → (first : Bool) → Reader (List α)
  | 0, _ => fail .truncated
  | bound + 1, first => do
    if ← moreElements first then
      let a ← element
      return a :: (← elementsFrom element bound false)
    else return []

/-- The elements of an array whose opening bracket is the next byte. -/
def elements (room : Nat) (element : Nat → Reader α) : Reader (List α) := do
  let room ← enter room
  let bound := (← get).length + 1
  let all ← elementsFrom (element room) bound true
  closeArray
  return all

-- ====================================================== values of any shape

/-- A value of any shape, nested less than `room` deep. -/
def value : (room : Nat) → Reader Value
  | 0 => fail .malformed
  | room + 1 => do
    match ← peek with
    | none => fail .truncated
    | some b =>
      if b == 0x6e then do drop; word (wordAfter b); return .null
      else if b == 0x74 then do drop; word (wordAfter b); return .bool true
      else if b == 0x66 then do drop; word (wordAfter b); return .bool false
      else if b == 0x2d || isDigit b then number
      else if b == 0x22 then do drop; return .string (← stringRest)
      else if b == 0x5b then
        return .array (← elements (room + 1) fun _ => value room)
      else if b == 0x7b then
        let all ← members (room + 1) (fun _ name s => do
          colon
          return (name, ← value room) :: s) []
        return .object all.reverse
      else fail .malformed

/-- Skips a value of any shape and depth. `frames` are the enclosing arrays
(false) and objects (true) opened so far, innermost first; `done` tells that a
value has just ended. -/
def skipFrom :
    (bound : Nat) → (done : Bool) → (frames : List Bool) → Reader Unit
  | 0, _, _ => fail .truncated
  | _ + 1, true, [] => return ()
  | bound + 1, true, isObject :: frames => do
    match ← peek with
    | none => fail .truncated
    | some b =>
      if b == 0x2c then
        drop
        if isObject then memberName
        skipFrom bound false (isObject :: frames)
      else if b == (if isObject then 0x7d else 0x5d) then
        drop
        skipFrom bound true frames
      else fail .malformed
  | bound + 1, false, frames => do
    match ← peek with
    | none => fail .truncated
    | some b =>
      if b == 0x6e || b == 0x74 || b == 0x66 then
        drop
        word (wordAfter b)
        skipFrom bound true frames
      else if b == 0x2d || isDigit b then
        skipNumber
        skipFrom bound true frames
      else if b == 0x22 then
        drop
        skipString
        skipFrom bound true frames
      else if b == 0x5b || b == 0x7b then
        drop
        let isObject := b == 0x7b
        match ← peek with
        | none => fail .truncated
        | some c =>
          if c == (if isObject then 0x7d else 0x5d) then
            drop
            skipFrom bound true frames
          else
            if isObject then memberName
            skipFrom bound false (isObject :: frames)
      else fail .malformed
where
  /-- Skips the name of a member and the colon after it. -/
  memberName : Reader Unit := do
    match ← peek with
    | none => fail .truncated
    | some b =>
      if b == 0x22 then
        drop
        skipString
        colon
      else fail .malformed

/-- Skips a value of any shape and depth. -/
def skip : Reader Unit := do
  skipFrom (2 * (← get).length + 2) false []

-- ====================================================== values of one shape

/-- Refuses the next value, which is not of the wanted kind. A scalar is read
first. -/
def refuse : Reader α := do
  match ← peek with
  | none => fail .truncated
  | some b =>
    if b == 0x6e || b == 0x74 || b == 0x66 then
      drop
      word (wordAfter b)
    else if b == 0x2d || isDigit b then
      let _ ← number
    else if b == 0x22 then
      drop
      let _ ← stringRest
    else if !(b == 0x5b || b == 0x7b) then fail .malformed
    fail .mismatch

/-- A string. -/
def string : Reader String := do
  if (← peek) == some 0x22 then
    drop
    stringRest
  else refuse

/-- An integer between `low` and `high`. -/
def int (low high : Int) : Reader Int := do
  match ← peek with
  | none => fail .truncated
  | some b =>
    if b == 0x2d || isDigit b then
      match ← number with
      | .int n => if low ≤ n && n ≤ high then return n else fail .mismatch
      | _ => fail .mismatch
    else refuse

/-- A value or null. -/
def nullable (read : Reader α) : Reader (Option α) := do
  if (← peek) == some 0x6e then
    drop
    word (wordAfter 0x6e)
    return none
  else some <$> read

/-- An array of values of one shape. -/
def array (element : Nat → Reader α) (room : Nat) : Reader (List α) := do
  if (← peek) == some 0x5b then elements room element else refuse

/-- An object, folded over its members. -/
def object (member : Nat → String → σ → Reader σ) (s : σ) (room : Nat) :
    Reader σ := do
  if (← peek) == some 0x7b then members room member s else refuse

/-- One of a list of names: the name as a string, or as the only member of an
object, with the value null. -/
def choice (ofName? : String → Option α) (room : Nat) : Reader α := do
  match ← peek with
  | none => fail .truncated
  | some b =>
    if b == 0x22 then
      named
    else if b == 0x7b then
      let _ ← enter room
      let a ← named
      colon
      if (← nullable refuse : Option Unit).isSome then fail .mismatch
      closeObject
      return a
    else fail .malformed
where
  /-- The name alone. -/
  named : Reader α := do
    match ofName? (← string) with
    | some a => return a
    | none => fail .mismatch

-- ====================================================== records

/-- A member that a record knows: its name and how its value is read into the
record. -/
structure Member (σ : Type) where
  name : String
  read : (room : Nat) → σ → Reader σ

/-- A record: an object of known members, or an array of their values in order.
Members not known are refused if `closed`, else skipped. -/
def record (closed : Bool) (fields : List (Member σ)) (start : σ)
    (room : Nat) : Reader σ := do
  if (← peek) == some 0x5b then
    let room ← enter room
    let s ← positional room true fields start
    closeArray
    return s
  else
    let (_, s) ← object member ([], start) room
    return s
where
  /-- Reads fields from the elements of an array, as far as there are any. -/
  positional (room : Nat) (first : Bool) : List (Member σ) → σ → Reader σ
    | [], s => return s
    | field :: fields, s => do
      if ← moreElements first then
        positional room false fields (← field.read room s)
      else return s
  /-- Reads one member; `seen` are the names of the known members read so
  far. -/
  member (room : Nat) (name : String) : List String × σ →
    Reader (List String × σ)
    | (seen, s) => do
      match fields.find? (·.name == name) with
      | some field =>
        if seen.contains name then fail .mismatch
        colon
        return (name :: seen, ← field.read room s)
      | none =>
        if closed then fail .mismatch
        colon
        skip
        return (seen, s)

/-- A value that a record must have. -/
def require : Option α → Reader α
  | some a => return a
  | none => fail .mismatch

-- ====================================================== whole texts

/-- Reads a whole text: nothing but blanks may follow the value. -/
def readText (read : (room : Nat) → Reader α) (text : String) :
    Except Fault α := do
  let (a, rest) ← read fullRoom (Text.utf8 text)
  if (rest.dropWhile isBlank).isEmpty then .ok a else .error .malformed

end Bytewise.Json.Reader
