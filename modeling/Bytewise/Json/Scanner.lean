/-
The tokens of a Json text.

A reader takes bytes off the front of what is left of the text and stops at
the first thing wrong, so what comes earlier in the text is reported
first. There are two ways over a token: reading it for its value, and
skipping it where its value is not wanted. Skipping checks less: a number
may be too large for a double, and a surrogate escape may stand alone.
-/
import Bytewise.Json.Value
import Bytewise.Text.Utf8

namespace Bytewise.Json

/-- Takes bytes off the front of a text. -/
abbrev Reader := StateT (List UInt8) (Except Fault)

namespace Reader

variable {α : Type}

-- ====================================================== single bytes

/-- Stops with `fault`. -/
def fail (fault : Fault) : Reader α :=
  fun _ => .error fault

/-- Space, tab, line feed and carriage return. -/
def isBlank (b : UInt8) : Bool :=
  b == 0x20 || b == 0x09 || b == 0x0a || b == 0x0d

/-- An ASCII digit. -/
def isDigit (b : UInt8) : Bool :=
  0x30 ≤ b && b ≤ 0x39

/-- The next byte after blanks, left in place. -/
def peek : Reader (Option UInt8) := fun rest =>
  let rest := rest.dropWhile isBlank
  .ok (rest.head?, rest)

/-- Drops one byte. -/
def drop : Reader Unit :=
  modify List.tail

/-- Takes the rest of a word whose first letter has been seen. -/
def word : List UInt8 → Reader Unit
  | [] => pure ()
  | b :: more => do
    match ← get with
    | [] => fail .truncated
    | c :: rest =>
      set rest
      if c == b then word more else fail .malformed

/-- `rue`, `alse` and `ull`, by the first letter of their words. -/
def wordAfter (first : UInt8) : List UInt8 :=
  if first == 0x74 then [0x72, 0x75, 0x65]
  else if first == 0x66 then [0x61, 0x6c, 0x73, 0x65]
  else [0x75, 0x6c, 0x6c]

-- ====================================================== strings

/-- The value of a hexadecimal digit. -/
def hexValue? (b : UInt8) : Option Nat :=
  if isDigit b then some (b.toNat - 0x30)
  else if 0x61 ≤ b && b ≤ 0x66 then some (b.toNat - 0x57)
  else if 0x41 ≤ b && b ≤ 0x46 then some (b.toNat - 0x37)
  else none

/-- Four hexadecimal digits. Fewer than four bytes are too few, whatever they
are. -/
def hexEscape : List UInt8 → Except Fault (Nat × List UInt8)
  | a :: b :: c :: d :: rest =>
    match hexValue? a, hexValue? b, hexValue? c, hexValue? d with
    | some a, some b, some c, some d =>
      .ok (((a * 16 + b) * 16 + c) * 16 + d, rest)
    | _, _, _, _ => .error .malformed
  | _ => .error .truncated

/-- The byte that a one-letter escape stands for. -/
def shortEscape? (b : UInt8) : Option UInt8 :=
  if b == 0x22 || b == 0x5c || b == 0x2f then some b
  else if b == 0x62 then some 0x08
  else if b == 0x66 then some 0x0c
  else if b == 0x6e then some 0x0a
  else if b == 0x72 then some 0x0d
  else if b == 0x74 then some 0x09
  else none

/-- The character of a `\u` escape: a leading surrogate needs a trailing one
after it. -/
def unicodeEscape (rest : List UInt8) : Except Fault (Char × List UInt8) := do
  let (n, rest) ← hexEscape rest
  if 0xdc00 ≤ n && n ≤ 0xdfff then .error .malformed
  else if n < 0xd800 || 0xdbff < n then .ok (Char.ofNat n, rest)
  else match rest with
    | [] => .error .truncated
    | 0x5c :: [] => .error .truncated
    | 0x5c :: 0x75 :: rest =>
      let (low, rest) ← hexEscape rest
      if 0xdc00 ≤ low && low ≤ 0xdfff then
        .ok
          (Char.ofNat (0x10000 + (n - 0xd800) * 0x400 + (low - 0xdc00)), rest)
      else .error .malformed
    | _ => .error .malformed

/-- The rest of a string after its opening quote, as UTF-8; `read` holds the
bytes so far, last first. -/
def stringFrom : (bound : Nat) → (read : List UInt8) → List UInt8 →
    Except Fault (List UInt8 × List UInt8)
  | 0, _, _ => .error .truncated
  | _ + 1, _, [] => .error .truncated
  | bound + 1, read, b :: rest =>
    if b == 0x22 then .ok (read.reverse, rest)
    else if b < 0x20 then .error .malformed
    else if b == 0x5c then
      match rest with
      | [] => .error .truncated
      | e :: rest =>
        if e == 0x75 then do
          let (c, rest) ← unicodeEscape rest
          stringFrom bound ((Text.utf8 (String.singleton c)).reverse ++ read)
            rest
        else match shortEscape? e with
          | some c => stringFrom bound (c :: read) rest
          | none => .error .malformed
    else stringFrom bound (b :: read) rest

/-- The rest of a string after its opening quote. -/
def stringRest : Reader String := fun rest => do
  let (bytes, rest) ← stringFrom (rest.length + 1) [] rest
  .ok (Text.ofUtf8Lossy bytes, rest)

/-- Skips the rest of a string after its opening quote. -/
def skipStringFrom : (bound : Nat) → List UInt8 → Except Fault (List UInt8)
  | 0, _ => .error .truncated
  | _ + 1, [] => .error .truncated
  | bound + 1, b :: rest =>
    if b == 0x22 then .ok rest
    else if b < 0x20 then .error .malformed
    else if b == 0x5c then
      match rest with
      | [] => .error .truncated
      | e :: rest =>
        if e == 0x75 then do
          let (_, rest) ← hexEscape rest
          skipStringFrom bound rest
        else match shortEscape? e with
          | some _ => skipStringFrom bound rest
          | none => .error .malformed
    else skipStringFrom bound rest

/-- Skips the rest of a string after its opening quote. -/
def skipString : Reader Unit := fun rest => do
  let rest ← skipStringFrom (rest.length + 1) rest
  .ok ((), rest)

-- ====================================================== numbers

/-- The greatest significand kept exactly. -/
def maxSignificand : Nat := 0xffffffffffffffff

/-- Takes the digits that fit behind `significand`, and counts them. -/
def absorb (significand count : Nat) : List UInt8 → Nat × Nat × List UInt8
  | [] => (significand, count, [])
  | d :: ds =>
    let next := significand * 10 + (d.toNat - 0x30)
    if maxSignificand < next then (significand, count, d :: ds) else absorb
      next (count + 1) ds

/-- Whether `significand · 10 ^ exponent` is too large for a double. -/
def overflows (significand : Nat) (exponent : Int) : Bool :=
  if exponent < 0 || significand == 0 then false
  else if 308 < exponent then true
  else
    (Float.ofNat significand * Float.ofScientific 1 false exponent.toNat).isInf

/-- The number that the digits make if there is no fault in their size. -/
def checkRange (significand : Nat) (exponent : Int) (rest : List UInt8) :
    Except Fault (List UInt8) :=
  if overflows significand exponent then .error .malformed else .ok rest

/-- The exponent part after its letter. -/
def exponentPart (significand : Nat) (exponent : Int) (rest : List UInt8) :
    Except Fault (List UInt8) :=
  let (negative, rest) := match rest with
    | 0x2b :: rest => (false, rest)
    | 0x2d :: rest => (true, rest)
    | rest => (false, rest)
  let (digits, after) := rest.span isDigit
  match digits with
  | [] => if rest.isEmpty then .error .truncated else .error .malformed
  | _ =>
    let n : Int := digits.foldl (fun n d => n * 10 + (d.toNat - 0x30)) 0
    checkRange significand (if negative then exponent - n else exponent + n)
      after

/-- What may follow the digits of a number that is no plain integer. -/
def fractionEnd (significand : Nat) (exponent : Int) :
    List UInt8 → Except Fault (List UInt8)
  | 0x65 :: rest => exponentPart significand exponent rest
  | 0x45 :: rest => exponentPart significand exponent rest
  | rest => checkRange significand exponent rest

/-- The fraction part after its point. -/
def fractionPart (significand : Nat) (exponent : Int) (rest : List UInt8) :
    Except Fault (List UInt8) :=
  let (digits, after) := rest.span isDigit
  match digits with
  | [] => if rest.isEmpty then .error .truncated else .error .malformed
  | _ =>
    let (significand, count, _) := absorb significand 0 digits
    fractionEnd significand (exponent - count) after

/-- The digits before the point: a zero stands alone. -/
def integerDigits : List UInt8 → Except Fault (List UInt8 × List UInt8)
  | [] => .error .truncated
  | b :: rest =>
    if b == 0x30 then
      match rest with
      | d :: _ => if isDigit d then .error .malformed else .ok ([b], rest)
      | [] => .ok ([b], rest)
    else if isDigit b then
      let (digits, rest) := rest.span isDigit
      .ok (b :: digits, rest)
    else .error .malformed

/-- A number after its sign: an integer that fits 64 bits, or any other. -/
def numberFrom (negative : Bool) (start : List UInt8) :
    Except Fault (Value × List UInt8) := do
  let (digits, rest) ← integerDigits start
  let (significand, _, dropped) := absorb 0 0 digits
  let exponent : Int := dropped.length
  let real := fun (after : List UInt8) =>
    let text := (start.take (start.length - after.length)).map
      Text.Utf8.asciiChar
    Except.ok
      (Value.real (String.ofList (if negative then '-' :: text else text)),
      after)
  match rest with
  | 0x2e :: rest => fractionPart significand exponent rest >>= real
  | 0x65 :: rest => exponentPart significand exponent rest >>= real
  | 0x45 :: rest => exponentPart significand exponent rest >>= real
  | rest =>
    if !dropped.isEmpty then checkRange significand exponent rest >>= real
    else if !negative then .ok (.int significand, rest)
    else if significand == 0 || 0x8000000000000000 < significand then real rest
    else .ok (.int (-significand), rest)

/-- A number that starts with the next byte. -/
def number : Reader Value := fun rest =>
  match rest with
  | 0x2d :: rest => numberFrom true rest
  | rest => numberFrom false rest

/-- Skips digits, of which there must be one. -/
def skipDigits (rest : List UInt8) : Except Fault (List UInt8) :=
  match rest.span isDigit with
  | ([], _) => .error .malformed
  | (_, rest) => .ok rest

/-- Skips an exponent part after its letter. -/
def skipExponent : List UInt8 → Except Fault (List UInt8)
  | 0x2b :: rest => skipDigits rest
  | 0x2d :: rest => skipDigits rest
  | rest => skipDigits rest

/-- Skips a number that starts with the next byte. -/
def skipNumber : Reader Unit := fun rest => do
  let rest := match rest with
    | 0x2d :: rest => rest
    | rest => rest
  let rest ← match integerDigits rest with
    | .ok (_, rest) => .ok rest
    | .error _ => .error Fault.malformed
  let rest ← match rest with
    | 0x2e :: rest => do
      match ← skipDigits rest with
      | 0x65 :: rest => skipExponent rest
      | 0x45 :: rest => skipExponent rest
      | rest => .ok rest
    | 0x65 :: rest => skipExponent rest
    | 0x45 :: rest => skipExponent rest
    | rest => .ok rest
  .ok ((), rest)

end Reader

end Bytewise.Json
