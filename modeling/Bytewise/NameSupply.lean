/-
Unique symbol names.

One supply serves one namespace of generated symbols. It hands out the
supply's stem followed by the sanitized name; a name already taken gets the
first free suffix of `_1`, `_2`, … Among `used.size + 1` different
candidates one is free, so the search is bounded by the names handed out
so far.
-/
import Std.Data.HashSet
import Bytewise.Text.Identifier

namespace Bytewise

/-- A source of unique names that all start with `stem`. -/
structure NameSupply where
  stem : String
  used : Std.HashSet String := ∅

namespace NameSupply

/-- The name `base` gets when its first `n` forms are taken. -/
def numbered (base : String) (n : Nat) : String :=
  if n = 0 then base else base ++ "_" ++ toString n

/-- The first free form of `base` among those from `start` on, over `bound`
candidates. The number of a form has no bound here; a counter of 32 bits, as
generators keep one, would run over once 2 ^ 32 forms of one base are taken. -/
def seek (used : Std.HashSet String) (base : String) :
    (bound start : Nat) → Option String
  | 0, _ => none
  | bound + 1, start =>
    if used.contains (numbered base start) then
      seek used base bound (start + 1)
    else some (numbered base start)

/-- What `name` is called before any suffix. -/
def base (supply : NameSupply) (name : String) : String :=
  supply.stem ++ Text.sanitize name

/-- A fresh name for `name`, and the supply that has it taken. -/
def alloc (supply : NameSupply) (name : String) : String × NameSupply :=
  let base := supply.base name
  let fresh := (seek supply.used base (supply.used.size + 1) 0).getD base
  (fresh, { supply with used := supply.used.insert fresh })

end NameSupply

end Bytewise
