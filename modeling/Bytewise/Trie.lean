/-
The trie of the keyed edges of one match node.

Entries sorted by key are split level by level. Keys with a common prefix
of two or more bytes give a sequence, which compares the whole prefix at
once; any other group branches on one byte. An entry whose key is used up
is a leaf, or the fallback of a branch if longer keys go on from there.

Every level takes at least one byte off every key that goes down, so the
number of bytes left is the measure.
-/
import Bytewise.Diagnostic
import Bytewise.Graph.Basic

namespace Bytewise

/-- A keyed edge as the trie sees it. -/
structure TrieEntry where
  key : List UInt8
  target : NodeId
  noAdvance : Bool := false
  value : Option Int64 := none
deriving DecidableEq, Repr, Inhabited

/-- Where a key leads, and what is passed along. -/
structure TrieLeaf where
  target : NodeId
  value : Option Int64
deriving DecidableEq, Repr, Inhabited

/-- The decision structure of a match node. -/
inductive Trie where
  /-- A key ends here. -/
  | leaf (leaf : TrieLeaf)
  /-- All keys go on with `literal`. -/
  | sequence (literal : List UInt8) (child : Trie)
  /-- Branches on one byte, ascending; `fallback` is the leaf of a key that
  ends here. A branch is a byte, whether it stays unread, and what comes
  below. -/
  | single (branches : List (UInt8 × Bool × Trie)) (fallback : Option TrieLeaf)
deriving Repr, Inhabited

namespace TrieEntry

/-- The leaf of an entry. -/
def leaf (entry : TrieEntry) : TrieLeaf :=
  ⟨entry.target, entry.value⟩

/-- The entry with `n` bytes taken off its key. -/
def dropKey (n : Nat) (entry : TrieEntry) : TrieEntry :=
  { entry with key := entry.key.drop n }

/-- Order by key, byte by byte; a prefix comes first. -/
def keyLE (a b : TrieEntry) : Bool :=
  decide (a.key ≤ b.key)

/-- Whether the key goes on with `b`. -/
def startsWith (b : UInt8) (entry : TrieEntry) : Bool :=
  entry.key.head? == some b

/-- The number of key bytes in a group. -/
def weight : List TrieEntry → Nat
  | [] => 0
  | entry :: entries => entry.key.length + weight entries

theorem weight_cons (entry : TrieEntry) (entries : List TrieEntry) :
    weight (entry :: entries) = entry.key.length + weight entries :=
  rfl

theorem weight_dropKey_le (n : Nat) (entries : List TrieEntry) :
    weight (entries.map (dropKey n)) ≤ weight entries := by
  induction entries with
  | nil => simp [weight]
  | cons entry entries ih =>
    simp only [List.map_cons, weight_cons, dropKey, List.length_drop]
    omega

/-- Taking bytes off a group makes it lighter if its first key has a byte. -/
theorem weight_dropKey_lt {n : Nat} (hn : 0 < n) (entry : TrieEntry)
    (entries : List TrieEntry) (hkey : 0 < entry.key.length) :
    weight ((entry :: entries).map (dropKey n))
        < weight (entry :: entries) := by
  have := weight_dropKey_le n entries
  simp only [List.map_cons, weight_cons, dropKey, List.length_drop]
  omega

theorem weight_takeWhile_le (p : TrieEntry → Bool) (entries : List TrieEntry) :
    weight (entries.takeWhile p) ≤ weight entries := by
  induction entries with
  | nil => simp
  | cons entry entries ih =>
    rw [List.takeWhile_cons]
    split
    · simp only [weight_cons]; omega
    · simp [weight]

theorem weight_dropWhile_le (p : TrieEntry → Bool) (entries : List TrieEntry) :
    weight (entries.dropWhile p) ≤ weight entries := by
  induction entries with
  | nil => simp
  | cons entry entries ih =>
    rw [List.dropWhile_cons]
    split
    · simp only [weight_cons]; omega
    · exact Nat.le_refl _

end TrieEntry

namespace Trie

open TrieEntry

/-- The length of the longest common prefix. -/
def commonLength : List UInt8 → List UInt8 → Nat
  | a :: as, b :: bs => if a == b then commonLength as bs + 1 else 0
  | _, _ => 0

theorem commonLength_le (as bs : List UInt8) :
    commonLength as bs ≤ as.length := by
  fun_induction commonLength as bs <;> simp_all

/-- The length of the prefix that all keys of a sorted group have in common:
that of its first and its last key. -/
def groupCommon (first : TrieEntry) (rest : List TrieEntry) : Nat :=
  commonLength first.key ((rest.getLast?.getD first).key)

/-- Whether some entries of a group consume what they match and others do
not. -/
def isMixed (first : TrieEntry) (rest : List TrieEntry) : Bool :=
  rest.any fun entry => entry.noAdvance != first.noAdvance

mutual

/-- The trie of a sorted group of entries for the node `name`. `path` holds the
bytes compared on the way down. -/
def level (name : String) (path : List (List UInt8)) : List TrieEntry →
    Except Cause Trie
  | [] => .ok (.single [] none)
  | first :: rest =>
    if first.key.isEmpty then
      match rest with
      | [] => .ok (.leaf first.leaf)
      | second :: more =>
        if path.isEmpty then .error (.emptyRootEntry name)
        else if second.key.isEmpty then .error (.duplicateEntry name path)
        else do
          return .single (← branches name path (second :: more))
            (some first.leaf)
    else
      let common := groupCommon first rest
      if _deep : 1 < groupCommon first rest then
        if first.noAdvance || rest.any (·.noAdvance) then
          .error (.peekMatchConflict name path)
        else do
          let literal := first.key.take common
          let child ← level name (path ++ [literal])
            ((first :: rest).map (dropKey common))
          return .sequence literal child
      else do
        return .single (← branches name path (first :: rest)) none
termination_by entries => (weight entries, 1)
decreasing_by
  · simp only [weight_cons, Prod.lex_def]
    omega
  · have := commonLength_le first.key ((rest.getLast?.getD first).key)
    exact Prod.Lex.left _ _ (weight_dropKey_lt (by omega) first rest (by
      unfold groupCommon at _deep
      omega))
  · exact Prod.Lex.right _ (by omega)

/-- The branches of a sorted group of entries with keys that go on, one for
each first byte. -/
def branches (name : String) (path : List (List UInt8)) :
    List TrieEntry → Except Cause (List (UInt8 × Bool × Trie))
  | [] => .ok []
  | first :: rest =>
    match _key : first.key with
    | [] => .ok []
    | b :: _ =>
      let group := rest.takeWhile (startsWith b)
      let others := rest.dropWhile (startsWith b)
      let path' := path ++ [[b]]
      if isMixed first group then .error (.peekMatchConflict name path')
      else do
        let child ← level name path' ((first :: group).map (dropKey 1))
        let more ← branches name path others
        return (b, first.noAdvance, child) :: more
termination_by entries => (weight entries, 0)
decreasing_by
  · have := weight_takeWhile_le (startsWith b) rest
    have := weight_dropKey_lt (n := 1)
      (by omega) first (rest.takeWhile (startsWith b))
      (by simp [_key])
    simp only [weight_cons] at this ⊢
    exact Prod.Lex.left _ _ (by omega)
  · have := weight_dropWhile_le (startsWith b) rest
    simp only [weight_cons, _key, List.length_cons]
    exact Prod.Lex.left _ _ (by omega)

end

/-- The trie of the keyed edges of the node `name`; none if there are none. -/
def build (name : String) (entries : List TrieEntry) :
    Except Cause (Option Trie) :=
  match entries with
  | [] => .ok none
  | entries => some <$> level name [] (entries.mergeSort keyLE)

end Trie

end Bytewise
