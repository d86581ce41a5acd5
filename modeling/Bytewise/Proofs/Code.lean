/-
Which codes share a key.

A key is put together of free text, so the name of a field may look like
the constants that follow it. It is read from its end: a number has no
underscore, nor has a word that marks an option, so what follows the last
underscore is one of these, and equal keys can be shortened part by part.
-/
import Mathlib.Logic.Function.Basic
import Std.Data.String.ToNat
import Bytewise.Code

namespace Bytewise

/-- The letter that the keys of an operation begin with. -/
def CodeKind.initial : CodeKind → Char
  | external _ => 'e'
  | and .. => 'a'
  | isEqual .. => 'i'
  | load _ => 'l'
  | mulAdd .. => 'm'
  | or .. => 'o'
  | store _ => 's'
  | test .. => 't'
  | update .. => 'u'

namespace Code

/-- The codes are one function: callbacks of one name, or one operation with
one field and the same constants. -/
def Same (c d : Code) : Prop :=
  (c.kind.isExternal = true ∧ d.kind.isExternal = true ∧ c.name = d.name)
    ∨ (c.kind.isExternal = false ∧ d.kind.isExternal = false ∧ c.kind = d.kind)

-- ============================================================= numbers

/-- A number is written with digits, behind an `m` if it is negative. -/
theorem mem_numberKey {v : Int64} {ch : Char} (h : ch ∈ (numberKey v).toList) :
    ch = 'm' ∨ ch.isDigit = true := by
  have hdigits : ∀ n : Nat, ch ∈ (toString n).toList → ch.isDigit = true := by
    intro n hmem
    rw [show toString n = n.repr from rfl, Nat.toList_repr] at hmem
    exact Nat.isDigit_of_mem_toDigits (by decide) (by decide) hmem
  unfold numberKey at h
  dsimp only at h
  split at h
  · rw [String.toList_append, List.mem_append] at h
    rcases h with hsign | hrest
    · exact Or.inl (List.mem_singleton.mp hsign)
    · exact Or.inr (hdigits _ hrest)
  · exact Or.inr (hdigits _ h)

/-- There is no underscore in the key of a number. -/
theorem underscore_notMem_numberKey (v : Int64) :
    '_' ∉ (numberKey v).toList := by
  intro h
  rcases mem_numberKey h with heq | hdigit
  · exact absurd heq (by decide)
  · exact absurd hdigit (by decide)

/-- A number does not begin with `m` unless it is negative. -/
private theorem sign_notMem (n : Nat) : 'm' ∉ (toString n).toList := by
  intro h
  rw [show toString n = n.repr from rfl, Nat.toList_repr] at h
  exact absurd (Nat.isDigit_of_mem_toDigits (by decide) (by decide) h)
    (by decide)

theorem numberKey_injective : Function.Injective numberKey := by
  intro v w h
  have habs : ∀ m n : Nat, toString m = toString n → m = n :=
    fun _ _ => Nat.repr_injective
  have hsigned : ∀ m n : Nat, "m" ++ toString m ≠ toString n := fun m n heq =>
    sign_notMem n (heq ▸ by simp [String.toList_append])
  unfold numberKey at h
  dsimp only at h
  refine Int64.toInt_inj.mp ?_
  split at h <;> split at h
  · have := habs _ _ ((String.append_right_inj _).mp h)
    omega
  · exact absurd h (hsigned _ _)
  · exact absurd h.symm (hsigned _ _)
  · have := habs _ _ h
    omega

theorem numberKey_ne_true (v : Int64) : numberKey v ≠ "true" := by
  intro h
  have hmem : 't' ∈ (numberKey v).toList := by
    rw [h]
    decide
  rcases mem_numberKey hmem with heq | hdigit
  · exact absurd heq (by decide)
  · exact absurd hdigit (by decide)

-- ========================================================== last parts

/-- What follows the last underscore is read off the text. -/
theorem last_inj {a b s t : String} (hs : '_' ∉ s.toList) (ht : '_' ∉ t.toList)
    (h : a ++ "_" ++ s = b ++ "_" ++ t) : a = b ∧ s = t := by
  have hchars : a.toList ++ '_' :: s.toList = b.toList ++ '_' :: t.toList := by
    have := congrArg String.toList h
    simpa [String.toList_append] using this
  have hsplit : a.toList = b.toList ∧ s.toList = t.toList := by
    rcases List.append_eq_append_iff.mp hchars with ⟨mid, hb, hrest⟩
      | ⟨mid, ha, hrest⟩
    · cases mid with
      | nil => exact ⟨by simpa using hb.symm, by simpa using hrest⟩
      | cons ch mid =>
          obtain ⟨-, hrest⟩ := List.cons.inj hrest
          exact absurd (hrest ▸ List.mem_append_right _ List.mem_cons_self) hs
    · cases mid with
      | nil => exact ⟨by simpa using ha, by simpa using hrest.symm⟩
      | cons ch mid =>
          obtain ⟨-, hrest⟩ := List.cons.inj hrest
          exact absurd (hrest ▸ List.mem_append_right _ List.mem_cons_self) ht
  exact ⟨String.toList_inj.mp hsplit.1, String.toList_inj.mp hsplit.2⟩

/-- The key of an operation with one constant, behind its name. -/
private theorem constant_inj {op f g : String} {v w : Int64}
    (h : op ++ f ++ "_" ++ numberKey v = op ++ g ++ "_" ++ numberKey w) :
    f = g ∧ v = w := by
  obtain ⟨hfield, hnumber⟩ :=
    last_inj (underscore_notMem_numberKey v) (underscore_notMem_numberKey w) h
  exact ⟨(String.append_right_inj op).mp hfield, numberKey_injective hnumber⟩

/-- The key of a multiplication, but for its sign. -/
def limitedKey (field : String) (base : Int64) (max : Option Int64) : String :=
  "mul_add_" ++ field ++ "_base_" ++ numberKey base
    ++ (match max with
        | some max => "_max_" ++ numberKey max
        | none => "")

/-- A multiplication's key ends in the base, or in the limit if it has one. -/
private theorem limitedKey_none (field : String) (base : Int64) :
    limitedKey field base none = "mul_add_" ++ field ++ "_" ++ "base" ++ "_"
        ++ numberKey base := by
  simp only [limitedKey, String.append_empty, String.append_assoc]
  rfl

/-- A limit is written behind the rest. -/
private theorem limitedKey_some (field : String) (base max : Int64) :
    limitedKey field base (some max)
      = limitedKey field base none ++ "_" ++ "max" ++ "_" ++ numberKey
          max := by
  simp only [limitedKey, String.append_empty, String.append_assoc]
  rfl

/-- A key of limits ends in a number. -/
private theorem limitedKey_ends (field : String) (base : Int64)
    (max : Option Int64) :
    ∃ front v, limitedKey field base max = front ++ "_" ++ numberKey v := by
  cases max with
  | none => exact ⟨_, base, limitedKey_none field base⟩
  | some max => exact ⟨_, max, limitedKey_some field base max⟩

/-- The key of limits tells field, base and limit. -/
private theorem limitedKey_inj {f g : String} {base base' : Int64}
    {max max' : Option Int64}
    (h : limitedKey f base max = limitedKey g base' max') :
    f = g ∧ base = base' ∧ max = max' := by
  have hword : '_' ∉ "base".toList ∧ '_' ∉ "max".toList
    ∧ "base" ≠ "max" := by decide
  obtain ⟨hbase, hmax, hwords⟩ := hword
  have hlast {v w : Int64} {a b : String} :=
    @last_inj a b _ _ (underscore_notMem_numberKey v)
      (underscore_notMem_numberKey w)
  -- keys without a limit are read from the base on
  have hplain : ∀ {base base'}, limitedKey f base none
      = limitedKey g base' none →
      f = g ∧ base = base' := by
    intro base base' h
    rw [limitedKey_none, limitedKey_none] at h
    obtain ⟨hfront, hnumber⟩ := hlast h
    obtain ⟨hfield, -⟩ := last_inj hbase hbase hfront
    exact ⟨(String.append_right_inj _).mp hfield, numberKey_injective hnumber⟩
  cases max with
  | none =>
      cases max' with
      | none =>
          obtain ⟨hfield, hsame⟩ := hplain h
          exact ⟨hfield, hsame, rfl⟩
      | some max' =>
          rw [limitedKey_none, limitedKey_some] at h
          exact absurd (last_inj hbase hmax (hlast h).1).2 hwords
  | some max =>
      cases max' with
      | none =>
          rw [limitedKey_none, limitedKey_some] at h
          exact absurd (last_inj hmax hbase (hlast h).1).2 hwords.symm
      | some max' =>
          rw [limitedKey_some, limitedKey_some g] at h
          obtain ⟨hfront, hnumber⟩ := hlast h
          obtain ⟨hfield, hsame⟩ := hplain (last_inj hmax hmax hfront).1
          exact ⟨hfield, hsame, congrArg some (numberKey_injective hnumber)⟩

/-- The key of a multiplication. -/
private theorem key_mulAdd (name field : String) (options : MulAdd) :
    key ⟨name, .mulAdd field options⟩
      = limitedKey field options.base options.max
      ++ (if options.signed then "_signed_true" else "") :=
  rfl

/-- With the sign behind it, it tells all options. -/
private theorem mulAdd_inj {f g : String} {o p : MulAdd}
    (h : limitedKey f o.base o.max ++ (if o.signed then "_signed_true" else "")
      = limitedKey g p.base p.max
        ++ (if p.signed then "_signed_true" else "")) :
    f = g ∧ o = p := by
  obtain ⟨base, max, signed⟩ := o
  obtain ⟨base', max', signed'⟩ := p
  dsimp only at h
  have htrue : '_' ∉ "true".toList := by decide
  -- the key of one without a sign ends in a number, which is not `true`
  have hmixed :
      ∀ (f g : String) (base base' : Int64) (max max' : Option Int64),
      limitedKey f base max ++ "_signed_true" ≠ limitedKey g base' max'
          ++ "" := by
    intro f g base base' max max' h
    obtain ⟨front, v, hends⟩ := limitedKey_ends g base' max'
    rw [String.append_empty, hends, show "_signed_true" = "_signed" ++ "_"
      ++ "true" from rfl,
      ← String.append_assoc, ← String.append_assoc] at h
    exact numberKey_ne_true v
      (last_inj htrue (underscore_notMem_numberKey v) h).2.symm
  have hsame : limitedKey f base max = limitedKey g base' max'
      ∧ signed = signed' := by
    cases signed <;> cases signed'
    · exact ⟨(String.append_left_inj _).mp h, rfl⟩
    · exact absurd h.symm (hmixed _ _ _ _ _ _)
    · exact absurd h (hmixed _ _ _ _ _ _)
    · exact ⟨(String.append_left_inj _).mp h, rfl⟩
  obtain ⟨hkeys, rfl⟩ := hsame
  obtain ⟨rfl, rfl, rfl⟩ := limitedKey_inj hkeys
  exact ⟨rfl, rfl⟩

-- ================================================================ keys

/-- A key begins with the initial of its kind. -/
theorem head_key (code : Code) :
    code.key.toList.head? = some code.kind.initial := by
  obtain ⟨name, kind⟩ := code
  cases kind <;> simp [key, CodeKind.initial, String.toList_append]

/-- Codes of one key have kinds of one initial. -/
theorem initial_of_key {c d : Code} (h : c.key = d.key) :
    c.kind.initial = d.kind.initial := by
  have hhead := c.head_key
  rw [h, d.head_key] at hhead
  exact (Option.some.inj hhead).symm

/-- A code that is no operation is a callback. -/
theorem exists_external {kind : CodeKind} (h : kind.isExternal = true) :
    ∃ signature, kind = .external signature := by
  cases kind with
  | external signature => exact ⟨signature, rfl⟩
  | _ => cases h

/-- Operations of one key are one operation. -/
private theorem kind_of_key {c d : Code} (hc : c.kind.isExternal = false)
    (h : c.key = d.key) :
    c.kind = d.kind := by
  have hinitial := initial_of_key h
  obtain ⟨cname, ckind⟩ := c
  obtain ⟨dname, dkind⟩ := d
  -- operations that differ have keys that begin differently
  cases ckind <;> cases dkind
    <;> try (simp [CodeKind.initial] at hinitial; done)
  case external.external => cases hc
  case load.load =>
    exact congrArg CodeKind.load ((String.append_right_inj _).mp h)
  case store.store =>
    exact congrArg CodeKind.store ((String.append_right_inj _).mp h)
  case mulAdd.mulAdd =>
    rw [key_mulAdd, key_mulAdd] at h
    obtain ⟨rfl, rfl⟩ := mulAdd_inj h
    rfl
  all_goals
    obtain ⟨rfl, rfl⟩ := constant_inj h
    rfl

/-- Codes have one key if and only if they are one function. -/
theorem key_eq_iff {c d : Code} : c.key = d.key ↔ c.Same d := by
  constructor
  · intro h
    cases hc : c.kind.isExternal with
    | false =>
        have hkind := kind_of_key hc h
        exact Or.inr ⟨hc, hkind ▸ hc, hkind⟩
    | true =>
        cases hd : d.kind.isExternal with
        | false => exact absurd (kind_of_key hd h.symm ▸ hd) (by simp [hc])
        | true =>
            obtain ⟨s, hs⟩ := exists_external hc
            obtain ⟨t, ht⟩ := exists_external hd
            simp only [key, hs, ht] at h
            exact Or.inl ⟨hc, hd, (String.append_right_inj _).mp h⟩
  · rintro (⟨hc, hd, hname⟩ | ⟨hc, -, hkind⟩)
    · obtain ⟨s, hs⟩ := exists_external hc
      obtain ⟨t, ht⟩ := exists_external hd
      simp only [key, hs, ht, hname]
    · obtain ⟨cname, ckind⟩ := c
      obtain ⟨dname, dkind⟩ := d
      obtain rfl : ckind = dkind := hkind
      cases ckind with
      | external signature => cases hc
      | _ => rfl

end Code

end Bytewise
