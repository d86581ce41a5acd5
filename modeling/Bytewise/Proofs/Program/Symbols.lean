/-
The symbols of a generated source.

Functions and the values of an enumeration share one name space, so all of
them are to differ: the functions of codes, the literal comparisons, the
three functions of the parser itself, the debug hook, and the labels of
states. The program's own names do. Those that start with the prefix of
the user's go on in ways that differ, and a label is none of them, however
the prefix is chosen: where a label overlaps the prefix, what comes behind
begins with a rotation of the stem of labels. What nothing checks is the
user's names: a callback, or the debug hook, may have any name.
-/
import Mathlib.Data.List.Rotate
import Bytewise.Proofs.Artifact
import Bytewise.Proofs.Matching
import Bytewise.Proofs.Parser.Names
import Bytewise.Proofs.Program.Resumption

namespace Bytewise

/-- If a word is moved over by a list, what the list goes on with begins with a
rotation of the word. -/
theorem exists_rotated_prefix {α : Type} {w p u v : List α}
    (h : w ++ (p ++ u) = p ++ v) :
    ∃ r, r ~r w ∧ r <+: v := by
  induction p generalizing w with
  | nil => exact ⟨w, .refl w, ⟨u, h⟩⟩
  | cons c p ih =>
      cases w with
      | nil => exact ⟨[], .refl _, List.nil_prefix⟩
      | cons d w =>
          obtain ⟨rfl, htail⟩ := List.cons.inj h
          obtain ⟨r, hrotated, hbegins⟩ :=
            ih (w := w ++ [d]) (by simpa using htail)
          have hturned : (w ++ [d]) ~r (d :: w) := List.isRotated_append
          exact ⟨r, hrotated.trans hturned, hbegins⟩

namespace Program

-- ============================================================= symbols

/-- The functions of intrinsics. -/
def intrinsicNames (program : Program) : List String :=
  (program.functions.filter (·.body.isSome)).map (·.name)

/-- The functions of the user's. -/
def callbackNames (program : Program) : List String :=
  (program.functions.filter (!·.body.isSome)).map (·.name)

/-- The functions that every parser has: one that makes a state ready, one that
a host calls with input, and one that runs. -/
def frameNames (program : Program) : List String :=
  ["_init", "_execute", "__run"].map (program.symbolPrefix ++ ·)

/-- The values of the enumeration of states. -/
def labels (program : Program) : List String :=
  errorLabel :: program.states.map fun made => program.stateLabel made.id

/-- All functions that the source declares or defines, and all values of its
enumeration. -/
def symbols (program : Program) : List String :=
  program.functions.map (·.name) ++ program.debugHook.toList
    ++ program.frameNames
    ++ program.matchers.map matcherName ++ program.labels

/-- The symbols that are not named by the user. -/
def ownSymbols (program : Program) : List String :=
  program.intrinsicNames ++ program.frameNames
    ++ program.matchers.map matcherName
    ++ program.labels

variable {parser : Parser} {program : Program} {symbolPrefix : String}
  {debugHook headerName : Option String} {name : String}

/-- The symbols are the program's own and those that the user has named. -/
theorem symbols_perm (program : Program) : program.symbols.Perm
    (program.ownSymbols
      ++ (program.callbackNames ++ program.debugHook.toList)) := by
  have hfunctions : (program.functions.map (·.name)).Perm
      (program.intrinsicNames ++ program.callbackNames) := by
    unfold intrinsicNames callbackNames
    rw [← List.map_append]
    exact (List.filter_append_perm _ _).symm.map _
  refine List.perm_iff_count.mpr fun name => ?_
  have hcount := hfunctions.count_eq name
  simp only [symbols, ownSymbols, List.count_append] at hcount ⊢
  omega

-- =========================================================== own names

/-- What the prefix goes on with in a symbol of the program's own. -/
def tails : List String :=
  ["_init", "_execute", "__run", "__c_"]

/-- A symbol with the prefix is no text that has none of the tails in it. -/
theorem ne_of_not_infix {text : String}
    (h : ∀ tail ∈ tails, ¬ tail.toList <:+: text.toList) {tail : String}
    (htail : tail ∈ tails) (rest : String) :
    text ≠ symbolPrefix ++ (tail ++ rest) := by
  intro heq
  refine h tail htail ⟨symbolPrefix.toList, rest.toList, ?_⟩
  rw [heq]
  simp only [String.toList_append, List.append_assoc]

/-- A symbol with the prefix is no label, whatever the prefix is. -/
theorem label_ne {name : String} {tail : String} (htail : tail ∈ tails)
    (rest : String) :
    "s_n_" ++ (symbolPrefix ++ "__n_" ++ name) ≠ symbolPrefix
        ++ (tail ++ rest) := by
  intro heq
  have hchars := congrArg String.toList heq
  simp only [String.toList_append, List.append_assoc] at hchars
  obtain ⟨r, hrotated, hgoes⟩ := exists_rotated_prefix hchars
  -- a rotation is no longer than a tail, so it begins the tail
  have hshort : ∀ tail ∈ tails, 4 ≤ tail.toList.length := by decide
  have hlen : r.length ≤ tail.toList.length :=
    hrotated.perm.length_eq.trans_le (hshort tail htail)
  have hbegins :=
    List.prefix_of_prefix_length_le hgoes (List.prefix_append _ _) hlen
  have hnone : ∀ r ∈ "s_n_".toList.cyclicPermutations, ∀ tail ∈ tails,
      ¬ r <+: tail.toList := by
    decide
  exact hnone r (List.mem_cyclicPermutations_iff.mpr hrotated) tail
    htail hbegins

/-- What the program's own symbols with the prefix look like. -/
theorem tail_of_mem_frameNames (h : name ∈ program.frameNames) :
    ∃ tail ∈ ["_init", "_execute", "__run"],
        name = program.symbolPrefix ++ tail := by
  obtain ⟨tail, htail, rfl⟩ := List.mem_map.mp h
  exact ⟨tail, htail, rfl⟩

/-- The functions around a run have names of their own. -/
theorem nodup_frameNames (program : Program) : program.frameNames.Nodup :=
  List.Nodup.map (fun _ _ h => (String.append_right_inj _).mp h) (by decide)

/-- Each transform has one comparison. -/
theorem nodup_matchers (h : Parts parser debugHook program) :
    (program.matchers.map matcherName).Nodup :=
  List.Nodup.sublist (h.matchers.map matcherName) (by decide)

/-- The comparisons begin as no label does, and have no tail in their names. -/
theorem matcherName_shape (transform : Transform) :
    (matcherName transform).toList.head? = some 'l'
      ∧ ∀ tail ∈ tails, ¬ tail.toList <:+: (matcherName transform).toList := by
  cases transform <;> decide

-- =========================================================== functions

/-- Functions are called after their codes, and those of intrinsics have
bodies. -/
theorem functionOf_fits {code : Code} {function : Function}
    (h : functionOf parser code = .ok function) :
    function.name = code.name
        ∧ function.body.isSome = !code.kind.isExternal := by
  unfold functionOf at h
  split at h
  · rename_i hexternal
    obtain rfl := Except.ok.inj h
    exact ⟨rfl, by simp [hexternal]⟩
  · rename_i hinternal
    obtain ⟨steps, -, hrest⟩ := ok_of_bind h
    obtain rfl := Except.ok.inj hrest
    exact ⟨rfl, by simpa using hinternal⟩

/-- The names of the functions with or without a body are those of codes of one
sort. -/
theorem names_of_functions (own : Bool) {ids : List CodeId}
    {functions : List Function}
    (h : List.Forall₂
      (fun id function => functionOf parser (parser.machine.code id)
      = .ok function) ids functions) :
    (functions.filter (·.body.isSome == own)).map (·.name)
      = (ids.filter fun id => (parser.machine.code id).kind.isExternal
          != own).map fun id =>
        (parser.machine.code id).name := by
  induction h with
  | nil => rfl
  | @cons id function ids functions hfunction _ ih =>
      obtain ⟨hname, hbody⟩ := functionOf_fits hfunction
      have hsame : (function.body.isSome == own)
          = ((parser.machine.code id).kind.isExternal != own) := by
        rw [hbody]
        cases (parser.machine.code id).kind.isExternal <;> cases own <;> rfl
      rw [List.filter_cons, List.filter_cons, hsame]
      split
      · rw [List.map_cons, List.map_cons, ih, hname]
      · exact ih

/-- The code of an intrinsic is one of the machine's: what is not there counts
as a callback. -/
theorem lt_of_internal {id : CodeId}
    (h : (parser.machine.code id).kind.isExternal = false) :
    id < parser.machine.codes.size := by
  refine Nat.lt_of_not_le fun hge => ?_
  have hdefault : parser.machine.code id = default := by
    simp [Machine.code, Array.getD, Nat.not_lt.mpr hge]
  rw [hdefault] at h
  cases h

/-- Every code that is called has a function of its name, and no other has
one. -/
theorem functionNames_eq (h : Parts parser debugHook program) :
    program.functions.map (·.name)
      = (emittedCodes parser).map fun id => (parser.machine.code id).name :=
  (map_of_forall₂ h.functions fun _ _ hfunction =>
    (functionOf_fits hfunction).1.symm).symm

/-- The functions of intrinsics are named as their codes. -/
theorem intrinsicNames_eq (h : Parts parser debugHook program) :
    program.intrinsicNames
      = ((emittedCodes parser).filter fun id =>
          !(parser.machine.code id).kind.isExternal).map
        fun id => (parser.machine.code id).name := by
  simpa [intrinsicNames] using names_of_functions true h.functions

/-- Callbacks are named as their codes. -/
theorem callbackNames_eq (h : Parts parser debugHook program) :
    program.callbackNames
      = ((emittedCodes parser).filter fun id =>
          (parser.machine.code id).kind.isExternal).map
        fun id => (parser.machine.code id).name := by
  simpa [callbackNames] using names_of_functions false h.functions

/-- The name of an intrinsic is that of a code that is not external. -/
theorem mem_intrinsicNames (h : Parts parser debugHook program)
    (hname : name ∈ program.intrinsicNames) : ∃ id,
      (parser.machine.code id).kind.isExternal = false
      ∧ (parser.machine.code id).name = name := by
  rw [intrinsicNames_eq h] at hname
  obtain ⟨id, hid, rfl⟩ := List.mem_map.mp hname
  obtain ⟨-, hinternal⟩ := List.mem_filter.mp hid
  exact ⟨id, by simpa using hinternal, rfl⟩

/-- Intrinsics have names of their own. -/
theorem nodup_intrinsicNames (h : Parts parser debugHook program)
    (hnamed : parser.machine.Named symbolPrefix) :
    program.intrinsicNames.Nodup := by
  rw [intrinsicNames_eq h]
  refine List.Nodup.map_on (fun c hc d hd heq => ?_)
    ((nodup_eraseDups _).filter _)
  have hcin : (parser.machine.code c).kind.isExternal = false := by
    simpa using (List.mem_filter.mp hc).2
  have hdin : (parser.machine.code d).kind.isExternal = false := by
    simpa using (List.mem_filter.mp hd).2
  exact hnamed.distinct c d (lt_of_internal hcin)
    (lt_of_internal hdin) hcin hdin heq

/-- All functions are those of codes of the machine. -/
theorem lt_of_emitted {bp : Blueprint} {root : NodeId}
    {entry : NodeId → Option StateId} {l : Layout}
    (himage : parser.Image bp root entry l) (hwell : parser.WellFormed)
    {id : CodeId} (hid : id ∈ emittedCodes parser) :
    id < parser.machine.codes.size := by
  rw [← himage.machine]
  rcases List.mem_append.mp (List.mem_eraseDups.mp hid) with hslot | hmentioned
  · obtain ⟨slot, hslot, hid⟩ := List.mem_flatten.mp hslot
    obtain ⟨spans, -, hused⟩ := exists_of_mem_right himage.slots hslot
    obtain ⟨_, -, hcode⟩ := hused.used id hid
    exact hcode.1
  · obtain ⟨s, hs, hid⟩ := List.mem_flatMap.mp hmentioned
    have hlt := (hwell.states s (hwell.mem_emissionOrder.mp hs)).inside
    obtain ⟨role, hrole, -, hrealizes⟩ := himage.role_of_lt hlt
    unfold mentionedCodes at hid
    cases hkind : (parser.machine.state s).kind with
    | invoke callee =>
        rw [hkind] at hid
        obtain ⟨_, -, hcode⟩ := himage.invoked hrole hkind
        rw [List.mem_singleton.mp hid]
        exact hcode.1
    | spanStart slot callback =>
        rw [hkind] at hid
        dsimp only at hid
        split at hid
        · obtain ⟨_, -, -, hcode⟩ := hrealizes.spanStart hkind
          rw [List.mem_singleton.mp hid]
          exact hcode.1
        · cases hid
    | spanEnd slot callback =>
        rw [hkind] at hid
        obtain ⟨_, -, -, hcode, -⟩ := hrealizes.spanEnd hkind
        rw [List.mem_singleton.mp hid]
        exact hcode.1
    | _ =>
        rw [hkind] at hid
        cases hid

/-- A callback is one function: codes of one name have one key. -/
theorem nodup_callbackNames {bp : Blueprint} {root : NodeId}
    {entry : NodeId → Option StateId} {l : Layout}
    (h : Parts parser debugHook program)
    (himage : parser.Image bp root entry l) (hwell : parser.WellFormed) :
    program.callbackNames.Nodup := by
  rw [callbackNames_eq h]
  refine List.Nodup.map_on (fun c hc d hd heq => ?_)
    ((nodup_eraseDups _).filter _)
  obtain ⟨hc, hcex⟩ := List.mem_filter.mp hc
  obtain ⟨hd, hdex⟩ := List.mem_filter.mp hd
  refine himage.distinct c d (lt_of_emitted himage hwell hc)
    (lt_of_emitted himage hwell hd) ?_
  have hkey : ∀ code : Code, code.kind.isExternal = true →
      code.key = "external_" ++ code.name := by
    rintro ⟨name, kind⟩ hexternal
    cases kind with
    | external signature => rfl
    | _ => cases hexternal
  rw [hkey _ hcex, hkey _ hdex, heq]

-- ============================================================== labels

/-- A label of a state has the prefix within it. -/
theorem mem_labels (hnamed : parser.machine.Named symbolPrefix)
    (hwell : parser.WellFormed)
    (hok : ofParser parser debugHook headerName = .ok program)
    (hname : name ∈ program.labels) :
    name = errorLabel
        ∨ ∃ rest, name = "s_n_" ++ (symbolPrefix ++ "__n_" ++ rest) := by
  rcases List.mem_cons.mp hname with rfl | hstate
  · exact Or.inl rfl
  · obtain ⟨made, hmade, rfl⟩ := List.mem_map.mp hstate
    have hid : made.id ∈ emissionOrder parser :=
      ids_of_ofParser hok ▸ List.mem_map_of_mem hmade
    have hinside := (hwell.states _ (hwell.mem_emissionOrder.mp hid)).inside
    obtain ⟨rest, hrest⟩ := hnamed.states _ hinside
    refine Or.inr ⟨rest, ?_⟩
    unfold stateLabel
    rw [stateName_eq hok hinside, hrest]

/-- No label is that of the error state. -/
theorem nodup_allLabels (hwell : parser.WellFormed)
    (hok : ofParser parser debugHook headerName = .ok program) :
    program.labels.Nodup := by
  refine List.nodup_cons.mpr ⟨fun hmem => ?_, nodup_labels hwell hok⟩
  obtain ⟨made, -, heq⟩ := List.mem_map.mp hmem
  have hchars := congrArg String.toList heq
  simp [stateLabel, errorLabel] at hchars

/-- The error state is called as no symbol with the prefix is. -/
theorem errorLabel_shape :
    ∀ tail ∈ tails, ¬ tail.toList <:+: errorLabel.toList := by
  decide

-- ========================================================= all symbols

/-- The program's own symbols differ, whatever the prefix is. -/
theorem nodup_ownSymbols (h : Parts parser debugHook program)
    (hnamed : parser.machine.Named symbolPrefix)
    (hsymbol : parser.symbolPrefix = symbolPrefix) (hwell : parser.WellFormed)
    (hok : ofParser parser debugHook headerName = .ok program) :
    program.ownSymbols.Nodup := by
  have hprefixed : ∀ name ∈ program.intrinsicNames ++ program.frameNames,
      ∃ tail ∈ tails, ∃ rest, name = symbolPrefix ++ (tail ++ rest) := by
    intro name hmem
    rcases List.mem_append.mp hmem with hintrinsic | hframe
    · obtain ⟨id, hinternal, rfl⟩ := mem_intrinsicNames h hintrinsic
      obtain ⟨rest, hrest⟩ :=
        hnamed.codes id (lt_of_internal hinternal) hinternal
      exact ⟨"__c_", by decide, rest, by rw [hrest, String.append_assoc]⟩
    · obtain ⟨tail, htail, rfl⟩ := tail_of_mem_frameNames hframe
      have hsub : ∀ tail ∈ ["_init", "_execute", "__run"],
        tail ∈ tails := by decide
      exact ⟨tail, hsub tail htail, "", by
        rw [h.symbols, hsymbol, String.append_empty]⟩
  unfold ownSymbols
  refine List.nodup_append'.mpr ⟨List.nodup_append'.mpr ⟨List.nodup_append'.mpr
    ⟨nodup_intrinsicNames h hnamed, nodup_frameNames program, ?_⟩,
      nodup_matchers h, ?_⟩,
    nodup_allLabels hwell hok, ?_⟩
  · -- behind the prefix, an intrinsic goes on as no other function does
    intro name hintrinsic hframe
    obtain ⟨id, hinternal, rfl⟩ := mem_intrinsicNames h hintrinsic
    obtain ⟨rest, hrest⟩ :=
      hnamed.codes id (lt_of_internal hinternal) hinternal
    obtain ⟨tail, htail, heq⟩ := tail_of_mem_frameNames hframe
    rw [hrest, h.symbols, hsymbol, String.append_assoc] at heq
    have htails : ∀ tail ∈ ["_init", "_execute", "__run"],
        ¬ "__c_".toList <+: tail.toList := by decide
    refine htails tail htail ?_
    rw [← (String.append_right_inj _).mp heq, String.toList_append]
    exact List.prefix_append _ _
  · intro name hmem hmatcher
    obtain ⟨transform, -, rfl⟩ := List.mem_map.mp hmatcher
    obtain ⟨tail, htail, rest, heq⟩ := hprefixed _ hmem
    exact ne_of_not_infix (matcherName_shape transform).2 htail rest heq
  · intro name hmem hlabel
    rcases List.mem_append.mp hmem with hmem | hmatcher
    · obtain ⟨tail, htail, rest, heq⟩ := hprefixed _ hmem
      rcases mem_labels hnamed hwell hok hlabel with hname | ⟨state, hname⟩
      · exact ne_of_not_infix errorLabel_shape htail rest
          (hname.symm.trans heq)
      · exact label_ne htail rest (hname.symm.trans heq)
    · obtain ⟨transform, -, rfl⟩ := List.mem_map.mp hmatcher
      have hhead := (matcherName_shape transform).1
      rcases mem_labels hnamed hwell hok hlabel with hname | ⟨state, hname⟩
      · rw [hname] at hhead
        cases hhead
      · rw [hname, String.toList_append] at hhead
        cases hhead

/-- The symbols of the program of a parser. -/
theorem symbols_eq (h : Parts parser debugHook program) : program.symbols
    = ((emittedCodes parser).map fun id => (parser.machine.code id).name)
      ++ debugHook.toList
      ++ ["_init", "_execute", "__run"].map (parser.symbolPrefix ++ ·)
      ++ program.matchers.map matcherName ++ program.labels := by
  unfold symbols frameNames
  rw [functionNames_eq h, h.hook, h.symbols]

/-- Nothing of the user's is called as anything else is. -/
structure UserNamesApart (program : Program) : Prop where
  callbacks : ∀ name ∈ program.callbackNames, name ∉ program.ownSymbols
  hook : ∀ hook ∈ program.debugHook, hook ∉ program.ownSymbols
    ∧ hook ∉ program.callbackNames

/-- All symbols differ if the program's own do, and those of the user's are no
others. -/
theorem nodup_symbols_iff (hown : program.ownSymbols.Nodup)
    (hcallbacks : program.callbackNames.Nodup) :
    program.symbols.Nodup ↔ program.UserNamesApart := by
  rw [program.symbols_perm.nodup_iff, List.nodup_append', List.nodup_append']
  constructor
  · rintro ⟨-, ⟨-, -, hhook⟩, huser⟩
    refine ⟨fun name hcallback hmem =>
      huser hmem (List.mem_append_left _ hcallback),
      fun hook hset => ⟨fun hmem => ?_, fun hmem => ?_⟩⟩
    · exact huser hmem (List.mem_append_right _ (Option.mem_toList.mpr hset))
    · exact hhook hmem (Option.mem_toList.mpr hset)
  · rintro ⟨hapart, hhook⟩
    refine ⟨hown,
      ⟨hcallbacks, Option.toList_nodup _, fun name hmem hset => ?_⟩,
      fun name hmem huser => ?_⟩
    · exact (hhook name (Option.mem_toList.mp hset)).2 hmem
    · rcases List.mem_append.mp huser with hcallback | hset
      · exact hapart name hcallback hmem
      · exact (hhook name (Option.mem_toList.mp hset)).1 hmem

-- =============================================================== lines

/-- What the line of a function begins with. -/
def declaringTypes : List String :=
  ["int ", "void ", "static llparse_match_t ", "static llparse_state_t "]

/-- The line declares or defines the name, as a function or as a value of the
enumeration. -/
def DeclaredBy (name line : String) : Prop :=
  line = "  " ++ name ++ ","
    ∨ ∃ type ∈ declaringTypes, ∃ rest, line = type ++ name ++ "(" ++ rest

/-- The first line of a function is that of its name. -/
theorem declared_of_function (program : Program) (function : Function) :
    ∃ line ∈ program.functionLines function,
        DeclaredBy function.name line := by
  refine ⟨"int " ++ function.name ++ "(", ?_,
    Or.inr ⟨"int ", by simp [declaringTypes], "", by simp⟩⟩
  unfold functionLines
  split <;> exact List.mem_append_left _ List.mem_cons_self

/-- The enumeration declares every label. -/
theorem declared_of_mem_labels (h : name ∈ program.labels) :
    ∃ line ∈ program.stateEnumLines, DeclaredBy name line := by
  refine ⟨"  " ++ name ++ ",", List.mem_append_left _ ?_, Or.inl rfl⟩
  rcases List.mem_cons.mp h with rfl | hstate
  · exact List.mem_append_left _ (by simp)
  · obtain ⟨state, hmem, rfl⟩ := List.mem_map.mp hstate
    exact List.mem_append_right _ (List.mem_map.mpr ⟨state, hmem, rfl⟩)

/-- The function of a comparison is declared where it is defined. -/
theorem declared_of_matcher {transform : Transform}
    (h : transform ∈ program.matchers) :
    ∃ line ∈ program.matchersLines,
        DeclaredBy (matcherName transform) line := by
  have hsome : program.matchers.isEmpty = false :=
    Bool.eq_false_iff.mpr fun hnone =>
      (List.not_mem_nil (List.isEmpty_iff.mp hnone ▸ h))
  refine ⟨"static llparse_match_t " ++ matcherName transform ++ "(", ?_,
    Or.inr ⟨"static llparse_match_t ", by simp [declaringTypes], "", by simp⟩⟩
  unfold matchersLines
  rw [hsome, if_neg Bool.false_ne_true]
  exact List.mem_append_right _
    (List.mem_flatMap.mpr ⟨transform, h, List.mem_cons_self⟩)

theorem declared_of_debugHook (h : program.debugHook = some name) :
    ∃ line ∈ program.debugHookLines, DeclaredBy name line := by
  unfold debugHookLines
  rw [h]
  exact ⟨_, List.mem_cons_self,
    Or.inr ⟨"void ", by simp [declaringTypes], program.type
    ++ "* s, const char* p, const char* endp, const char* msg);", by
      simp only [String.append_assoc]⟩⟩

/-- The functions around a run are declared where they are defined. -/
theorem declared_of_mem_frameNames (h : name ∈ program.frameNames) :
    ∃ line ∈ program.initLines ++ (program.runLines ++ program.executeLines),
      DeclaredBy name line := by
  have hline : ∀ (type tail rest : String), type ∈ declaringTypes →
      DeclaredBy (program.symbolPrefix ++ tail)
        (type ++ program.symbolPrefix ++ (tail ++ "(") ++ rest) :=
    fun type tail rest htype => Or.inr ⟨type, htype, rest, by
      simp only [String.append_assoc]⟩
  have hparts : "int " ++ program.symbolPrefix ++ "_init("
      ++ (program.type ++ "* s) \x7b") ∈
      program.initLines
    ∧ "int " ++ program.symbolPrefix ++ "_execute("
      ++ (program.type ++ "* s, const char* p, const char* endp) \x7b")
        ∈ program.executeLines
    ∧ "static llparse_state_t " ++ program.symbolPrefix ++ "__run("
        ∈ program.runLines := by
    simp [initLines, executeLines, runLines, dispatchLines,
      String.append_assoc]
  obtain ⟨hinit, hexecute, hrun⟩ := hparts
  simp only [frameNames, List.map_cons, List.map_nil, List.mem_cons,
    List.not_mem_nil,
    or_false] at h
  rcases h with rfl | rfl | rfl
  · exact ⟨_, List.mem_append_left _ hinit, hline _ "_init" _
      (by simp [declaringTypes])⟩
  · exact ⟨_, List.mem_append_right _ (List.mem_append_right _ hexecute),
      hline _ "_execute" _ (by simp [declaringTypes])⟩
  · refine ⟨_, List.mem_append_right _ (List.mem_append_left _ hrun), ?_⟩
    have hrun :=
      hline "static llparse_state_t " "__run" "" (by simp [declaringTypes])
    rwa [String.append_empty] at hrun

/-- Every symbol has a line of the text that declares it. -/
theorem declared_of_mem_symbols (h : name ∈ program.symbols) :
    ∃ line ∈ program.lines, DeclaredBy name line := by
  simp only [symbols, List.mem_append, List.mem_map] at h
  rcases h with (((⟨function, hmem, rfl⟩ | hhook) | hframe)
    | ⟨transform, hmem, rfl⟩) | hlabel
  · obtain ⟨line, hline, hname⟩ := declared_of_function program function
    have hpart : line ∈ program.functionsLines :=
      List.mem_flatMap.mpr ⟨function, hmem, List.mem_append_left _ hline⟩
    exact ⟨line, by simp [lines, hpart], hname⟩
  · obtain ⟨line, hpart, hname⟩ :=
      declared_of_debugHook (Option.mem_toList.mp hhook)
    exact ⟨line, by simp [lines, hpart], hname⟩
  · obtain ⟨line, hpart, hname⟩ := declared_of_mem_frameNames hframe
    simp only [List.mem_append] at hpart
    rcases hpart with hpart | hpart | hpart
      <;> exact ⟨line, by simp [lines, hpart], hname⟩
  · obtain ⟨line, hpart, hname⟩ := declared_of_matcher hmem
    exact ⟨line, by simp [lines, hpart], hname⟩
  · obtain ⟨line, hpart, hname⟩ := declared_of_mem_labels hlabel
    exact ⟨line, by simp [lines, hpart], hname⟩

end Program

namespace Artifact

variable {g : Graph} {root : NodeId} {symbolPrefix : String}
  {options : Options} {artifact : Artifact}

/-- The symbols of a compiled graph differ if and only if the names that the
user chose, those of the callbacks and of the debug hook, are no names of
others. -/
theorem symbols_apart_iff (hg : g.Built)
    (hok : ofGraph g root symbolPrefix options = .ok artifact) :
    ∃ parser program, Parser.ofGraph g root symbolPrefix options = .ok parser
      ∧ Program.ofParser parser options.debugHook options.headerName
        = .ok program
      ∧ artifact.source = Program.joinLines program.lines
      ∧ program.symbols
        = ((Program.emittedCodes parser).map fun id =>
          (parser.machine.code id).name)
          ++ options.debugHook.toList ++ ["_init", "_execute", "__run"].map
            (symbolPrefix ++ ·)
          ++ program.matchers.map Program.matcherName ++ program.labels
      ∧ (∀ name ∈ program.symbols, ∃ line ∈ program.lines,
        Program.DeclaredBy name line)
      ∧ program.ownSymbols.Nodup ∧ program.callbackNames.Nodup
      ∧ (program.symbols.Nodup ↔ program.UserNamesApart) := by
  obtain ⟨-, parser, program, hparser, hprogram, hsource, -⟩ :=
    parts_of_ofGraph hok
  obtain ⟨_, _, _, himage, -⟩ := Parser.image_of_ofGraph hg.sound hparser
  have hwell := Parser.wellFormed_of_ofGraph hg.sound hparser
  obtain ⟨hnamed, hsymbol⟩ := Parser.named_of_ofGraph hparser
  have hparts := Program.parts_of_ofParser hprogram
  have hown := Program.nodup_ownSymbols hparts hnamed hsymbol hwell hprogram
  have hcallbacks := Program.nodup_callbackNames hparts himage hwell
  exact ⟨parser, program, hparser, hprogram, hsource,
    hsymbol ▸ Program.symbols_eq hparts,
      fun _ => Program.declared_of_mem_symbols, hown,
    hcallbacks, Program.nodup_symbols_iff hown hcallbacks⟩

/-- A callback that is called as a parser with the prefix "p" calls its own
functions. -/
def hooked : Graph where
  nodes := #[
    { name := "wait", kind := .dispatch none,
      otherwise := some ⟨none, 1, false, none⟩ },
    { name := "invoke_p_init", kind := .invoke 0,
      otherwise := some ⟨none, 0, true, none⟩ }]
  codes := #[⟨"p_init", .external .plain⟩]

/-- The graph is one that calls of the builder make. -/
theorem built_hooked : hooked.Built := by
  have hmade : Build.replay
      [.externalCode "p_init" .plain, .node "wait", .invoke 0,
      .otherwise 1 0, .skipTo 0 1] {} = hooked := by decide +kernel
  rw [← hmade]
  exact Graph.Built.new.replay (by decide +kernel)

/-- Compilation of the graph succeeds with either prefix, and gives the source
these symbols. -/
theorem made_hooked (symbolPrefix : String) (h : symbolPrefix ∈ ["p", "q"]) :
    (Parser.ofGraph hooked 0 symbolPrefix {}
        >>= (Program.ofParser · none none)).map Program.symbols
      = .ok ["p_init", symbolPrefix ++ "_init", symbolPrefix ++ "_execute",
        symbolPrefix ++ "__run", "s_error",
        "s_n_" ++ symbolPrefix ++ "__n_wait",
        "s_n_" ++ symbolPrefix ++ "__n_invoke_p_init"] := by
  simp only [List.mem_cons, List.not_mem_nil, or_false] at h
  rcases h with rfl | rfl <;> cbv

/-- The program of a graph that compiles, with the symbols that its source
has. -/
theorem symbols_of_made {symbols : List String}
    (hsymbol : Text.isIdentifier symbolPrefix = true)
    (hmade : (Parser.ofGraph g root symbolPrefix {}
      >>= (Program.ofParser · none none)).map Program.symbols
        = .ok symbols) :
    ∃ artifact, ofGraph g root symbolPrefix {} = .ok artifact
      ∧ ∀ parser program, Parser.ofGraph g root symbolPrefix {} = .ok parser →
        Program.ofParser parser none none = .ok program →
        program.symbols = symbols := by
  cases hprogram : Parser.ofGraph g root symbolPrefix {}
      >>= (Program.ofParser · none none) with
  | error cause =>
      rw [hprogram] at hmade
      cases hmade
  | ok program =>
      rw [hprogram] at hmade
      obtain ⟨artifact, hartifact⟩ :=
        exists_of_made hsymbol (by rw [hprogram]; rfl)
      refine ⟨artifact, hartifact, fun parser made hparser hok => ?_⟩
      rw [hparser] at hprogram
      obtain rfl := Except.ok.inj (hok.symm.trans hprogram)
      exact Except.ok.inj hmade

/-- With another prefix than that of the callback, nothing is called alike. -/
theorem hooked_apart : ∃ (artifact : Artifact) (program : Program),
    ofGraph hooked 0 "q" {} = .ok artifact
      ∧ artifact.source = Program.joinLines program.lines
      ∧ "p_init" ∈ program.symbols
      ∧ program.symbols.Nodup ∧ program.UserNamesApart := by
  obtain ⟨artifact, hartifact, hsymbols⟩ :=
    symbols_of_made (by decide) (made_hooked "q" (by decide))
  obtain ⟨parser, program, hparser, hprogram, hsource, -, -, -, -, hiff⟩ :=
    symbols_apart_iff built_hooked hartifact
  have hnames := hsymbols parser program hparser hprogram
  have hnodup : program.symbols.Nodup := by
    rw [hnames]
    decide
  exact ⟨artifact, program, hartifact, hsource, by
    simp [hnames], hnodup, hiff.mp hnodup⟩

/-- With the prefix of the callback, compilation succeeds too, and the source
has two functions of one name. -/
theorem hooked_clash : hooked.Built ∧ ∃ artifact parser program,
    ofGraph hooked 0 "p" {} = .ok artifact
      ∧ Parser.ofGraph hooked 0 "p" {} = .ok parser
      ∧ Program.ofParser parser none none = .ok program
      ∧ artifact.source = program.render
      ∧ program.symbols.count "p_init" = 2 ∧ ¬ program.symbols.Nodup := by
  obtain ⟨artifact, hartifact, hsymbols⟩ :=
    symbols_of_made (by decide) (made_hooked "p" (by decide))
  obtain ⟨-, parser, program, hparser, hprogram, hsource, -⟩ :=
    parts_of_ofGraph hartifact
  have hnames := hsymbols parser program hparser hprogram
  refine ⟨built_hooked, artifact, parser, program, hartifact, hparser,
    hprogram, hsource, ?_, ?_⟩
  · rw [hnames]
    decide
  · rw [hnames]
    decide

end Artifact

end Bytewise
