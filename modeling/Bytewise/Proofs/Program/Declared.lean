/-
The fields of the state that the header declares.

The header declares a field for each slot from the slots alone, and one
for each property. The fields of slots share a stem that no property has,
so all names differ; and what the source uses of a slot is there because
the slot is.
-/
import Bytewise.Proofs.Graph.Properties
import Bytewise.Proofs.Program.Spelling
import Bytewise.Proofs.Program.StructLines

namespace Bytewise

open Build (reservedFields spanFieldStem)
open Bytewise.Graph (FieldFree)
open Machine (StateKind)
open Text

namespace Program

/-- The names of the fields that the header declares. -/
def declaredFields (properties : List Property) (slots : List SpanSlot) :
    List String :=
  (stateFields properties slots).map (·.name)

variable {properties : List Property} {slots : List SpanSlot} {slot : SlotId}
  {field : String}

-- ======================================================== names of slots

/-- Slots have position fields of their own. -/
theorem positionField_injective :
    Function.Injective positionField := fun _ _ h =>
  Nat.repr_injective ((String.append_right_inj _).mp h)

/-- Slots have callback fields of their own. -/
theorem callbackField_injective :
    Function.Injective callbackField := fun _ _ h =>
  Nat.repr_injective ((String.append_right_inj _).mp h)

/-- No position field is a callback field. -/
theorem positionField_ne_callbackField (a b : SlotId) :
    positionField a ≠ callbackField b := by
  intro h
  have hchars := congrArg String.toList h
  simp [positionField, callbackField] at hchars

/-- The names of the fields of a slot. -/
theorem mem_slotFields {callbacks : SpanSlot} :
    field ∈ (slotFields slot callbacks).map (·.name)
      ↔ field = positionField slot
          ∨ (callbacks.isShared = true ∧ field = callbackField slot) := by
  unfold slotFields
  cases callbacks.isShared <;> simp

theorem nodup_slotFields (slot : SlotId) (callbacks : SpanSlot) :
    ((slotFields slot callbacks).map (·.name)).Nodup := by
  unfold slotFields
  cases callbacks.isShared <;> simp [positionField_ne_callbackField]

/-- A position field begins with the stem of span fields. -/
theorem positionField_stem (slot : SlotId) :
    spanFieldStem.toList <+: (positionField slot).toList :=
  ⟨"pos".toList ++ (toString slot).toList, by
    simp [positionField, spanFieldStem]⟩

theorem callbackField_stem (slot : SlotId) :
    spanFieldStem.toList <+: (callbackField slot).toList :=
  ⟨"cb".toList ++ (toString slot).toList, by
    simp [callbackField, spanFieldStem]⟩

/-- All fields of a slot begin with that stem. -/
theorem stem_of_mem_slotFields {callbacks : SpanSlot}
    (h : field ∈ (slotFields slot callbacks).map (·.name)) :
    spanFieldStem.toList <+: field.toList := by
  rcases mem_slotFields.mp h with rfl | ⟨-, rfl⟩
  · exact positionField_stem slot
  · exact callbackField_stem slot

-- ===================================================== declared fields

/-- The names of the fields of all slots. -/
def slotNames (slots : List SpanSlot) : List String :=
  slots.zipIdx.flatMap fun (callbacks, slot) =>
    (slotFields slot callbacks).map (·.name)

/-- Every slot has its position, and one with several callbacks has one of them
too. -/
theorem mem_slotNames :
    field ∈ slotNames slots ↔ ∃ slot callbacks, slots[slot]? = some callbacks
      ∧ (field = positionField slot ∨ callbacks.isShared = true
          ∧ field = callbackField slot) := by
  unfold slotNames
  rw [List.mem_flatMap]
  constructor
  · rintro ⟨⟨callbacks, slot⟩, hmem, hfield⟩
    exact ⟨slot, callbacks, List.mem_zipIdx_iff_getElem?.mp hmem,
      mem_slotFields.mp hfield⟩
  · rintro ⟨slot, callbacks, hslot, hfield⟩
    exact ⟨(callbacks, slot), List.mem_zipIdx_iff_getElem?.mpr hslot,
      mem_slotFields.mpr hfield⟩

/-- The fields of all slots are apart. -/
theorem nodup_slotNames (slots : List SpanSlot) : (slotNames slots).Nodup := by
  refine List.nodup_flatMap.mpr ⟨fun pair _ => nodup_slotFields _ _, ?_⟩
  have hplaces : (slots.zipIdx.map Prod.snd).Nodup := by
    rw [List.zipIdx_map_snd]
    exact List.nodup_range'
  refine (List.pairwise_map.mp hplaces).imp fun {a b} hne field ha hb => ?_
  rcases mem_slotFields.mp ha with rfl | ⟨-, rfl⟩ <;> rcases mem_slotFields.mp
    hb with h | ⟨-, h⟩
  · exact hne (positionField_injective h)
  · exact positionField_ne_callbackField _ _ h
  · exact positionField_ne_callbackField _ _ h.symm
  · exact hne (callbackField_injective h)

/-- The declared fields are those that the state has at any rate, those of the
slots and the properties. -/
theorem declaredFields_perm (properties : List Property)
    (slots : List SpanSlot) :
    (declaredFields properties slots).Perm
      (reservedFields ++ (slotNames slots ++ properties.map (·.name))) := by
  have hnames : declaredFields properties slots
      = [indexField] ++ slotNames slots
        ++ [errorField, reasonField, errorPosField, dataField, currentField]
        ++ properties.map (·.name) := by
    unfold declaredFields stateFields slotNames
    simp only [List.map_append, List.map_flatMap, List.map_map, List.map_cons,
      List.map_nil, Function.comp_def]
  have hreserved : reservedFields
      = [indexField] ++ [errorField, reasonField, errorPosField, dataField,
        currentField] := rfl
  rw [hnames, hreserved, ← List.append_assoc, List.append_assoc [indexField]
    (slotNames slots),
    List.append_assoc [indexField] _ (slotNames slots)]
  exact (List.perm_append_comm.append_left _).append_right _

/-- What is declared are the reserved fields, those of slots and the
properties. -/
theorem mem_declaredFields : field ∈ declaredFields properties slots
    ↔ field ∈ reservedFields ∨ field ∈ slotNames slots
        ∨ field ∈ properties.map (·.name) := by
  rw [(declaredFields_perm properties slots).mem_iff, List.mem_append,
    List.mem_append]

/-- No two declared fields have one name. -/
theorem nodup_declaredFields (hnames : (properties.map (·.name)).Nodup)
    (hfree : ∀ p ∈ properties, FieldFree p.name) :
    (declaredFields properties slots).Nodup := by
  rw [(declaredFields_perm properties slots).nodup_iff]
  refine List.nodup_append'.mpr ⟨by decide, List.nodup_append'.mpr
    ⟨nodup_slotNames slots, hnames, fun field hslot hproperty => ?_⟩,
    fun field hreserved hmem => ?_⟩
  · obtain ⟨pair, -, hfield⟩ := List.mem_flatMap.mp hslot
    obtain ⟨p, hp, rfl⟩ := List.mem_map.mp hproperty
    exact (hfree p hp).2 (stem_of_mem_slotFields hfield)
  · rcases List.mem_append.mp hmem with hslot | hproperty
    · obtain ⟨pair, -, hfield⟩ := List.mem_flatMap.mp hslot
      have hstem : ∀ field ∈ reservedFields, ¬ spanFieldStem.toList
        <+: field.toList := by decide
      exact hstem field hreserved (stem_of_mem_slotFields hfield)
    · obtain ⟨p, hp, rfl⟩ := List.mem_map.mp hproperty
      exact (hfree p hp).1 hreserved

/-- The callback of a slot is declared for a slot that callbacks share, and for
no other. -/
theorem callbackField_mem_declaredFields
    (hfree : ∀ p ∈ properties, FieldFree p.name) :
    callbackField slot ∈ declaredFields properties slots
      ↔ ∃ callbacks, slots[slot]? = some callbacks
          ∧ callbacks.isShared = true := by
  rw [mem_declaredFields]
  constructor
  · rintro (hreserved | hslot | hproperty)
    · have hnone : ∀ field ∈ reservedFields, ¬ spanFieldStem.toList
        <+: field.toList := by decide
      exact absurd (callbackField_stem slot) (hnone _ hreserved)
    · obtain ⟨other, callbacks, hslot, hfield | ⟨hshared, hfield⟩⟩ :=
        mem_slotNames.mp hslot
      · exact absurd hfield.symm (positionField_ne_callbackField _ _)
      · obtain rfl := callbackField_injective hfield
        exact ⟨callbacks, hslot, hshared⟩
    · obtain ⟨p, hp, hname⟩ := List.mem_map.mp hproperty
      have hstem := callbackField_stem slot
      rw [← hname] at hstem
      exact absurd hstem (hfree p hp).2
  · rintro ⟨callbacks, hslot, hshared⟩
    exact Or.inr
      (Or.inl
      (mem_slotNames.mpr ⟨slot, callbacks, hslot, Or.inr ⟨hshared, rfl⟩⟩))

-- ============================================== fields of a parser

variable {parser : Parser}

/-- The fields that the header of a parser declares. -/
def declared (parser : Parser) : List String :=
  declaredFields parser.properties parser.slots

theorem mem_declared_of_reserved (h : field ∈ reservedFields) :
    field ∈ declared parser :=
  mem_declaredFields.mpr (Or.inl h)

theorem mem_declared_of_property (h : field ∈ parser.properties.map (·.name)) :
    field ∈ declared parser :=
  mem_declaredFields.mpr (Or.inr (Or.inr h))

/-- The position of every slot is declared. -/
theorem positionField_mem_declared (h : slot < parser.slots.length) :
    positionField slot ∈ declared parser :=
  mem_declaredFields.mpr (Or.inr (Or.inl
    (mem_slotNames.mpr ⟨slot, _, List.getElem?_eq_getElem h, Or.inl rfl⟩)))

/-- The slots that callbacks share. -/
theorem isSharedSlot_iff : parser.isSharedSlot slot = true
    ↔ ∃ callbacks, parser.slots[slot]? = some callbacks
        ∧ SpanSlot.isShared callbacks = true := by
  unfold Parser.isSharedSlot
  cases hslot : parser.slots[slot]? with
  | none => simp
  | some callbacks => simp

theorem callbackField_mem_declared_of_shared
    (h : parser.isSharedSlot slot = true) :
    callbackField slot ∈ declared parser := by
  obtain ⟨callbacks, hslot, hshared⟩ := isSharedSlot_iff.mp h
  exact mem_declaredFields.mpr (Or.inr (Or.inl
    (mem_slotNames.mpr ⟨slot, callbacks, hslot, Or.inr ⟨hshared, rfl⟩⟩)))

/-- The fields of a state whose slot is there are declared, if a skip has found
its property. -/
theorem mem_declared_of_kindFields {kind : StateKind}
    (hslot : ∀ slot callback, kind = .spanStart slot callback
      ∨ kind = .spanEnd slot callback →
      slot < parser.slots.length)
    (hskip : ∀ name, kind = .consume name →
      name ∈ parser.properties.map (·.name))
    (hfield : field ∈ kindFields parser kind) : field ∈ declared parser := by
  have hstop : ∀ field ∈ [errorField, reasonField, errorPosField,
      currentField],
      field ∈ declared parser := fun field hmem =>
    mem_declared_of_reserved
      ((by decide : ∀ field ∈ [errorField, reasonField, errorPosField,
      currentField], field ∈ reservedFields) field hmem)
  unfold kindFields at hfield
  cases kind with
  | consume name =>
      rw [List.mem_singleton.mp hfield]
      exact mem_declared_of_property (hskip name rfl)
  | error code reason => exact hstop field hfield
  | pause code reason => exact hstop field hfield
  | spanStart slot callback =>
      rcases List.mem_cons.mp hfield with rfl | hshared
      · exact positionField_mem_declared (hslot slot callback (Or.inl rfl))
      · split at hshared
        · rename_i hshared'
          rw [List.mem_singleton.mp hshared]
          exact callbackField_mem_declared_of_shared hshared'
        · cases hshared
  | spanEnd slot callback =>
      rcases List.mem_cons.mp hfield with rfl | hfield
      · exact positionField_mem_declared (hslot slot callback (Or.inr rfl))
      · refine hstop field ?_
        simp only [List.mem_cons, List.not_mem_nil, or_false] at hfield ⊢
        tauto
  | _ => cases hfield

/-- What the body of a state uses is declared. -/
theorem mem_declared_of_stateOf {debugHook : Option String} {s : StateId}
    {state : State} (hshaped : parser.Shaped s)
    (h : stateOf parser debugHook s = .ok state)
    (hfield : field ∈ state.body.flatMap Stmt.fields) :
    field ∈ declared parser := by
  obtain ⟨body, hbody, hrest⟩ := ok_of_bind h
  obtain rfl := Except.ok.inj hrest
  rw [List.flatMap_append] at hfield
  rcases List.mem_append.mp hfield with htrace | hfield
  · cases debugHook <;> cases htrace
  · refine mem_declared_of_kindFields (fun slot callback hkind => ?_)
      (fun name hkind => ?_)
      (mem_kindFields_of_kindBody hbody hfield)
    · obtain ⟨hslot, -⟩ := hshaped.slots slot callback hkind
      exact hslot
    · have hmade := bodyOf_of_kindBody hbody
      rw [hkind] at hmade
      cases hmade with
      | consume found integer next => exact mem_of_property found

-- ============================================================ programs

/-- The functions around a run flush the slots that there are. -/
theorem mem_declared_of_flushFields {callbacks : SpanSlot}
    {name : CodeId → String} (hslot : parser.slots[slot]? = some callbacks)
    (hfield : field ∈ flushFields slot (callbacks.map name)) :
    field ∈ declared parser := by
  have hposition :=
    positionField_mem_declared (List.getElem?_eq_some_iff.mp hslot).1
  have herror : errorField ∈ declared parser :=
    mem_declared_of_reserved (by decide)
  have herrorPos : errorPosField ∈ declared parser :=
    mem_declared_of_reserved (by decide)
  rcases callbacks with _ | ⟨callback, _ | ⟨other, rest⟩⟩
  · cases hfield
  · have hname : field = positionField slot ∨ field = errorField
        ∨ field = errorPosField := by
      simpa [flushFields] using hfield
    rcases hname with rfl | rfl | rfl
    · exact hposition
    · exact herror
    · exact herrorPos
  · have hshared : parser.isSharedSlot slot = true :=
      isSharedSlot_iff.mpr ⟨_, hslot, by simp [SpanSlot.isShared]⟩
    have hname : field = positionField slot ∨ field = callbackField slot
        ∨ field = errorField
        ∨ field = errorPosField := by simpa [flushFields] using hfield
    rcases hname with rfl | rfl | rfl | rfl
    · exact hposition
    · exact callbackField_mem_declared_of_shared hshared
    · exact herror
    · exact herrorPos

/-- Every field that the source of a program names is declared. -/
theorem Parts.mem_declared {debugHook : Option String} {program : Program}
    (h : Parts parser debugHook program) (hwell : parser.WellFormed)
    (hfield : field ∈ program.fields) : field ∈ declared parser := by
  simp only [fields, List.mem_append] at hfield
  rcases hfield with ((hmatcher | hstate) | hfunction) | houter
  · obtain ⟨_, -, rfl⟩ := List.mem_map.mp hmatcher
    exact mem_declared_of_reserved (by decide)
  · obtain ⟨state, hmem, hfield⟩ := List.mem_flatMap.mp hstate
    obtain ⟨s, hs, hstate⟩ := exists_of_mem_right h.states hmem
    exact mem_declared_of_stateOf
      (hwell.states s (hwell.mem_emissionOrder.mp hs)) hstate hfield
  · obtain ⟨function, hmem, hfield⟩ := List.mem_flatMap.mp hfunction
    obtain ⟨id, hid, hfunction⟩ := exists_of_mem_right h.functions hmem
    refine mem_declared_of_property
      (mem_of_functionOf (h.checked_of_emitted hid) hfunction hfield)
  · simp only [outerFields, List.mem_append] at houter
    rcases houter with (hword | hposition) | hflush
    · refine mem_declared_of_reserved ?_
      rcases List.mem_cons.mp hword with rfl | hword
      · decide
      · rw [List.mem_singleton.mp hword]
        decide
    · obtain ⟨slot, hslot, rfl⟩ := List.mem_map.mp hposition
      rw [h.slots, List.length_map, List.mem_range] at hslot
      exact positionField_mem_declared hslot
    · obtain ⟨⟨callbacks, slot⟩, hmem, hfield⟩ := List.mem_flatMap.mp hflush
      rw [List.mem_zipIdx_iff_getElem?, h.slots, List.getElem?_map] at hmem
      obtain ⟨codes, hslot, rfl⟩ := Option.map_eq_some_iff.mp hmem
      exact mem_declared_of_flushFields hslot hfield

/-- A slot that callbacks share is flushed to the one that the state holds. -/
theorem Parts.callbackField_mem_fields {debugHook : Option String}
    {program : Program} (h : Parts parser debugHook program)
    (hshared : parser.isSharedSlot slot = true) :
    callbackField slot ∈ program.fields := by
  obtain ⟨callbacks, hslot, hshared⟩ := isSharedSlot_iff.mp hshared
  have hmem : (callbacks.map fun id => (parser.machine.code id).name, slot)
      ∈ program.slots.zipIdx := by
    rw [List.mem_zipIdx_iff_getElem?, h.slots, List.getElem?_map, hslot]
    rfl
  refine List.mem_append_right _ (List.mem_append_right _
    (List.mem_flatMap.mpr ⟨_, hmem, ?_⟩))
  rcases callbacks with _ | ⟨callback, _ | ⟨other, rest⟩⟩
  · cases hshared
  · cases hshared
  · exact List.mem_cons_of_mem _ List.mem_cons_self

/-- A header that declares `declared` fits a source that accesses
`accessed`. What reads as an access within a name of the user's, of which
there are `given`, is none of the source's own. -/
structure FieldsAgree (declared accessed given : List String) : Prop where
  /-- A name declares one field. -/
  distinct : declared.Nodup
  /-- What the source accesses is declared. -/
  subset : ∀ field ∈ accessed,
    field ∈ declared ∨ ∃ name ∈ given, field ∈ accesses name
  /-- A slot has a field for its callback if the source accesses that, and
  else has none. -/
  callbacks : ∀ slot, (∀ name ∈ given, callbackField slot ∉ accesses name) →
    (callbackField slot ∈ declared ↔ callbackField slot ∈ accessed)

/-- The source accesses what a program is listed with, and besides that what
reads so within names: then a header that fits the list fits the source. -/
theorem FieldsAgree.of_listed {declared listed accessed given : List String}
    (h : FieldsAgree declared listed [])
    (hlisted : ∀ field ∈ accessed,
      field ∈ listed ∨ ∃ name ∈ given, field ∈ accesses name)
    (haccessed : ∀ field ∈ listed, field ∈ accessed) :
    FieldsAgree declared accessed given where
  distinct := h.distinct
  subset field hfield := (hlisted field hfield).imp_left fun hmem =>
    (h.subset field hmem).resolve_right fun ⟨_, hname, _⟩ => nomatch hname
  callbacks slot hgiven := by
    refine (h.callbacks slot nofun).trans ⟨haccessed _, fun hmem => ?_⟩
    refine (hlisted _ hmem).resolve_right ?_
    rintro ⟨name, hname, hfield⟩
    exact hgiven name hname hfield

/-- The fields that a header declares have words for their names, and lines
of their own. -/
theorem isWord_of_mem_stateFields
    (h : ∀ p ∈ properties, isIdentifier p.name = true) {field : StateField}
    (hfield : field ∈ stateFields properties slots) :
    IsWord field.name ∧ '\n' ∉ field.line.toList := by
  have hline : ∀ (type name : String), '\n' ∉ type.toList → IsWord name →
      IsWord name ∧ '\n' ∉ (StateField.line ⟨type, name⟩).toList := by
    intro type name htype hname
    refine ⟨hname, ?_⟩
    simp [StateField.line, htype, hname.plain.1]
  simp only [stateFields, List.mem_append] at hfield
  rcases hfield with ((hindex | hslot) | hword) | hproperty
  · revert field
    decide
  · obtain ⟨⟨callbacks, slot⟩, -, hfield⟩ := List.mem_flatMap.mp hslot
    unfold slotFields at hfield
    rcases List.mem_cons.mp hfield with rfl | hfield
    · exact hline _ _ (by decide) (isWord_positionField slot)
    · split at hfield
      · obtain rfl := List.mem_singleton.mp hfield
        exact hline _ _ (by decide) (isWord_callbackField slot)
      · cases hfield
  · revert field
    decide
  · obtain ⟨property, hmem, rfl⟩ := List.mem_map.mp hproperty
    have htype : ∀ type : FieldType, '\n' ∉ type.declared.toList := by
      intro type
      cases type <;> decide
    exact hline _ _ (htype property.type)
      (isWord_of_isIdentifier (h property hmem))

end Program

namespace Parser

variable {parser : Parser} {g : Graph} {root : NodeId} {symbolPrefix : String}
  {options : Options}

/-- A parser has the properties of its graph. -/
theorem properties_of_ofGraph
    (hok : ofGraph g root symbolPrefix options = .ok parser) :
    parser.properties = g.properties.toList := by
  obtain ⟨_, _, hrest⟩ := ok_of_bind hok
  obtain rfl := Except.ok.inj hrest
  rfl

end Parser

namespace Artifact

variable {g : Graph} {root : NodeId} {symbolPrefix : String}
  {options : Options} {artifact : Artifact}

open Program (declared declaredIn FieldsAgree)

/-- The header and the source of a compiled graph agree on the fields of the
state, as they are read off the lines of both. -/
theorem fields_agree (hg : g.Built)
    (hok : ofGraph g root symbolPrefix options = .ok artifact) :
    ∃ parser program, Parser.ofGraph g root symbolPrefix options = .ok parser
      ∧ Program.ofParser parser options.debugHook options.headerName
        = .ok program
      ∧ artifact.source = program.render
      ∧ artifact.header = Program.header symbolPrefix parser.properties
        parser.slots
      ∧ declaredIn (symbolPrefix ++ "_s") artifact.header = declared parser
      ∧ (∀ field ∈ program.fields, field ∈ accessedIn artifact.source)
      ∧ FieldsAgree (declaredIn (symbolPrefix ++ "_s") artifact.header)
        program.fields []
      ∧ FieldsAgree (declaredIn (symbolPrefix ++ "_s") artifact.header)
        (accessedIn artifact.source) program.givenNames := by
  obtain ⟨hidentifier, parser, program, hparser, hprogram, hsource, hheader⟩ :=
    parts_of_ofGraph hok
  have hparts := Program.parts_of_ofParser hprogram
  have hwell := Parser.wellFormed_of_ofGraph hg.sound hparser
  obtain ⟨hidentifiers, hfree, hdistinct⟩ := hg.propertiesNamed
  rw [← Parser.properties_of_ofGraph hparser] at hidentifiers hfree hdistinct
  have hfields := fun field (hfield : field ∈ Program.stateFields
      parser.properties parser.slots) =>
    Program.isWord_of_mem_stateFields hidentifiers hfield
  obtain ⟨hstates, hintrinsics⟩ :=
    Parser.isWord_of_ofGraph hidentifier hparser
  have hsymbol := isWord_of_isIdentifier hidentifier
  have hdeclared : declaredIn (symbolPrefix ++ "_s") artifact.header
      = declared parser := by
    rw [hheader, Program.declaredIn_header hsymbol
      (fun field hfield => (hfields field hfield).2)
      fun field hfield => (hfields field hfield).1]
    rfl
  have hspelled : program.Spelled := {
    symbolPrefix := by
      rw [hparts.symbols, (Parser.named_of_ofGraph hparser).2]
      exact hsymbol
    labels := Program.isWord_stateLabel hstates hprogram
    fields := fun field hfield => by
      obtain ⟨declared, hmem, rfl⟩ :=
        List.mem_map.mp (hparts.mem_declared hwell hfield)
      exact (hfields declared hmem).1
    steps := fun function hmem step hstep text htext => by
      obtain ⟨id, -, hfunction⟩ := exists_of_mem_right hparts.functions hmem
      exact Program.plain_of_functionOf hfunction hstep htext }
  have hagree : FieldsAgree (declared parser) program.fields [] := {
    distinct := Program.nodup_declaredFields hdistinct hfree
    subset := fun field hfield => .inl (hparts.mem_declared hwell hfield)
    callbacks := fun slot _ => by
      refine ⟨fun hmem => ?_, hparts.mem_declared hwell⟩
      have hshared := (Program.callbackField_mem_declaredFields hfree).mp hmem
      exact hparts.callbackField_mem_fields
        (Program.isSharedSlot_iff.mpr hshared) }
  have haccessed : ∀ field ∈ program.fields,
      field ∈ accessedIn artifact.source := fun field hfield =>
    hsource ▸ hspelled.accessed hfield
  refine ⟨parser, program, hparser, hprogram, hsource, hheader, hdeclared,
    haccessed, hdeclared ▸ hagree,
    hdeclared ▸ hagree.of_listed (fun field hfield => ?_) haccessed⟩
  rw [hsource] at hfield
  refine (hspelled.listed hfield).imp_right fun hfield => ?_
  obtain ⟨text, htext, hfield⟩ := List.mem_flatMap.mp hfield
  exact ⟨text, hparts.given_of_texts hintrinsics htext hfield, hfield⟩

/-- Two spans that take turns: between them a number of bytes is skipped, after
them one byte. -/
def turns : Graph where
  nodes := #[
    { name := "next", kind := .dispatch none,
      otherwise := some ⟨none, 5, false, none⟩ },
    { name := "span_end_on_b", kind := .spanEnd 1,
      otherwise := some ⟨none, 0, true, none⟩ },
    { name := "span_start_on_b", kind := .spanStart 1,
      otherwise := some ⟨none, 1, true, none⟩ },
    { name := "consume_length", kind := .consume "length"
      otherwise := some ⟨none, 2, true, none⟩ },
    { name := "span_end_on_a", kind := .spanEnd 0,
      otherwise := some ⟨none, 3, true, none⟩ },
    { name := "span_start_on_a", kind := .spanStart 0,
      otherwise := some ⟨none, 4, true, none⟩ }]
  codes := #[⟨"on_a", .external .span⟩, ⟨"on_b", .external .span⟩]
  spans := #[0, 1]
  properties := #[⟨.i8, "length"⟩]
  spanStarts := [((0, 4), 5), ((1, 1), 2)]
  spanEnds := [((0, 3), 4), ((1, 0), 1)]

/-- The graph is one that calls of the builder make. -/
theorem built_turns : turns.Built := by
  have hmade : Build.replay
      [.property .i8 "length", .externalCode "on_a" .span,
      .externalCode "on_b" .span, .span 0, .span 1, .node "next",
        .spanEnd 1 (some 0),
      .spanStart 1 (some 1), .consume "length", .otherwise 3 2,
        .spanEnd 0 (some 3),
      .spanStart 0 (some 4), .skipTo 0 5] {} = turns := by decide +kernel
  rw [← hmade]
  exact Graph.Built.new.replay (by decide +kernel)

/-- Compilation of the turns succeeds, and gives the state these fields. -/
theorem made_turns :
    (Parser.ofGraph turns 5 "p" {} >>= (Program.ofParser · none none)).isOk
    = true
    ∧ (Parser.ofGraph turns 5 "p" {}).map declared
      = .ok ["_index", "_span_pos0", "_span_cb0",
      "error", "reason", "error_pos", "data", "_current", "length"] :=
  ⟨by cbv, by cbv⟩

/-- The user's names of the turns read like no accesses. -/
theorem given_turns : (Parser.ofGraph turns 5 "p" {}
    >>= (Program.ofParser · none none)).map Program.givenNames
      = .ok ["on_a", "on_b", "p"] := by
  cbv

/-- The two spans share a slot, so the struct declares its callback, which
the source accesses, and all that the source accesses is declared. -/
theorem turns_agree : ∃ artifact : Artifact,
    ofGraph turns 5 "p" {} = .ok artifact
      ∧ declaredIn "p_s" artifact.header = ["_index", "_span_pos0",
        "_span_cb0", "error", "reason", "error_pos", "data", "_current",
        "length"]
      ∧ "_span_cb0" ∈ accessedIn artifact.source
      ∧ ∀ field ∈ accessedIn artifact.source,
        field ∈ declaredIn "p_s" artifact.header := by
  obtain ⟨hmade, hdeclared⟩ := made_turns
  obtain ⟨artifact, hartifact⟩ := exists_of_made (by decide) hmade
  obtain ⟨parser, program, hparser, hprogram, -, -, hstruct, -, -, hagree⟩ :=
    fields_agree built_turns hartifact
  have hgiven := given_turns
  rw [hparser] at hdeclared hgiven
  have hprogram : Program.ofParser parser none none = .ok program := hprogram
  simp only [bind, Except.bind, hprogram] at hgiven
  have hquiet : ∀ name ∈ program.givenNames, accesses name = [] := by
    rw [Except.ok.inj hgiven]
    decide
  have hstructName : "p" ++ "_s" = "p_s" := by decide
  rw [hstructName] at hstruct hagree
  rw [Except.ok.inj hdeclared] at hstruct
  refine ⟨artifact, hartifact, hstruct, ?_, fun field hfield => ?_⟩
  · refine (hagree.callbacks 0 fun name hname => ?_).mp ?_
    · rw [hquiet name hname]
      exact List.not_mem_nil
    · rw [hstruct]
      decide
  · refine (hagree.subset field hfield).resolve_right ?_
    rintro ⟨name, hname, hmem⟩
    rw [hquiet name hname] at hmem
    cases hmem

end Artifact

end Bytewise
