/-
The properties of built graphs.

A property is added only under a name that the target language takes for
an identifier, that is none of the state's own, and that no property has:
so the fields of the state struct can be told apart.
-/
import Mathlib.Data.List.Nodup
import Bytewise.Proofs.Graph.Calls

namespace Bytewise.Graph

/-- A name that the state has not taken for itself. -/
def FieldFree (name : String) : Prop :=
  name ∉ Build.reservedFields ∧ ¬ Build.spanFieldStem.toList <+: name.toList

/-- The names of the properties can be fields of the state, each of its own. -/
structure PropertiesNamed (g : Graph) : Prop where
  identifier : ∀ p ∈ g.properties.toList, Text.isIdentifier p.name = true
  free : ∀ p ∈ g.properties.toList, FieldFree p.name
  distinct : (g.properties.toList.map (·.name)).Nodup

variable {g g' : Graph}

/-- A property may be added under a free name that is new. -/
theorem PropertiesNamed.add (h : g.PropertiesNamed) (type : FieldType)
    {name : String} (identifier : Text.isIdentifier name = true)
    (free : FieldFree name) (fresh : ∀ p ∈ g.properties, p.name ≠ name) :
    PropertiesNamed
        { g with properties := g.properties.push ⟨type, name⟩ } where
  identifier := by
    rw [Array.toList_push]
    exact List.forall_mem_append.mpr
      ⟨h.identifier, List.forall_mem_singleton.mpr identifier⟩
  free := by
    rw [Array.toList_push]
    exact List.forall_mem_append.mpr
      ⟨h.free, List.forall_mem_singleton.mpr free⟩
  distinct := by
    rw [Array.toList_push, List.map_append, List.map_singleton]
    refine List.nodup_append'.mpr ⟨h.distinct, List.nodup_singleton name, ?_⟩
    refine List.disjoint_singleton.mpr fun hmem => ?_
    obtain ⟨p, hp, hname⟩ := List.mem_map.mp hmem
    exact fresh p (Array.mem_toList_iff.mp hp) hname

/-- What is said of properties does not depend on the rest of a graph. -/
theorem PropertiesNamed.congr (h : g.PropertiesNamed)
    (hsame : g'.properties = g.properties) :
    g'.PropertiesNamed := by
  obtain ⟨identifier, free, distinct⟩ := h
  rw [← hsame] at identifier free distinct
  exact ⟨identifier, free, distinct⟩

theorem PropertiesNamed.change (h : Change g g') (hg : g.PropertiesNamed) :
    g'.PropertiesNamed := by
  cases h with
  | property type identifier free fresh =>
      obtain ⟨hreserved, hstem⟩ := free
      refine hg.add type identifier ⟨fun hmem => ?_, fun hbegins => ?_⟩ fresh
      · rw [List.contains_iff_mem.mpr hmem] at hreserved
        cases hreserved
      · rw [List.isPrefixOf_iff_prefix.mpr hbegins] at hstem
        cases hstem
  | _ => exact hg.congr rfl

/-- The properties of a built graph have names of their own, none of them taken
by the state. -/
theorem Built.propertiesNamed (h : g.Built) : g.PropertiesNamed :=
  h.induction ⟨fun _ hp => (nomatch hp), fun _ hp => (nomatch hp),
    List.nodup_nil⟩
    fun _ _ => PropertiesNamed.change

end Bytewise.Graph
