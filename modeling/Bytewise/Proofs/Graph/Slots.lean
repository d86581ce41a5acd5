/-
Spans that may be open together have slots of their own.

The slots are a coloring, one span at a time: a span gets a slot that no
span has which overlaps with it, so overlapping spans never meet in one
slot, whatever their order (`Colored`). Where two spans are carried to one
node they overlap; this is all that a run can ask of a slot.
-/
import Mathlib.Data.List.Perm.Subperm
import Bytewise.Proofs.Graph.OpenSpans

namespace Bytewise

namespace Graph

variable {g : Graph} {root a : NodeId} {spans : OpenSpans} {s t : SpanId}

-- =========================================================== coloring

theorem overlap_comm (spans : OpenSpans) (s t : SpanId) :
    overlap spans s t = overlap spans t s := by
  unfold overlap
  rw [bne_comm]
  congr 2
  funext here
  exact Bool.and_comm _ _

/-- Some number is free: there are more candidates than numbers in use. -/
theorem leastFree_notMem (used : List Nat) : leastFree used ∉ used := by
  unfold leastFree
  cases hfind : (List.range (used.length + 1)).find? (!used.contains ·) with
  | some n =>
      have hfree := List.find?_some hfind
      rw [Bool.not_eq_true'] at hfree
      exact fun hmem => Bool.eq_false_iff.mp hfree
        (List.contains_iff_mem.mpr hmem)
  | none =>
      have hsub : List.range (used.length + 1) ⊆ used := by
        intro n hn
        have hused := List.find?_eq_none.mp hfind n hn
        rw [Bool.not_eq_true, Bool.not_eq_false'] at hused
        exact List.contains_iff_mem.mp hused
      have hlen := (List.subperm_of_subset List.nodup_range hsub).length_le
      rw [List.length_range] at hlen
      exact absurd hlen (Nat.not_succ_le_self _)

/-- Spans with one slot do not overlap. -/
def Colored (spans : OpenSpans) (slots : List (SpanId × Nat)) : Prop :=
  ∀ x ∈ slots, ∀ y ∈ slots, x.2 = y.2 → overlap spans x.1 y.1 = false

/-- No span overlaps with itself. -/
theorem overlap_self (spans : OpenSpans) (s : SpanId) :
    overlap spans s s = false := by
  unfold overlap
  rw [bne_self_eq_false]
  rfl

theorem Colored.add {slots : List (SpanId × Nat)} (h : Colored spans slots)
    (span : SpanId) :
    Colored spans (slots ++ [(span, leastFree
      ((slots.filter fun entry => overlap spans span entry.1).map
          (·.2)))]) := by
  generalize hused : (slots.filter fun entry => overlap spans span entry.1).map
    (·.2) = used
  have hapart : ∀ x ∈ slots, x.2 = leastFree used →
      overlap spans span x.1 = false := by
    intro x hx hslot
    by_contra hover
    rw [Bool.not_eq_false] at hover
    refine leastFree_notMem used ?_
    rw [← hslot, ← hused]
    exact List.mem_map_of_mem (List.mem_filter.mpr ⟨hx, hover⟩)
  intro x hx y hy hslot
  rcases List.mem_append.mp hx with hx | hx
  · rcases List.mem_append.mp hy with hy | hy
    · exact h x hx y hy hslot
    · rw [List.mem_singleton.mp hy] at hslot ⊢
      rw [overlap_comm]
      exact hapart x hx hslot
  · rw [List.mem_singleton.mp hx] at hslot ⊢
    rcases List.mem_append.mp hy with hy | hy
    · exact hapart y hy hslot.symm
    · rw [List.mem_singleton.mp hy]
      exact overlap_self spans span

theorem Colored.assign {order : List SpanId} {slots : List (SpanId × Nat)}
    (h : Colored spans slots) :
    Colored spans (assignSlots spans order slots) := by
  induction order generalizing slots with
  | nil => exact h
  | cons span order ih => exact ih (h.add span)

/-- Spans that are found at one node overlap. -/
theorem overlap_of_has (hs : spans.Has a s) (ht : spans.Has a t)
    (hne : s ≠ t) :
    overlap spans s t = true := by
  have hlt : a < spans.size := by
    by_contra hge
    unfold OpenSpans.Has at hs
    rw [Array.getD, dif_neg hge] at hs
    exact List.not_mem_nil hs
  have hget : spans.getD a [] = spans[a] := by
    rw [Array.getD, dif_pos hlt]; rfl
  unfold OpenSpans.Has at hs ht
  rw [hget] at hs ht
  unfold overlap
  rw [Bool.and_eq_true, bne_iff_ne, Array.any_eq_true]
  exact ⟨hne, a, hlt, Bool.and_eq_true_iff.mpr
    ⟨List.contains_iff_mem.mpr hs, List.contains_iff_mem.mpr ht⟩⟩

theorem overlap_iff :
    overlap spans s t = true ↔ s ≠ t ∧ ∃ id, spans.Has id s
        ∧ spans.Has id t := by
  constructor
  · intro hover
    unfold overlap at hover
    rw [Bool.and_eq_true, bne_iff_ne, Array.any_eq_true] at hover
    obtain ⟨hne, id, hid, hboth⟩ := hover
    rw [Bool.and_eq_true, List.contains_iff_mem, List.contains_iff_mem]
      at hboth
    have hget : spans.getD id [] = spans[id] := by
      rw [Array.getD, dif_pos hid]; rfl
    refine ⟨hne, id, ?_, ?_⟩
    · unfold OpenSpans.Has
      rw [hget]
      exact hboth.1
    · unfold OpenSpans.Has
      rw [hget]
      exact hboth.2
  · rintro ⟨hne, id, hs, ht⟩
    exact overlap_of_has hs ht hne

-- ========================================================= allocation

/-- What is known of the slots of spans. -/
structure SlotsAllocated (g : Graph) (root : NodeId)
    (allocation : SpanAllocation) : Prop where
  /-- Spans carried to one node do not share a slot. -/
  apart : ∀ a s t slot, g.Carries root a s → g.Carries root a t →
    allocation.slot? s = some slot → allocation.slot? t = some slot → s = t
  /-- The spans of a slot are listed. -/
  listed : ∀ s slot, allocation.slot? s = some slot →
    ∃ sharing, allocation.sharing[slot]? = some sharing ∧ s ∈ sharing

/-- A span is listed with its slot. -/
private theorem mem_of_slot {slots : List (SpanId × Nat)} {slot : Nat}
    (h : (slots.mergeSort fun a b => a.1 ≤ b.1).lookup s = some slot) :
    (s, slot) ∈ slots := by
  obtain ⟨front, back, happend, _⟩ := List.lookup_eq_some_iff.mp h
  have hmem : (s, slot) ∈ slots.mergeSort fun a b => a.1 ≤ b.1 := by
    rw [happend]
    exact List.mem_append_right _ List.mem_cons_self
  exact (List.mergeSort_perm slots _).mem_iff.mp hmem

/-- There are more slots than the number of any. -/
private theorem lt_count {used : List Nat} {slot : Nat} (h : slot ∈ used) :
    slot < match used.max? with
      | some last => last + 1
      | none => 0 := by
  have hle := List.le_max?_get_of_mem h
  cases hmax : used.max? with
  | none =>
      rw [List.max?_eq_none_iff.mp hmax] at h
      cases h
  | some last =>
      simp only [hmax, Option.get_some] at hle
      exact Nat.lt_succ_of_le hle

theorem Sound.slotsAllocated (hg : g.Sound) {allocation : SpanAllocation}
    (hok : g.allocateSpans root = .ok allocation) :
    g.SlotsAllocated root allocation := by
  obtain ⟨spans, hopen, hrest⟩ := ok_of_bind hok
  obtain ⟨⟨⟩, _, hslots⟩ := ok_of_bind hrest
  obtain rfl := Except.ok.inj hslots
  have hactivity := activity_openSpans hg hopen
  have hcolored : Colored spans
      (assignSlots spans (g.slotOrder (g.startedSpans root)) []) :=
    Colored.assign fun _ hx => nomatch hx
  generalize assignSlots spans (g.slotOrder (g.startedSpans root)) []
    = slots at hcolored
  exact {
    apart := fun a s t slot hs ht hslot hslot' => by
      by_contra hne
      have hover := overlap_of_has ((hactivity.has_iff a s).mpr hs)
        ((hactivity.has_iff a t).mpr ht)
        hne
      rw [hcolored _ (mem_of_slot hslot) _ (mem_of_slot hslot') rfl] at hover
      cases hover
    listed := fun s slot hslot => by
      have hmem := mem_of_slot hslot
      have hused : slot ∈ slots.map (·.2) := List.mem_map_of_mem hmem
      refine ⟨(slots.filter fun entry => entry.2 == slot).map (·.1), ?_, ?_⟩
      · rw [List.getElem?_map, List.getElem?_range]
        · rfl
        · exact lt_count hused
      · exact List.mem_map_of_mem
          (List.mem_filter.mpr ⟨hmem, beq_self_eq_true slot⟩) }

end Graph

end Bytewise
