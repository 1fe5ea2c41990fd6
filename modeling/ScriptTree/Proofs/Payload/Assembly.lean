import Mathlib.Data.List.Induction
import ScriptTree.Proofs.Payload.Slots

/-!
# Assembling a payload child by child

A payload is what one gets from the same payload without children by putting the children in one after the other, in the
order of a walk (`insertEach_placedHandles`), and at each step there is room for the next one (`hasRoom_insertEach`).
-/

namespace ScriptTree

namespace Payload

/-- The payload with some children put in one after the other. -/
def insertEach (p : Payload) (placed : List (Slot × Handle)) : Payload :=
  placed.foldl (fun p x => p.insertChild x.1 x.2) p

/-- The children among some placed ones that belong to one slot. -/
def placedAt (s : Slot) (placed : List (Slot × Handle)) : List Handle :=
  (placed.filter fun x => x.1 = s).map Prod.snd

theorem insertEach_append (p : Payload) (l r : List (Slot × Handle)) :
    p.insertEach (l ++ r) = (p.insertEach l).insertEach r :=
  List.foldl_append

@[simp] theorem placedAt_append (s : Slot) (l r : List (Slot × Handle)) :
    placedAt s (l ++ r) = placedAt s l ++ placedAt s r := by
  simp [placedAt]

/-- Children put in one after the other end up behind each other in a list; in a slot for a single child the last one
stays. -/
theorem insertEach_eq_overwrite (p : Payload) (placed : List (Slot × Handle)) :
    p.insertEach placed =
      p.overwrite (fun s c => (placedAt s placed).getLast?.or c) (fun s cs => cs ++ placedAt s placed) := by
  induction placed using List.reverseRecOn with
  | nil => simp [insertEach, placedAt, overwrite_self]
  | append_singleton l x ih =>
    rw [insertEach_append, ih]
    show insertChild _ x.1 x.2 = _
    rw [insertChild, overwrite_overwrite]
    refine overwrite_congr ?_ ?_
    · intro s c _
      by_cases hs : x.1 = s
      · simp [placedAt, hs]
      · simp [placedAt, hs, Ne.symm hs]
    · intro s cs _
      by_cases hs : x.1 = s
      · simp [placedAt, hs]
      · simp [placedAt, hs, Ne.symm hs]

theorem placedAt_placedHandles {p : Payload} {k : ChildSlot} (hk : k ∈ p.childSlots) :
    placedAt k.slot p.placedHandles = k.handles := by
  obtain ⟨l, r, h, hl, hr⟩ := childSlots_split hk
  have other : ∀ ks : List ChildSlot, (∀ k' ∈ ks, k'.slot ≠ k.slot) →
      placedAt k.slot (ks.flatMap fun c => c.handles.map fun h => (c.slot, h)) = [] := by
    intro ks hks
    simp only [placedAt, List.map_eq_nil_iff, List.filter_eq_nil_iff, List.mem_flatMap, List.mem_map]
    rintro x ⟨k', hk', c, -, rfl⟩
    simpa using hks k' hk'
  rw [placedHandles, h, List.flatMap_append, List.flatMap_cons, placedAt_append, placedAt_append, other l hl, other r hr]
  simp [placedAt, List.filter_map, Function.comp_def]

/-- A payload is assembled from its children. -/
theorem insertEach_placedHandles (p : Payload) : p.emptied.insertEach p.placedHandles = p := by
  conv => rhs; rw [← p.overwrite_self]
  rw [insertEach_eq_overwrite, emptied, overwrite_overwrite]
  refine overwrite_congr ?_ ?_
  · intro s c hc
    obtain ⟨k, hk, rfl, hsingle⟩ := single?_eq_some_iff.mp hc
    rw [placedAt_placedHandles hk]
    rw [ChildSlot.handles_of_single? hsingle]
    cases c <;> simp
  · intro s cs hcs
    obtain ⟨k, hk, rfl, hlist⟩ := list?_eq_some_iff.mp hcs
    rw [placedAt_placedHandles hk, ChildSlot.handles_of_list? hlist, List.nil_append]

/-- While a payload is assembled, there is room for the next child. -/
theorem hasRoom_insertEach {p : Payload} {l r : List (Slot × Handle)} {s : Slot} {c : Handle}
    (h : p.placedHandles = l ++ (s, c) :: r) : (p.emptied.insertEach l).HasRoom s := by
  have hmem : (s, c) ∈ p.placedHandles := by simp [h]
  obtain ⟨k, hk, hc⟩ := List.mem_flatMap.mp hmem
  obtain ⟨c', -, heq⟩ := List.mem_map.mp hc
  obtain rfl : k.slot = s := congrArg Prod.fst heq
  have hat := placedAt_placedHandles hk
  rw [h, placedAt_append] at hat
  rw [insertEach_eq_overwrite, emptied, overwrite_overwrite, HasRoom, single?_overwrite, list?_overwrite]
  cases hsingle : k.single? with
  | none =>
    right
    cases k with
    | required | optional => cases hsingle
    | list s cs => exact ⟨_, by rw [list?_eq_some_iff.mpr ⟨_, hk, rfl, rfl⟩]; rfl⟩
  | some d =>
    left
    -- the slot holds one child, and that one is still to come
    have hone : k.handles.length ≤ 1 := by
      rw [ChildSlot.handles_of_single? hsingle]
      cases d <;> simp
    have hnone : placedAt k.slot l = [] := by
      have hcons : (placedAt k.slot ((k.slot, c) :: r)).length = (placedAt k.slot r).length + 1 := by simp [placedAt]
      rw [← hat, List.length_append, hcons] at hone
      exact List.eq_nil_of_length_eq_zero (by omega)
    rw [single?_eq_some_iff.mpr ⟨k, hk, rfl, hsingle⟩, hnone]
    rfl

theorem map_snd_placedHandles (p : Payload) : p.placedHandles.map Prod.snd = p.handles := by
  simp [placedHandles, handles, List.map_flatMap, Function.comp_def]

@[simp] theorem handles_emptied (p : Payload) : p.emptied.handles = [] := by
  cases p <;> rfl

end Payload

end ScriptTree
