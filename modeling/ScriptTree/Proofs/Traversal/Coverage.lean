import ScriptTree.Proofs.Workspace

/-!
# Every node is listed once

Walks go down along the slots, and roots are read off the parent links.  In a well-formed arena both agree.  As each
ascent ends at one root (`Ascent.countP_roots`), the subtrees of all roots together have each node of the arena once
(`Subtrees.perm_handles`), and without holes they are what the walks list (`Listing.mapM_preOrder`).
-/

namespace ScriptTree

namespace Arena

variable {a : Arena}

/-! ### Roots -/

theorem nodup_handles (a : Arena) : a.handles.Nodup :=
  List.nodup_range.map fun _ _ h => congrArg Handle.index h

theorem nodup_roots (a : Arena) : a.roots.Nodup := a.nodup_handles.filter _

theorem mem_roots {h : Handle} : h ∈ a.roots ↔ h ∈ a ∧ a.parent? h = none := by
  rw [roots, List.mem_filter, mem_handles, Arena.mem_iff, parent?, node?]
  refine and_congr_right fun hh => ?_
  rw [Array.getElem?_eq_getElem hh]
  simp

/-- An ascent passes one root, its last node. -/
theorem Ascent.countP_roots {x : Handle} {path : List Handle} (hp : a.Ascent x path) :
    a.roots.countP (· ∈ path) = 1 := by
  induction hp with
  | @root h mem top =>
    rw [countP_mem_cons List.not_mem_nil, a.nodup_roots.count, if_pos (mem_roots.mpr ⟨mem, top⟩)]
    simp
  | @step h p path link rest ih =>
    have hroot : h ∉ a.roots := fun hm => by simp [(mem_roots.mp hm).2] at link
    rw [countP_mem_cons (rest.not_mem_of_parent? link), ih, List.count_eq_zero.mpr hroot]

/-- The subtrees of all roots have every node of the arena once. -/
theorem Subtrees.perm_handles (hw : a.WellFormed) {xs : List Handle} (h : a.Subtrees a.roots xs) :
    xs.Perm a.handles := by
  rw [List.perm_iff_count]
  intro x
  rw [a.nodup_handles.count]
  by_cases hx : x ∈ a
  · obtain ⟨path, hp⟩ := hw.rooted x hx
    rw [h.count_eq hw hp, hp.countP_roots, if_pos (mem_handles.mpr hx)]
  · rw [List.count_eq_zero.mpr fun hm => hx (h.mem hm), if_neg fun hm => hx (mem_handles.mp hm)]

/-! ### Arenas without holes -/

/-- No required slot of any node is empty. -/
def HoleFree (a : Arena) : Prop := ∀ x, a.HoleFreeAt x

/-- A listing of siblings is made of the walks from each of them. -/
theorem Listing.mapM_preOrder (hw : a.WellFormed) {hs xs : List Handle} (h : a.Listing hs xs) :
    ∃ orders, hs.mapM a.preOrder = .ok orders ∧ orders.flatten = xs := by
  induction h with
  | nil => exact ⟨[], rfl, rfl⟩
  | @cons x hs cs xs ys hc below _ _ ihr =>
    obtain ⟨orders, hrun, rfl⟩ := ihr
    have hx : a.preOrder x = .ok (x :: (xs ++ [])) := hw.preOrder_eq_ok_iff.mpr (.cons hc below .nil)
    refine ⟨(x :: (xs ++ [])) :: orders, ?_, by simp⟩
    rw [List.mapM_cons, hx, hrun]
    rfl

/-- Without holes the walks from all roots succeed, and one after the other they list every node once. -/
theorem WellFormed.mapM_roots_preOrder (hw : a.WellFormed) (hfree : a.HoleFree) :
    ∃ orders, a.roots.mapM a.preOrder = .ok orders ∧ orders.flatten.Perm a.handles := by
  obtain ⟨xs, hxs⟩ := hw.exists_subtrees fun h hh => (mem_roots.mp hh).1
  obtain ⟨orders, hrun, rfl⟩ := (hxs.listing fun x _ => hole?_eq_none_iff.mpr (hfree x)).mapM_preOrder hw
  exact ⟨orders, hrun, hxs.perm_handles hw⟩

end Arena

/-! ### Reachable arenas -/

namespace Workspace

/-- The walk from a node lists the nodes that it is an ancestor of, each once and after its parent.  If no required slot
of the arena is empty, the walks from the roots together list every node of the arena once. -/
theorem preOrder_lists_once {w : Workspace} (reachable : w.Reachable) {i : Nat} {a : Arena} (ha : w.arena? i = some a) :
    (∀ (r : Handle) (order : List Handle), a.preOrder r = .ok order →
      order.Nodup ∧ order.head? = some r ∧ (∀ x, x ∈ order ↔ a.isAncestor r x = .ok true) ∧
        ∀ x ∈ order, x ≠ r → ∃ p ∈ order, a.parent x = .ok (some p) ∧ order.idxOf p < order.idxOf x) ∧
    (a.HoleFree → ∃ orders, a.roots.mapM a.preOrder = .ok orders ∧ orders.flatten.Perm a.handles) := by
  have hw := reachable.wellFormed.arena ha
  refine ⟨fun r order horder => ?_, hw.mapM_roots_preOrder⟩
  have hl := Arena.listing_of_preOrder horder
  refine ⟨hl.nodup hw, ?_, hl.subtrees.mem_iff_isAncestor hw, fun x hx hxr => ?_⟩
  · obtain ⟨below, rfl⟩ := hl.eq_cons
    rfl
  · obtain ⟨p, hp, hlink, hlt⟩ := hl.subtrees.exists_parent_before hw hx hxr
    exact ⟨p, hp, by rw [Arena.parent_eq (hl.mem hx), hlink], hlt⟩

/-- The block of the run stands above its statement and is the one root. -/
theorem preOrder_lists_once_blockRun :
    ∃ a, (({} : Workspace).performAll blockRun).arena? 0 = some a ∧ a.preOrder ⟨1⟩ = .ok [⟨1⟩, ⟨0⟩] ∧
      a.isAncestor ⟨1⟩ ⟨0⟩ = .ok true ∧ a.roots = [⟨1⟩] ∧
        ∃ orders, a.roots.mapM a.preOrder = .ok orders ∧ orders.flatten.Perm [⟨0⟩, ⟨1⟩] := by
  have hreach : (({} : Workspace).performAll blockRun).Reachable := ⟨blockRun, by decide, rfl⟩
  obtain ⟨a, ha, hlisting, hfree, hroots, hhandles⟩ : ∃ a, (({} : Workspace).performAll blockRun).arena? 0 = some a ∧
      a.Listing [⟨1⟩] [⟨1⟩, ⟨0⟩] ∧ a.HoleFree ∧ a.roots = [⟨1⟩] ∧ a.handles = [⟨0⟩, ⟨1⟩] := by
    refine ⟨_, rfl, .cons rfl (.cons rfl .nil .nil) .nil, ?_, rfl, rfl⟩
    rintro ⟨_ | _ | n⟩ node slot hget hslot
    · cases hget
      cases hslot
    · cases hget
      have hslot : ChildSlot.required slot none ∈ [ChildSlot.list .statements [⟨0⟩]] := hslot
      simp at hslot
    · cases hget
  have horder := (hreach.wellFormed.arena ha).preOrder_eq_ok_iff.mpr hlisting
  obtain ⟨hwalk, hall⟩ := preOrder_lists_once hreach ha
  refine ⟨a, ha, horder, ?_, hroots, hhandles ▸ hall hfree⟩
  exact ((hwalk ⟨1⟩ _ horder).2.2.1 ⟨0⟩).mp (by simp)

end Workspace

end ScriptTree
