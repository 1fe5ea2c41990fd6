import ScriptTree.Proofs.Edit.Bounds

/-!
# Functions that follow their bodies

A function asks for its own start, so recomputing its bounds writes its length and nothing else
(`WellFormed.recomputed_function`).  Filling a slot for a single child is therefore two moves, and for the body of a
function one length more (`WellFormed.filled_eq`).
-/

namespace ScriptTree

namespace Arena

/-- The arena with another length of a node. -/
def lengthened (a : Arena) (h : Handle) (length : Int) : Arena :=
  a.update h fun node => { node with span := { node.span with length } }

section Views

variable {a : Arena} {h x : Handle}

theorem node?_lengthened (length : Int) (hx : x ≠ h) : (a.lengthened h length).node? x = a.node? x := by
  rw [lengthened, node?_update, if_neg hx]

theorem node?_lengthened_self {node : Node} (hn : a.node? h = some node) (length : Int) :
    (a.lengthened h length).node? h = some { node with span := { node.span with length } } := by
  rw [lengthened, node?_update, if_pos rfl, hn, Option.map_some]

theorem lengthened_extent (a : Arena) (h : Handle) : a.lengthened h (a.extent h) = a := by
  refine ext_node? rfl fun x => ?_
  by_cases hx : x = h
  · subst hx
    cases hn : a.node? x with
    | none => rw [lengthened, node?_update, if_pos rfl, hn, Option.map_none]
    | some node => rw [node?_lengthened_self hn, extent, hn, Option.map_some, Option.getD_some]
  · exact node?_lengthened _ hx

theorem sameTrees_lengthened (a : Arena) (h : Handle) (length : Int) : a.SameTrees (a.lengthened h length) :=
  .update (fun _ => rfl) fun _ _ => rfl

end Views

section Functions

variable {a : Arena} (hw : a.WellFormed) {o c : Handle} {s : Slot}

/-- A node that keeps its start keeps the positions of its children. -/
theorem repositioned_place (h : Handle) (stop : Int) :
    a.repositioned h (a.place h) stop = a.lengthened h (max 0 (stop - a.place h)) := by
  rw [repositioned, Int.sub_self, Int.neg_zero, shiftedEach_zero]
  simp only [Int.add_zero]
  rfl

include hw

theorem WellFormed.recomputed_function (hk : a.kind? o = some (.function, false)) (hs : a.HasSingle o .body (some c)) :
    a.recomputed o = a.lengthened o (max 0 ((a.bounds c).2 - a.place o)) := by
  have hcomposite := hw.compositeBounds_function (variant_of_kind? hk) hs
  rw [recomputed_eq_repositioned (isFixed_of_kind? hk) hcomposite, repositioned_place]

theorem WellFormed.settled_eq (hs : a.HasSingle o s (some c)) : a.settled o s =
    if s = .body ∧ a.kind? o = some (.function, false) then a.lengthened o (max 0 ((a.bounds c).2 - a.place o)) else a := by
  split
  · rename_i hbody
    obtain ⟨rfl, hk⟩ := hbody
    rw [settled, if_pos ⟨rfl, variant_of_kind? hk⟩, hw.recomputed_function hk hs]
  · rename_i hother
    unfold settled
    split
    · -- a function whose extent is fixed
      rename_i hbody
      obtain ⟨node, hn, -⟩ := hs
      have hfixed : a.isFixed o = true := by
        by_contra hfree
        have hvariant := hbody.2
        rw [variant_eq hn, Except.ok.injEq] at hvariant
        exact hother ⟨hbody.1, by simpa [kind?, hn, hvariant, isFixed] using hfree⟩
      rw [recomputed, if_pos hfixed]
    · rfl

/-- Filling a slot severs the old content and grafts the new one; if that is the body of a function, the function gets
another length. -/
theorem WellFormed.filled_eq {old : Option Handle} {path : List Handle} (hs : a.HasSingle o s old)
    (hold : old ≠ some c) (hc : c ∈ a) (ho : a.Ascent o path) (hpath : c ∉ path) :
    a.filled o s c old =
      if s = .body ∧ a.kind? o = some (.function, false) then
        (((a.severed c).severedEach old.toList).grafted o s c).lengthened o (max 0 ((a.bounds c).2 - a.place o))
      else ((a.severed c).severedEach old.toList).grafted o s c := by
  have hoc : o ≠ c := fun h => hpath (h ▸ ho.self_mem)
  have hsame : SameText (fun _ => False) (fun _ => False) a _ := hw.sameText_severedEach_grafted hs hold hc ho hpath
  have hsingle := HasSingle.grafted_self (c := c) (HasSingle.severedEach_self (hw.severed c) (hs.severed hoc hold))
  rw [filled, (hw.severedEach_grafted hs hold hc ho hpath).settled_eq hsingle, hsame.kind?_eq o ho.mem,
    hsame.bounds_eq hc not_false not_false, hsame.place_eq o ho.mem not_false]

end Functions

end Arena

end ScriptTree
