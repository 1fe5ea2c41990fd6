import ScriptTree.Proofs.Edit.Bounds
import ScriptTree.Proofs.Workspace.Places

/-!
# Passes over bounds

The bounds that are recomputed for a node depend on its own bounds and on those of its children, so they stay right as
long as no child is recomputed after it (`WellFormed.fits_recomputed_of_ne`).  Hence a pass that takes children before
their parents leaves every node on its way with the bounds that its children ask for (`WellFormed.fits_recomputedEach`),
and no further pass over these nodes changes anything.
-/

namespace ScriptTree

namespace Edit

/-- Recomputes the bounds of some nodes, one after the other. -/
def recomputeEach : List Handle → Edit Unit
  | [] => return ()
  | h :: rest => do
    recomputeBounds h
    recomputeEach rest

end Edit

namespace Arena

/-- A list of nodes in which no child stands behind its parent. -/
def ChildrenFirst (a : Arena) (order : List Handle) : Prop := order.Pairwise fun h x => a.parent? x ≠ some h

instance (a : Arena) (order : List Handle) : Decidable (a.ChildrenFirst order) :=
  inferInstanceAs (Decidable (order.Pairwise fun h x => a.parent? x ≠ some h))

def recomputedEach (a : Arena) (hs : List Handle) : Arena := hs.foldl recomputed a

section Passes

variable {a : Arena} {h x : Handle} {hs : List Handle}

theorem sameTrees_recomputedEach (a : Arena) (hs : List Handle) : a.SameTrees (a.recomputedEach hs) := by
  induction hs generalizing a with
  | nil => exact .refl a
  | cons h hs ih => exact (sameTrees_recomputed a h).trans (ih _)

theorem ChildrenFirst.recomputed (hfirst : a.ChildrenFirst hs) (h : Handle) : (a.recomputed h).ChildrenFirst hs :=
  List.Pairwise.imp (fun hx => by rwa [(sameTrees_recomputed a h).parent?_eq]) hfirst

/-- A node that fits its children still does when another node has been recomputed, unless that is one of them. -/
theorem WellFormed.fits_recomputed_of_ne (hw : a.WellFormed) (hh : h ∈ a) (hx : x ∈ a) (hne : x ≠ h)
    (hchild : a.parent? h ≠ some x) (hfits : a.Fits x) : (a.recomputed h).Fits x := by
  have hwb := (sameTrees_recomputed a h).wellFormed hw
  obtain ⟨node, hn⟩ := mem_iff_node?.mp hx
  obtain ⟨node', hn', hpayload, hkept⟩ := exists_node?_recomputed h hn
  have hself := hw.bounds_recomputed_of_ne hh hx hne
  have hchildren : ∀ c ∈ node.payload.handles, (a.recomputed h).bounds c = a.bounds c := by
    intro c hc
    rw [← handlesAt_eq hn] at hc
    have hch : c ≠ h := fun hch => hchild (hch ▸ hw.mem_handlesAt_iff.mp hc)
    exact hw.bounds_recomputed_of_ne hh (hw.child_mem x hx c hc) hch
  intro hfree start stop hb
  rw [hwb.compositeBounds_eq hn', hpayload, Payload.asked?_congr hchildren, hself, ← hw.compositeBounds_eq hn] at hb
  rw [hself]
  exact hfits (by simpa [isFixed, hn, hn', hkept] using hfree) start stop hb

/-- After a pass that takes children before their parents a node fits its children if the pass has taken it, or if it did
so before and no child of it was taken. -/
theorem WellFormed.fits_recomputedEach (hw : a.WellFormed) (hmem : ∀ h ∈ hs, h ∈ a) (hfirst : a.ChildrenFirst hs)
    (hx : x ∈ a) (h : x ∈ hs ∨ a.Fits x ∧ ∀ y ∈ hs, a.parent? y ≠ some x) : (a.recomputedEach hs).Fits x := by
  induction hs generalizing a with
  | nil => exact (h.resolve_left List.not_mem_nil).1
  | cons y hs ih =>
    have hsame := sameTrees_recomputed a y
    have hy := hmem y List.mem_cons_self
    obtain ⟨hlater, hrest⟩ := List.pairwise_cons.mp hfirst
    refine ih (hsame.wellFormed hw) (fun z hz => hsame.mem_iff.mpr (hmem z (List.mem_cons_of_mem _ hz)))
      (ChildrenFirst.recomputed hrest y) (hsame.mem_iff.mpr hx) ?_
    simp only [hsame.parent?_eq]
    by_cases hxs : x ∈ hs
    · exact .inl hxs
    · refine .inr ?_
      by_cases hxy : x = y
      · subst hxy
        exact ⟨hw.fits_recomputed hx, hlater⟩
      · obtain ⟨hfits, hnone⟩ := h.resolve_left (by simp [hxy, hxs])
        exact ⟨hw.fits_recomputed_of_ne hy hx hxy (hnone y List.mem_cons_self) hfits,
          fun z hz => hnone z (List.mem_cons_of_mem _ hz)⟩

/-- A pass over nodes that fit their children changes nothing. -/
theorem WellFormed.recomputedEach_eq_self (hw : a.WellFormed) (hmem : ∀ h ∈ hs, h ∈ a) (hfits : ∀ h ∈ hs, a.Fits h) :
    a.recomputedEach hs = a := by
  induction hs with
  | nil => rfl
  | cons h hs ih =>
    have hself := (hw.recomputed_eq_self_iff (hmem h List.mem_cons_self)).mpr (hfits h List.mem_cons_self)
    rw [recomputedEach, List.foldl_cons, hself]
    exact ih (fun x hx => hmem x (List.mem_cons_of_mem _ hx)) fun x hx => hfits x (List.mem_cons_of_mem _ hx)

end Passes

end Arena

namespace Edit

open Arena

theorem run_recomputeEach {a : Arena} (hw : a.WellFormed) {hs : List Handle} (hmem : ∀ h ∈ hs, h ∈ a) :
    recomputeEach hs a = .ok () (a.recomputedEach hs) := by
  induction hs generalizing a with
  | nil => rfl
  | cons h hs ih =>
    have hsame := sameTrees_recomputed a h
    rw [recomputeEach, run_bind_of_ok (run_recomputeBounds hw (hmem h List.mem_cons_self))]
    exact ih (hsame.wellFormed hw) fun x hx => hsame.mem_iff.mpr (hmem x (List.mem_cons_of_mem _ hx))

end Edit

namespace Arena

section Fits

variable {a : Arena} {h : Handle} {node : Node}

theorem WellFormed.hasPlace_of_fits (hw : a.WellFormed) (hn : a.node? h = some node) (hfree : node.fixedPosition = false)
    (hfits : a.Fits h) {start stop : Int}
    (hask : node.payload.asked? a.bounds (a.bounds h).1 (a.bounds h).2 = some (start, stop)) :
    a.HasPlace h start (max 0 (stop - start)) := by
  have hcomposite := (hw.compositeBounds_eq hn).trans (congrArg Except.ok hask)
  have hbounds := hfits (by simpa [isFixed, hn] using hfree) start stop hcomposite
  obtain ⟨hplace, hextent⟩ := bounds_eq_iff.mp hbounds
  rw [← hextent, ← hplace]
  exact hw.rooted.hasPlace (mem_of_node? hn)

/-- An operation that fits its operands reaches from the start of the left one to the end of the right one. -/
theorem WellFormed.hasPlace_operation (hw : a.WellFormed) (hn : a.node? h = some node) (hfree : node.fixedPosition = false)
    (hfits : a.Fits h) {o : Operation} {left right : Handle} (ho : node.payload.operation? = some o)
    (hleft : o.left = some left) (hright : o.right = some right) :
    ∃ start first last stop, a.absoluteBounds left = .ok (start, first) ∧ a.absoluteBounds right = .ok (last, stop) ∧
      a.HasPlace h start (max 0 (stop - start)) := by
  have hchild : ∀ c ∈ node.payload.handles, a.absoluteBounds c = .ok (a.bounds c) := by
    intro c hc
    rw [← handlesAt_eq hn] at hc
    exact hw.rooted.absoluteBounds_eq (hw.child_mem h (mem_of_node? hn) c hc)
  obtain ⟨hl, hr⟩ := Payload.single?_of_operation? ho
  rw [hleft] at hl
  rw [hright] at hr
  exact ⟨_, _, _, _, hchild left (Payload.mem_handles_of_single? hl), hchild right (Payload.mem_handles_of_single? hr),
    hw.hasPlace_of_fits hn hfree hfits (Payload.asked?_of_operation? ho hleft hright _ _ _)⟩

/-- A function that fits its body ends with it. -/
theorem WellFormed.hasPlace_function (hw : a.WellFormed) (hn : a.node? h = some node) (hfree : node.fixedPosition = false)
    (hfits : a.Fits h) {f : FunctionParts} {body : Handle} (hf : node.payload = .function f) (hbody : f.body = some body) :
    ∃ start first stop, a.absoluteBounds body = .ok (first, stop) ∧ a.HasPlace h start (max 0 (stop - start)) := by
  have hmem : body ∈ a.handlesAt h := by
    rw [handlesAt_eq hn, hf]
    exact Payload.mem_handles_of_single? (s := .body) (congrArg some hbody)
  have hask : node.payload.asked? a.bounds (a.bounds h).1 (a.bounds h).2 =
      some ((a.bounds h).1, (a.bounds body).2) := by
    rw [hf, Payload.asked?, hbody, Option.map_some]
  exact ⟨_, _, _, hw.rooted.absoluteBounds_eq (hw.child_mem h (mem_of_node? hn) body hmem),
    hw.hasPlace_of_fits hn hfree hfits hask⟩

end Fits

end Arena

namespace Workspace

open Arena

variable {w : Workspace} {i : Nat} {a : Arena}

theorem edit?_recomputeEach_eq_self (hi : w.arena? i = some a) (hw : a.WellFormed) {hs : List Handle}
    (hmem : ∀ h ∈ hs, h ∈ a) (hfits : ∀ h ∈ hs, a.Fits h) :
    w.edit? i (Edit.recomputeEach hs) = some (.ok (), w) := by
  rw [edit?_of_ok hi (Edit.run_recomputeEach hw hmem), hw.recomputedEach_eq_self hmem hfits, put_self hi]

/-- Recomputing the bounds of a node succeeds, and doing it twice is doing it once.  After a pass that takes children
before their parents, as over the nodes of a subtree, any further passes over these nodes change nothing, and the nodes
whose extents are not fixed reach as far as their children. -/
theorem recomputeEach_settles (reachable : w.Reachable) (hi : w.arena? i = some a) :
    (∀ h ∈ a, ∃ w', w.edit? i (Edit.recomputeBounds h) = some (.ok (), w') ∧
      w'.edit? i (Edit.recomputeBounds h) = some (.ok (), w')) ∧
    ∀ order, (∀ h ∈ order, h ∈ a) → a.ChildrenFirst order →
      ∃ w' b, w.edit? i (Edit.recomputeEach order) = some (.ok (), w') ∧ w'.arena? i = some b ∧
        (∀ again, (∀ h ∈ again, h ∈ order) → w'.edit? i (Edit.recomputeEach again) = some (.ok (), w')) ∧
        ∀ h ∈ order, ∀ node, b.get h = .ok node → node.fixedPosition = false →
          (∀ o left right, node.payload.operation? = some o → o.left = some left → o.right = some right →
            ∃ start first last stop, b.absoluteBounds left = .ok (start, first) ∧
              b.absoluteBounds right = .ok (last, stop) ∧ b.HasPlace h start (max 0 (stop - start))) ∧
          ∀ f body, node.payload = .function f → f.body = some body →
            ∃ start first stop, b.absoluteBounds body = .ok (first, stop) ∧
              b.HasPlace h start (max 0 (stop - start)) := by
  have hw := reachable.wellFormed.arena hi
  constructor
  · intro h hh
    have hsame := sameTrees_recomputed a h
    refine ⟨_, edit?_of_ok hi (Edit.run_recomputeBounds hw hh), ?_⟩
    exact (edit?_recomputeBounds_eq_self_iff (arena?_put_self hi _) (hsame.wellFormed hw) (hsame.mem_iff.mpr hh)).mpr
      (hw.fits_recomputed hh)
  · intro order hmem hfirst
    have hsame := sameTrees_recomputedEach a order
    have hwb := hsame.wellFormed hw
    have hfits : ∀ h ∈ order, (a.recomputedEach order).Fits h :=
      fun h hh => hw.fits_recomputedEach hmem hfirst (hmem h hh) (.inl hh)
    have hb := arena?_put_self hi (a.recomputedEach order)
    refine ⟨_, _, edit?_of_ok hi (Edit.run_recomputeEach hw hmem), hb, fun again hagain => ?_, ?_⟩
    · exact edit?_recomputeEach_eq_self hb hwb (fun h hh => hsame.mem_iff.mpr (hmem h (hagain h hh)))
        fun h hh => hfits h (hagain h hh)
    · intro h hh node hnode hfree
      have hn := get_eq_ok_iff.mp hnode
      exact ⟨fun o left right ho hleft hright => hwb.hasPlace_operation hn hfree (hfits h hh) ho hleft hright,
        fun f body hf hbody => hwb.hasPlace_function hn hfree (hfits h hh) hf hbody⟩

/-- A sum whose left operand has been replaced by a name further up in the source. -/
def replacedOperandRun : List Action :=
  [.addArena {}, .command 0 (.alloc (.name "x") { position := 6, length := 1 }),
    .command 0 (.alloc (.name "y") { position := 10, length := 1 }),
    .command 0 (.construct (.infixExpression .add ⟨0⟩ ⟨1⟩ (-1))),
    .command 0 (.alloc (.name "z") { position := 2, length := 1 }),
    .command 0 (.setChild ⟨2⟩ .left (some ⟨3⟩))]

/-- After a pass the sum starts with the new name, and it does not change any more. -/
theorem recomputeEach_settles_replacedOperandRun :
    ∃ a w' b, (({} : Workspace).performAll replacedOperandRun).arena? 0 = some a ∧
      (∀ h ∈ [(⟨3⟩ : Handle), ⟨1⟩, ⟨2⟩], h ∈ a) ∧ a.ChildrenFirst [⟨3⟩, ⟨1⟩, ⟨2⟩] ∧
      (({} : Workspace).performAll replacedOperandRun).edit? 0 (Edit.recomputeEach [⟨3⟩, ⟨1⟩, ⟨2⟩]) =
        some (.ok (), w') ∧ w'.arena? 0 = some b ∧ a.HasPlace ⟨2⟩ 6 5 ∧ b.HasPlace ⟨2⟩ 2 9 ∧
      w'.edit? 0 (Edit.recomputeEach [⟨2⟩, ⟨3⟩, ⟨2⟩]) = some (.ok (), w') := by
  have hreach : (({} : Workspace).performAll replacedOperandRun).Reachable := ⟨replacedOperandRun, by decide, rfl⟩
  obtain ⟨a, w₁, b, node, o, ha, hmem, hfirst, hrun, hb, hplace, hnode, ho, hleft, hright, hfree, hstart, hstop⟩ :
      ∃ a w₁ b node o, (({} : Workspace).performAll replacedOperandRun).arena? 0 = some a ∧
        (∀ h ∈ [(⟨3⟩ : Handle), ⟨1⟩, ⟨2⟩], h ∈ a) ∧ a.ChildrenFirst [⟨3⟩, ⟨1⟩, ⟨2⟩] ∧
        (({} : Workspace).performAll replacedOperandRun).edit? 0 (Edit.recomputeEach [⟨3⟩, ⟨1⟩, ⟨2⟩]) =
          some (.ok (), w₁) ∧ w₁.arena? 0 = some b ∧ a.HasPlace ⟨2⟩ 6 5 ∧ b.get ⟨2⟩ = .ok node ∧
        node.payload.operation? = some o ∧ o.left = some ⟨3⟩ ∧ o.right = some ⟨1⟩ ∧ node.fixedPosition = false ∧
        b.absoluteBounds ⟨3⟩ = .ok (2, 3) ∧ b.absoluteBounds ⟨1⟩ = .ok (10, 11) :=
    ⟨_, _, _, _, _, rfl, by decide, by decide, rfl, rfl, ⟨rfl, _, rfl, rfl⟩, rfl, rfl, rfl, rfl, rfl, rfl, rfl⟩
  obtain ⟨w', b', hrun', hb', hagain, hreaches⟩ := (recomputeEach_settles hreach ha).2 _ hmem hfirst
  rw [hrun] at hrun'
  cases hrun'
  rw [hb] at hb'
  cases hb'
  obtain ⟨start, first, last, stop, hl, hr, hself⟩ :=
    (hreaches ⟨2⟩ (by decide) node hnode hfree).1 o _ _ ho hleft hright
  rw [hstart] at hl
  cases hl
  rw [hstop] at hr
  cases hr
  exact ⟨a, w₁, b, ha, hmem, hfirst, hrun, hb, hplace, hself, hagain _ (by decide)⟩

end Workspace

end ScriptTree
