import ScriptTree.Proofs.Edit.Bounds
import ScriptTree.Proofs.Workspace.Places

/-!
# Clones as bodies of functions

A clone that becomes the body of a function moves twice.  First the copy is put into the slot where its source stands in
the text, and the function takes its end from there; then the copy gets the span of its source as it is written, which is
relative to the function from now on.  So the function ends with the source, not with its body
(`Workspace.cloneSubtree_body_bounds`), unless both end at the same place.
-/

namespace ScriptTree

open Arena

namespace Arena

/-! ### Where copies stand -/

/-- The copy of the root of a subtree stands where the root stands. -/
theorem CopyOf.bounds_root {source dest b : Arena} {root : Handle} {order : List Handle}
    (h : source.CopyOf dest root order b) (hs : source.WellFormed) (hl : source.Listing [root] order)
    (hd : dest.WellFormed) : b.bounds ⟨dest.size⟩ = source.bounds root := by
  have hroot : root ∈ order := hl.subset List.mem_cons_self
  have hplace := h.place_copy hs hl hd hroot
  have hnode := h.node?_copy root hroot
  rw [hl.imageOf_root] at hplace hnode
  obtain ⟨node, hn⟩ := mem_iff_node?.mp (hl.mem hroot)
  rw [bounds, bounds, hplace, extent, extent, hnode, hn]
  rfl

section Spanned

variable {a : Arena} {h x p : Handle} {span : Span}

/-- A span that is written as it is counts from the parent. -/
theorem WellFormed.bounds_spanned_self (hw : a.WellFormed) (hp : a.parent? h = some p) :
    (a.spanned h span).bounds h =
      ((a.spanned h span).place p + span.position, (a.spanned h span).place p + span.stop) := by
  have hwb := (sameTrees_spanned a h span).wellFormed hw
  obtain ⟨node, hn⟩ := mem_iff_node?.mp (mem_of_parent? hp)
  have hnode : (a.spanned h span).node? h = some { node with span } := by
    rw [spanned, node?_update, if_pos rfl, hn, Option.map_some]
  have hlink : (a.spanned h span).parent? h = some p := ((sameTrees_spanned a h span).parent?_eq h).trans hp
  rw [bounds, hwb.rooted.place_of_parent? hlink]
  simp only [offset, extent, hnode, Option.map_some, Option.getD_some, Span.stop, Prod.mk.injEq]
  omega

end Spanned

/-- A function has a slot for its body. -/
theorem exists_hasSingle_body {a : Arena} {f : Handle} (hk : a.variant f = .ok .function) :
    ∃ old, a.HasSingle f .body old := by
  obtain ⟨p, hp, hvariant⟩ := bind_eq_ok_iff.mp hk
  obtain ⟨node, hn, rfl⟩ := payload_eq_ok_iff.mp hp
  cases hpayload : node.payload with
  | function parts => exact ⟨parts.body, node, hn, by rw [hpayload]; rfl⟩
  | _ =>
    rw [hpayload] at hvariant
    cases hvariant

/-- A function fits its body if it ends where the body ends, or both lie before its start. -/
theorem WellFormed.fits_function_iff {a : Arena} (hw : a.WellFormed) {f c : Handle}
    (hk : a.kind? f = some (.function, false)) (hs : a.HasSingle f .body (some c)) :
    a.Fits f ↔ a.bounds f = (a.place f, max (a.place f) (a.bounds c).2) := by
  have hcomposite := hw.compositeBounds_function (variant_of_kind? hk) hs
  constructor
  · intro hfits
    exact hfits (isFixed_of_kind? hk) _ _ hcomposite
  · intro hbounds _ start stop hb
    rw [hcomposite] at hb
    cases hb
    exact hbounds

end Arena

namespace Edit

/-- The clone of a subtree that becomes the body of a function keeps its span, which counts from the function from now on.
The function ends where the source of the clone ends, if it does not start behind that. -/
theorem run_cloneSubtree_body {a : Arena} (hw : a.WellFormed) {n f : Handle} {order : List Handle} {source : Node}
    (horder : a.preOrder n = .ok order) (hn : a.node? n = some source) (hk : a.kind? f = some (.function, false)) :
    ∃ b, cloneSubtree n (some (f, .body)) a = .ok (.ofOrder a.size order) b ∧ b.WellFormed ∧
      b.kind? f = some (.function, false) ∧ b.HasSingle f .body (some ⟨a.size⟩) ∧
      b.bounds f = (a.place f, max (a.place f) (a.bounds n).2) ∧
      b.bounds ⟨a.size⟩ = (a.place f + source.span.position, a.place f + source.span.stop) := by
  have hl := listing_of_preOrder horder
  obtain ⟨old, hs⟩ := exists_hasSingle_body (variant_of_kind? hk)
  obtain ⟨copied, node, hcopy, hn', hwb, hrun⟩ := run_cloneSubtree_single hw horder hs
  obtain rfl : source = node := Option.some.inj (hn.symm.trans hn')
  have hf : f ∈ a := mem_of_node? hs.choose_spec.1
  have hnew : (⟨a.size⟩ : Handle) ∉ a := Nat.lt_irrefl a.size
  have hne : f ≠ ⟨a.size⟩ := fun h => hnew (h ▸ hf)
  have hwc := hcopy.wellFormed hw hl hw
  have hc := hcopy.root_mem hl
  have hsame : SameText (fun _ => False) (fun _ => False) a copied := hcopy.sameText hw
  obtain ⟨path, hpath, hcpath⟩ := hcopy.exists_ascent hw hf
  have hsc := hs.of_node?_eq (hcopy.node?_old f hf)
  have hold : old ≠ some ⟨a.size⟩ := by
    rintro rfl
    exact hnew (hw.child_mem f hf _ hs.mem_handlesAt)
  have hkc := (hsame.kind?_eq f hf).trans hk
  -- the copy becomes the body while it stands where its source stands
  obtain ⟨-, hbounds⟩ := hwc.filled_body hkc hsc hold hc hpath hcpath
  have hholds : (copied.filled f .body ⟨a.size⟩ old).HasSingle f .body (some ⟨a.size⟩) :=
    child_eq_ok_iff.mp (hwc.replaced_some hsc hold hc hpath hcpath).holds
  have hfilled : SameText (fun _ => False) (· = f) a (copied.filled f .body ⟨a.size⟩ old) :=
    (hcopy.sameText hw).trans (hwc.sameText_filled hsc hold hc hpath hcpath fun _ _ => rfl)
  have hparent := hwb.mem_handlesAt_iff.mp hholds.mem_handlesAt
  have hspanned := hfilled.spanned hw.rooted hwb.rooted hnew (fun x hx => hcopy.parent?_filled hc hx) source.span
  have hnode := node?_spanned (copied.filled f .body ⟨a.size⟩ old) source.span hne
  have hplace := hspanned.place_eq f hf not_false
  refine ⟨_, hrun, (sameTrees_spanned _ _ _).wellFormed hwb, ?_, hholds.of_node?_eq hnode, ?_, ?_⟩
  · exact (hspanned.kind?_eq f hf).trans hk
  · have hfills := hbounds f (hsame.mem f hf)
    rw [if_pos rfl, hsame.place_eq f hf not_false, hcopy.bounds_root hw hl hw] at hfills
    rw [← hfills, bounds, bounds, hplace, hfilled.place_eq f hf not_false, extent, extent, hnode]
  · rw [hwb.bounds_spanned_self hparent, hplace]

end Edit

namespace Workspace

/-- Cloning a subtree into the body of a function.  The function reaches to the end of the source of the clone, while the
clone has its position counted from the function.  So the bounds of the function are those of its body exactly if both
ends give the same function. -/
theorem cloneSubtree_body_bounds {w : Workspace} (reachable : w.Reachable) {i : Nat} {a : Arena} (hi : w.arena? i = some a)
    {n f : Handle} {order : List Handle} (horder : a.preOrder n = .ok order)
    (hf : ∃ node, a.get f = .ok node ∧ node.payload.variant = .function ∧ node.fixedPosition = false) :
    ∃ map w' b source start before first stop,
      w.edit? i (Edit.cloneSubtree n (some (f, .body))) = some (.ok map, w') ∧ w'.arena? i = some b ∧
      a.get n = .ok source ∧ a.absoluteBounds f = .ok (start, before) ∧ a.absoluteBounds n = .ok (first, stop) ∧
      b.child f .body = .ok (some map.root) ∧ b.absoluteBounds f = .ok (start, max start stop) ∧
      b.absoluteBounds map.root = .ok (start + source.span.position, start + source.span.stop) ∧
      (w'.edit? i (Edit.recomputeBounds f) = some (.ok (), w') ↔
        max start stop = max start (start + source.span.stop)) := by
  have hw := reachable.wellFormed.arena hi
  have hk := kind?_eq_some_iff.mpr hf
  have hfa : f ∈ a := mem_of_node? (get_eq_ok_iff.mp hf.choose_spec.1)
  have hl := listing_of_preOrder horder
  have hn : n ∈ a := hl.mem (hl.subset List.mem_cons_self)
  obtain ⟨source, hsource⟩ := mem_iff_node?.mp hn
  obtain ⟨b, hrun, hwb, hkb, hholds, hself, hbody⟩ := Edit.run_cloneSubtree_body hw horder hsource hk
  have hb := arena?_put_self hi b
  have hfb : f ∈ b := mem_of_node? hholds.choose_spec.1
  have hcb : (⟨a.size⟩ : Handle) ∈ b := hholds.child_mem hwb
  have hstart : b.place f = a.place f := congrArg Prod.fst hself
  refine ⟨_, _, b, source, a.place f, _, _, (a.bounds n).2, edit?_of_ok hi hrun, hb, get_eq hsource,
    hw.rooted.absoluteBounds_eq hfa, hw.rooted.absoluteBounds_eq hn, hholds.child_eq,
    hwb.rooted.absoluteBounds_eq_ok_iff.mpr ⟨hfb, hself⟩, hwb.rooted.absoluteBounds_eq_ok_iff.mpr ⟨hcb, hbody⟩, ?_⟩
  rw [edit?_recomputeBounds_eq_self_iff hb hwb hfb, hwb.fits_function_iff hkb hholds, hself, hbody, hstart,
    Prod.mk.injEq]
  exact and_iff_right rfl

/-- A function with a block as its body, and another block further down in the source. -/
def laterBlockRun : List Action :=
  [.addArena {}, .command 0 (.alloc (.block []) { position := 20, length := 5 }),
    .command 0 (.construct (.function none [] ⟨0⟩ { position := 10, length := 0 })),
    .command 0 (.alloc (.block []) { position := 30, length := 4 })]

/-- The clone of the other block stands at 40 when it is the body, while the function ends at 34, where the other block
ends. -/
theorem cloneSubtree_body_bounds_laterBlockRun :
    ∃ map w' b, (({} : Workspace).performAll laterBlockRun).edit? 0 (Edit.cloneSubtree ⟨2⟩ (some (⟨1⟩, .body))) =
        some (.ok map, w') ∧ w'.arena? 0 = some b ∧ b.child ⟨1⟩ .body = .ok (some map.root) ∧
      b.absoluteBounds ⟨1⟩ = .ok (10, 34) ∧ b.absoluteBounds map.root = .ok (40, 44) ∧
      w'.edit? 0 (Edit.recomputeBounds ⟨1⟩) ≠ some (.ok (), w') := by
  have hreach : (({} : Workspace).performAll laterBlockRun).Reachable := ⟨laterBlockRun, by decide, rfl⟩
  obtain ⟨a, ha, hlisting, hfunction, hsource, hf, hn⟩ : ∃ a,
      (({} : Workspace).performAll laterBlockRun).arena? 0 = some a ∧ a.Listing [⟨2⟩] [⟨2⟩] ∧
        (∃ node, a.get ⟨1⟩ = .ok node ∧ node.payload.variant = .function ∧ node.fixedPosition = false) ∧
        (∃ node, a.get ⟨2⟩ = .ok node ∧ node.span = { position := 30, length := 4 }) ∧
        a.absoluteBounds ⟨1⟩ = .ok (10, 25) ∧ a.absoluteBounds ⟨2⟩ = .ok (30, 34) :=
    ⟨_, rfl, .cons rfl .nil .nil, ⟨_, rfl, rfl, rfl⟩, ⟨_, rfl, rfl⟩, rfl, rfl⟩
  have horder := (hreach.wellFormed.arena ha).preOrder_eq_ok_iff.mpr hlisting
  obtain ⟨map, w', b, source, start, before, first, stop, hrun, hb, hget, hf', hn', hbody, hself, hroot, hiff⟩ :=
    cloneSubtree_body_bounds hreach ha horder hfunction
  obtain ⟨node, hnode, hspan⟩ := hsource
  rw [hnode] at hget
  cases hget
  rw [hf] at hf'
  cases hf'
  rw [hn] at hn'
  cases hn'
  rw [hspan] at hroot hiff
  exact ⟨map, w', b, hrun, hb, hbody, hself, hroot, fun hagain => absurd (hiff.mp hagain) (by decide)⟩

end Workspace

end ScriptTree
