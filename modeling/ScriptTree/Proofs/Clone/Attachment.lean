import ScriptTree.Proofs.Clone.Outcome
import ScriptTree.Proofs.Edit.Lengths
import ScriptTree.Proofs.Traversal.Holes
import ScriptTree.Proofs.Workspace.Clones
import ScriptTree.Proofs.Workspace.Places

/-!
# Clones below a parent

A clone that is put below a parent is made first, as a tree of its own, and only then is its root moved into the slot.
So it does not matter whether the owner of the slot or the child that it displaces lies inside the source, or above it:
the copies are the same as without a target (`CopyOf.unique`), and of the nodes from before only the owner and the
displaced child are touched (`AttachedClone`).
-/

namespace ScriptTree

namespace Arena

/-- What is copied behind the nodes of an arena is fixed by the nodes that are copied. -/
theorem CopyOf.unique {source dest b b' : Arena} {root : Handle} {order : List Handle}
    (h : source.CopyOf dest root order b) (h' : source.CopyOf dest root order b') (hnd : order.Nodup) : b = b' := by
  refine ext_node? (h.ids_eq.trans h'.ids_eq.symm) fun x => ?_
  by_cases hx : x ∈ b
  · rcases h.old_or_copy hx hnd with hx | ⟨y, hy, rfl⟩
    · rw [h.node?_old x hx, h'.node?_old x hx]
    · rw [h.node?_copy y hy, h'.node?_copy y hy]
  · have hx' : x ∉ b' := by
      rwa [mem_iff, h'.size_eq, ← h.size_eq, ← mem_iff]
    rw [node?_eq_none hx, node?_eq_none hx']

/-! ### Roots that are attached -/

/-- The arena in which the root `c` has gone into the slot `s` of `o`, whose old content was severed.  It has a given
span, and `o` has a given length. -/
def attached (a : Arena) (o : Handle) (s : Slot) (c : Handle) (old : Option Handle) (length : Int) (span : Span) : Arena :=
  (((a.severedEach old.toList).grafted o s c).lengthened o length).spanned c span

section Attached

variable {a : Arena} {o c q x : Handle} {s : Slot} {old : Option Handle} {node : Node} (length : Int) (span : Span)

theorem attached_extent : a.attached o s c old (a.extent o) span =
    ((a.severedEach old.toList).grafted o s c).spanned c span := by
  have hextent : a.extent o = ((a.severedEach old.toList).grafted o s c).extent o := by
    rw [extent_grafted, extent_severedEach]
  rw [attached, hextent, lengthened_extent]

theorem node?_attached_of_ne (hxo : x ≠ o) (hxc : x ≠ c) :
    (a.attached o s c old length span).node? x = (a.severedEach old.toList).node? x := by
  rw [attached, node?_spanned _ _ hxc, node?_lengthened _ hxo, node?_grafted hxc, if_neg hxo]

variable (hw : a.WellFormed)

include hw

/-- A displaced child is a root at its place. -/
theorem WellFormed.node?_attached_displaced (hs : a.HasSingle o s (some q)) (hqc : q ≠ c) (hn : a.node? q = some node) :
    (a.attached o s c (some q) length span).node? q = some (node.rehome none (a.place q)) := by
  have hparent := hw.mem_handlesAt_iff.mp hs.mem_handlesAt
  have hqo := hw.rooted.ne_of_parent? hparent
  rw [node?_attached_of_ne length span hqo hqc]
  show (a.severed q).node? q = _
  rw [node?_severed_self hparent hqo, hn, Option.map_some]

variable (hold : ∀ q, old = some q → a.HasSingle o s (some q))

include hold

theorem WellFormed.node?_severedEach_of_ne (hxo : x ≠ o) (hx : old ≠ some x) :
    (a.severedEach old.toList).node? x = a.node? x := by
  cases old with
  | none => rfl
  | some q =>
    have hparent := hw.mem_handlesAt_iff.mp (hold q rfl).mem_handlesAt
    have hxq : x ≠ q := fun hxq => hx (congrArg some hxq.symm)
    show (a.severed q).node? x = _
    rw [node?_severed hxq, hparent, if_neg fun h => hxo (Option.some.inj h).symm]

theorem WellFormed.node?_attached_other (hxo : x ≠ o) (hxc : x ≠ c) (hx : old ≠ some x) :
    (a.attached o s c old length span).node? x = a.node? x := by
  rw [node?_attached_of_ne length span hxo hxc, hw.node?_severedEach_of_ne hold hxo hx]

theorem WellFormed.node?_attached_root (hco : c ≠ o) (hc : old ≠ some c) (hn : a.node? c = some node) :
    (a.attached o s c old length span).node? c = some { node with parent := some o, span } := by
  rw [attached, spanned, node?_update, if_pos rfl, node?_lengthened _ hco, node?_grafted_self hco,
    hw.node?_severedEach_of_ne hold hco hc, hn]
  rfl

/-- The owner has the new child in the slot, as its last entry or in place of the old content. -/
theorem WellFormed.node?_attached_owner (hco : c ≠ o) (hn : a.node? o = some node) :
    (a.attached o s c old length span).node? o =
      some { node with payload := node.payload.insertChild s c, span := { node.span with length } } := by
  have hgrafted : ((a.severedEach old.toList).grafted o s c).node? o = some (node.mapPayload (·.insertChild s c)) := by
    rw [node?_grafted hco.symm, if_pos rfl]
    cases old with
    | none =>
      show (a.node? o).map _ = _
      rw [hn, Option.map_some]
    | some q =>
      have hparent := hw.mem_handlesAt_iff.mp (hold q rfl).mem_handlesAt
      obtain ⟨node', hn', hsingle⟩ := hold q rfl
      obtain rfl : node = node' := Option.some.inj (hn.symm.trans hn')
      have hinsert := Payload.insertChild_without (c := c) hsingle (hw.count_payload_le_one hn q)
      show ((a.severed q).node? o).map _ = _
      rw [node?_severed (hw.rooted.ne_of_parent? hparent).symm, if_pos hparent, hn, Option.map_some, Option.map_some]
      simp only [Node.mapPayload, hinsert]
  rw [attached, node?_spanned _ _ hco.symm, node?_lengthened_self hgrafted]
  rfl

end Attached

/-- The arena `b` is `a` with a clone of the subtree of `n` in the slot `s` of `o`, where `detached` is `a` with that clone
as a tree of its own.  Of the nodes of `a` only the owner and the child that was displaced are touched. -/
structure AttachedClone (a detached : Arena) (n o : Handle) (s : Slot) (map : CloneMap) (b : Arena) : Prop where
  size_eq : b.size = detached.size
  ids_eq : b.ids = a.ids
  /-- The copy of the root has the span of its source as it is stored. -/
  get_root : ∃ source, a.get n = .ok source ∧
    b.get map.root = .ok { source with payload := source.payload.renamed map.image, parent := some o }
  get_copy : ∀ h, h ∉ a → h ≠ map.root → b.get h = detached.get h
  childList_eq : ∀ cs, a.childList o s = .ok cs → b.childList o s = .ok (cs ++ [map.root])
  child_eq : ∀ d, a.child o s = .ok d → b.child o s = .ok (some map.root)
  /-- The owner has one more child, and only a function that gets a body may get another length. -/
  get_owner : ∃ owner length, a.get o = .ok owner ∧
    (¬(owner.payload.variant = .function ∧ s = .body) → length = owner.span.length) ∧
    b.get o = .ok { owner with payload := owner.payload.insertChild s map.root, span := { owner.span with length } }
  get_displaced : ∀ q, a.child o s = .ok (some q) → ∃ node place, a.get q = .ok node ∧
    a.absolutePosition q = .ok place ∧
    b.get q = .ok { node with parent := none, span := { node.span with position := place } }
  get_other : ∀ h ∈ a, h ≠ o → a.child o s ≠ .ok (some h) → b.get h = a.get h

theorem get_congr {a b : Arena} {h : Handle} (hn : b.node? h = a.node? h) : b.get h = a.get h := by
  by_cases hh : h ∈ a
  · obtain ⟨node, ha⟩ := mem_iff_node?.mp hh
    rw [get_eq ha, get_eq (hn.trans ha)]
  · have hb : h ∉ b := by
      rw [mem_iff_node?, hn, ← mem_iff_node?]
      exact hh
    rw [get_eq_error hh, get_eq_error hb]

/-- The copy of the root of a subtree, with the children named by the clone map. -/
theorem CopyOf.node?_root {a detached : Arena} {n : Handle} {order : List Handle} (h : a.CopyOf a n order detached)
    (hw : a.WellFormed) (hl : a.Listing [n] order) {source : Node} (hn : a.node? n = some source) :
    detached.node? ⟨a.size⟩ = some
      { source with
        payload := source.payload.renamed (CloneMap.ofOrder a.size order).image
        parent := none
        span := { source.span with position := a.place n } } := by
  have hroot : n ∈ order := hl.subset List.mem_cons_self
  have hpayload := Payload.renamed_congr (p := source.payload) fun c hc =>
    CloneMap.image_ofOrder a.size ((hl.links_mem hw hn hroot).1 c hc)
  rw [← hl.imageOf_root a.size, h.node?_copy n hroot, hn, Option.map_some, hpayload]
  simp only [Node.copied, ↓reduceIte]

/-- A child that a copy displaces is a root where it stood before anything was copied. -/
theorem CopyOf.node?_attached_displaced {a detached : Arena} {n o q : Handle} {s : Slot} {order : List Handle}
    (h : a.CopyOf a n order detached) (hw : a.WellFormed) (hl : a.Listing [n] order) (length : Int) (span : Span)
    (hs : a.HasSingle o s (some q)) :
    ∃ node, a.node? q = some node ∧
      (detached.attached o s ⟨a.size⟩ (some q) length span).node? q = some (node.rehome none (a.place q)) := by
  have hq := hs.child_mem hw
  obtain ⟨node, hn⟩ := mem_iff_node?.mp hq
  have hsd := hs.of_node?_eq (h.node?_old o (mem_of_node? hs.choose_spec.1))
  have hqc : q ≠ ⟨a.size⟩ := by
    rintro rfl
    exact Nat.lt_irrefl a.size hq
  have hplace : detached.place q = a.place q :=
    (h.sameText hw : SameText (fun _ => False) (fun _ => False) a detached).place_eq q hq not_false
  refine ⟨node, hn, ?_⟩
  rw [← hplace]
  exact (h.wellFormed hw hl hw).node?_attached_displaced length span hsd hqc ((h.node?_old q hq).trans hn)

end Arena

namespace Edit

open Arena

variable {a : Arena} (hw : a.WellFormed) {n o : Handle} {s : Slot}

include hw

/-- A clone below a parent is a detached clone whose root is attached with the span of its source. -/
theorem attached_of_cloneSubtree {map : CloneMap} {b : Arena} (hrun : cloneSubtree n (some (o, s)) a = .ok map b) :
    ∃ order detached source owner old length, a.preOrder n = .ok order ∧ map = .ofOrder a.size order ∧
      a.CopyOf a n order detached ∧ a.node? n = some source ∧ a.node? o = some owner ∧
      (a.HasSingle o s old ∨ old = none ∧ ∃ cs, a.HasList o s cs) ∧
      (¬(owner.payload.variant = .function ∧ s = .body) → length = owner.span.length) ∧
      b = detached.attached o s ⟨a.size⟩ old length source.span := by
  rcases cloneSubtree_some_cases hw n o s with ⟨e, herror⟩ | ⟨order, copied, source, horder, hcopy, hsource, hslot⟩
  · rw [herror] at hrun
    cases hrun
  have hl := listing_of_preOrder horder
  have hwc := hcopy.wellFormed hw hl hw
  have hc := hcopy.root_mem hl
  have hnew : (⟨a.size⟩ : Handle) ∉ a := Nat.lt_irrefl a.size
  have hroot : copied.parent? ⟨a.size⟩ = none := by
    rw [← hl.imageOf_root a.size, hcopy.parent?_copy (hl.subset List.mem_cons_self), if_pos rfl]
  have hextent : ∀ {owner}, a.node? o = some owner → copied.extent o = owner.span.length := by
    intro owner ho
    rw [extent, hcopy.node?_old o (mem_of_node? ho), ho]
    rfl
  rcases hslot with ⟨cs, hs, -, hok⟩ | ⟨old, hs, -, hok⟩
  · obtain ⟨owner, ho, -⟩ := id hs
    rw [hok] at hrun
    cases hrun
    refine ⟨order, copied, source, owner, none, copied.extent o, horder, rfl, hcopy, hsource, ho, .inr ⟨rfl, cs, hs⟩,
      fun _ => hextent ho, ?_⟩
    rw [attached_extent, moved, severed_of_root hroot]
    rfl
  · obtain ⟨owner, ho, -⟩ := id hs
    rw [hok] at hrun
    cases hrun
    have hoa := mem_of_node? ho
    obtain ⟨path, hpath, hcpath⟩ := hcopy.exists_ascent hw hoa
    have hold : old ≠ some ⟨a.size⟩ := by
      rintro rfl
      exact hnew (hs.child_mem hw)
    have hfilled := hwc.filled_eq (hs.of_node?_eq (hcopy.node?_old o hoa)) hold hc hpath hcpath
    rw [severed_of_root hroot] at hfilled
    have hvariant : copied.kind? o = some (owner.payload.variant, owner.fixedPosition) := by
      rw [kind?, hcopy.node?_old o hoa, ho, Option.map_some]
    split at hfilled
    · rename_i hbody
      obtain ⟨rfl, hk⟩ := hbody
      refine ⟨order, copied, source, owner, old, _, horder, rfl, hcopy, hsource, ho, .inl hs, fun hnot => ?_,
        by rw [hfilled, attached]⟩
      rw [hvariant, Option.some.injEq, Prod.mk.injEq] at hk
      exact absurd ⟨hk.1, rfl⟩ hnot
    · refine ⟨order, copied, source, owner, old, copied.extent o, horder, rfl, hcopy, hsource, ho, .inl hs,
        fun _ => hextent ho, ?_⟩
      rw [hfilled, attached_extent]

theorem attachedClone_of_cloneSubtree {map : CloneMap} {b : Arena}
    (hrun : cloneSubtree n (some (o, s)) a = .ok map b) :
    ∃ order detached, a.preOrder n = .ok order ∧ map = .ofOrder a.size order ∧ a.CopyOf a n order detached ∧
      a.AttachedClone detached n o s map b := by
  obtain ⟨order, detached, source, owner, old, length, horder, rfl, hcopy, hsource, howner, hslot, hlength, rfl⟩ :=
    attached_of_cloneSubtree hw hrun
  have hl := listing_of_preOrder horder
  have hwd := hcopy.wellFormed hw hl hw
  have hnew : (⟨a.size⟩ : Handle) ∉ a := Nat.lt_irrefl a.size
  have hdistinct : ∀ h ∈ a, h ≠ ⟨a.size⟩ := by
    rintro h hh rfl
    exact hnew hh
  have ho := mem_of_node? howner
  have hco := (hdistinct o ho).symm
  have howner' : detached.node? o = some owner := (hcopy.node?_old o ho).trans howner
  have hold : ∀ q, old = some q → a.HasSingle o s (some q) := by
    rintro q rfl
    exact hslot.resolve_right fun h => by cases h.1
  have hold' : ∀ q, old = some q → detached.HasSingle o s (some q) :=
    fun q hq => (hold q hq).of_node?_eq (hcopy.node?_old o ho)
  have hfresh : ∀ h, h ∉ a → old ≠ some h := fun h hh hq => hh ((hold h hq).child_mem hw)
  have hself := hwd.node?_attached_owner length source.span hold' hco howner'
  refine ⟨order, detached, horder, rfl, hcopy, by simp [attached, spanned, lengthened],
    (by simp [attached, spanned, lengthened] : _ = detached.ids).trans hcopy.ids_eq, ?_, ?_, ?_, ?_, ?_, ?_, ?_⟩
  · refine ⟨source, get_eq hsource, get_eq ?_⟩
    exact hwd.node?_attached_root length source.span hold' hco (hfresh _ hnew) (hcopy.node?_root hw hl hsource)
  · intro h hh hroot
    exact get_congr (hwd.node?_attached_other length source.span hold' (fun ho' => hh (ho' ▸ ho)) hroot (hfresh h hh))
  · intro cs hcs
    obtain ⟨node, hn, hlist⟩ := childList_eq_ok_iff.mp hcs
    obtain rfl : owner = node := Option.some.inj (howner.symm.trans hn)
    exact childList_eq_ok_iff.mpr ⟨_, hself, Payload.list?_insertChild hlist _⟩
  · intro d hd
    obtain ⟨node, hn, hsingle⟩ := child_eq_ok_iff.mp hd
    obtain rfl : owner = node := Option.some.inj (howner.symm.trans hn)
    exact child_eq_ok_iff.mpr ⟨_, hself, Payload.single?_insertChild hsingle _⟩
  · exact ⟨owner, length, get_eq howner, hlength, get_eq hself⟩
  · intro q hq
    have hs : a.HasSingle o s (some q) := child_eq_ok_iff.mp hq
    obtain rfl : old = some q := by
      rcases hslot with h | ⟨-, cs, h⟩
      · exact Except.ok.inj (h.child_eq.symm.trans hq)
      · exact absurd rfl (h.ne_of_hasSingle hs)
    obtain ⟨node, hn, hdisplaced⟩ := hcopy.node?_attached_displaced hw hl length source.span hs
    exact ⟨node, a.place q, get_eq hn, hw.rooted.absolutePosition_eq (hs.child_mem hw), get_eq hdisplaced⟩
  · intro h hh hho hne
    have hoh : old ≠ some h := fun hq => hne (hold h hq).child_eq
    refine get_congr ?_
    rw [hwd.node?_attached_other length source.span hold' hho (hdistinct h hh) hoh, hcopy.node?_old h hh]

/-- A clone can be put below a parent just if no hole is below its source and the parent has the slot, of any shape. -/
theorem cloneSubtree_some_isOk_iff : (∃ map b, cloneSubtree n (some (o, s)) a = .ok map b) ↔
    a.HoleFreeBelow n ∧ ∃ owner, a.get o = .ok owner ∧ ∃ k ∈ owner.payload.childSlots, k.slot = s := by
  constructor
  · rintro ⟨map, b, hrun⟩
    obtain ⟨order, -, -, owner, old, -, horder, -, -, -, howner, hslot, -⟩ := attached_of_cloneSubtree hw hrun
    refine ⟨(listing_of_preOrder horder).holeFreeBelow hw, owner, get_eq howner, ?_⟩
    rcases hslot with ⟨node, hn, hsingle⟩ | ⟨-, cs, node, hn, hlist⟩
    · obtain rfl : owner = node := Option.some.inj (howner.symm.trans hn)
      obtain ⟨k, hk, hslot, -⟩ := Payload.single?_eq_some_iff.mp hsingle
      exact ⟨k, hk, hslot⟩
    · obtain rfl : owner = node := Option.some.inj (howner.symm.trans hn)
      obtain ⟨k, hk, hslot, -⟩ := Payload.list?_eq_some_iff.mp hlist
      exact ⟨k, hk, hslot⟩
  · rintro ⟨hfree, owner, hget, k, hk, rfl⟩
    have ho := get_eq_ok_iff.mp hget
    cases horder : a.preOrder n with
    | error e => exact absurd hfree (hw.preOrder_eq_error_iff.mp horder |>.not_holeFreeBelow hw)
    | ok order =>
    cases hshape : k.list? with
    | some cs =>
      obtain ⟨b, source, -, -, -, hok⟩ :=
        run_cloneSubtree_list hw horder ⟨owner, ho, Payload.list?_eq_some_iff.mpr ⟨k, hk, rfl, hshape⟩⟩
      exact ⟨_, _, hok⟩
    | none =>
      obtain ⟨d, hd⟩ : ∃ d, k.single? = some d := by
        cases k with
        | required s d | optional s d => exact ⟨d, rfl⟩
        | list => cases hshape
      obtain ⟨b, source, -, -, -, hok⟩ :=
        run_cloneSubtree_single hw horder ⟨owner, ho, Payload.single?_eq_some_iff.mpr ⟨k, hk, rfl, hd⟩⟩
      exact ⟨_, _, hok⟩

end Edit

namespace Workspace

open Arena

/-- A clone can be put into any slot of any node, also inside its source, provided that the source has no holes.  It is
the clone that would be a tree of its own, with the span of its source as it is stored; the child that it displaces is a
root at its place, and nothing else changes but the slot and, for the body of a function, the length of the owner. -/
theorem cloneSubtree_into_slot {w : Workspace} (reachable : w.Reachable) {i : Nat} {a : Arena} (hi : w.arena? i = some a)
    (n o : Handle) (s : Slot) :
    ((∃ map w', w.edit? i (Edit.cloneSubtree n (some (o, s))) = some (.ok map, w')) ↔
      a.HoleFreeBelow n ∧ ∃ owner, a.get o = .ok owner ∧ ∃ k ∈ owner.payload.childSlots, k.slot = s) ∧
    ∀ map w', w.edit? i (Edit.cloneSubtree n (some (o, s))) = some (.ok map, w') →
      ∃ order place w₀ detached b, w.edit? i (Edit.cloneSubtree n none) = some (.ok map, w₀) ∧
        w₀.arena? i = some detached ∧ a.CloneOf a detached n place order map ∧ w'.arena? i = some b ∧
        a.AttachedClone detached n o s map b ∧ ∀ k, k ≠ i → w'.arena? k = w.arena? k := by
  have hw := reachable.wellFormed.arena hi
  constructor
  · rw [← Edit.cloneSubtree_some_isOk_iff hw]
    constructor
    · rintro ⟨map, w', hedit⟩
      obtain ⟨b, hrun, -⟩ := (edit?_eq_ok_iff hi).mp hedit
      exact ⟨map, b, hrun⟩
    · rintro ⟨map, b, hrun⟩
      exact ⟨map, _, edit?_of_ok hi hrun⟩
  · intro map w' hedit
    obtain ⟨b, hrun, rfl⟩ := (edit?_eq_ok_iff hi).mp hedit
    obtain ⟨order, detached, horder, rfl, hcopy, hattached⟩ := Edit.attachedClone_of_cloneSubtree hw hrun
    have hl := listing_of_preOrder horder
    obtain ⟨detached', hdetach, hcopy'⟩ := Edit.run_cloneSubtree_none hw horder
    obtain rfl := hcopy.unique hcopy' (hl.nodup hw)
    obtain ⟨-, hput, hothers⟩ := put_of_ids_eq hi hattached.ids_eq
    exact ⟨order, a.place n, _, detached, b, edit?_of_ok hi hdetach, arena?_put_self hi detached, hcopy.cloneOf hw hw hl,
      hput, hattached, hothers⟩

/-- A statement that returns a name. -/
def returnedSourceRun : List Action :=
  [.addArena {}, .command 0 (.alloc (.name "x") { position := 9, length := 1 }),
    .command 0 (.alloc (.returnStatement (some ⟨0⟩)) { position := 2, length := 8 })]

/-- The clone of the name displaces its own source, which is a root at 9 from then on; the clone has the position 7 that
the source had in the statement. -/
theorem cloneSubtree_into_slot_returnedSourceRun :
    ∃ map w' b, (({} : Workspace).performAll returnedSourceRun).edit? 0
        (Edit.cloneSubtree ⟨0⟩ (some (⟨1⟩, .value))) = some (.ok map, w') ∧ w'.arena? 0 = some b ∧
      b.child ⟨1⟩ .value = .ok (some map.root) ∧
      (∃ node, b.get map.root = .ok node ∧ node.parent = some ⟨1⟩ ∧ node.span = { position := 7, length := 1 }) ∧
      ∃ node, b.get ⟨0⟩ = .ok node ∧ node.parent = none ∧ node.span = { position := 9, length := 1 } := by
  have hreach : (({} : Workspace).performAll returnedSourceRun).Reachable := ⟨returnedSourceRun, by decide, rfl⟩
  obtain ⟨a, source, ha, hlisting, hget, hspan, hplace, hchild, howner⟩ : ∃ a source,
      (({} : Workspace).performAll returnedSourceRun).arena? 0 = some a ∧ a.Listing [⟨0⟩] [⟨0⟩] ∧
        a.get ⟨0⟩ = .ok source ∧ source.span = { position := 7, length := 1 } ∧ a.absolutePosition ⟨0⟩ = .ok 9 ∧
        a.child ⟨1⟩ .value = .ok (some ⟨0⟩) ∧
        ∃ owner, a.get ⟨1⟩ = .ok owner ∧ ∃ k ∈ owner.payload.childSlots, k.slot = .value :=
    ⟨_, _, rfl, .cons rfl .nil .nil, rfl, rfl, rfl, rfl, _, rfl, _, List.mem_cons_self, rfl⟩
  have hfree := hlisting.holeFreeBelow (hreach.wellFormed.arena ha)
  obtain ⟨hsuccess, heffect⟩ := cloneSubtree_into_slot hreach ha ⟨0⟩ ⟨1⟩ .value
  obtain ⟨map, w', hrun⟩ := hsuccess.mpr ⟨hfree, howner⟩
  obtain ⟨order, place, w₀, detached, b, -, -, -, hb, hattached, -⟩ := heffect map w' hrun
  obtain ⟨node, hnode, hroot⟩ := hattached.get_root
  obtain ⟨node', place', hnode', hplace', hdisplaced⟩ := hattached.get_displaced ⟨0⟩ hchild
  rw [hget] at hnode hnode'
  cases hnode
  cases hnode'
  rw [hplace] at hplace'
  cases hplace'
  rw [hspan] at hdisplaced
  exact ⟨map, w', b, hrun, hb, hattached.child_eq _ hchild, ⟨_, hroot, rfl, hspan⟩, _, hdisplaced, rfl, rfl⟩

end Workspace

end ScriptTree
