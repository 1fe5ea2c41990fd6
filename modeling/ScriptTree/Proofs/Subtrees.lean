import ScriptTree.Pending
import ScriptTree.Proofs.Ownership

/-!
# Subtrees

`Subtrees` lists the nodes of the subtrees of some siblings, each node before its children.  An empty slot, required or
not, leads nowhere, so that trees with holes have subtrees too.  In a well-formed arena every node has a subtree
(`WellFormed.exists_subtree`): on the way down the ascents get longer, and they are no longer than the arena.  A node is
listed once for each of the siblings that is above it (`Subtrees.count_eq`).  So the subtree of one node has no
duplicates, it has just the nodes that this node is an ancestor of (`Subtrees.mem_iff_isAncestor`), and it has the parent
of each of them further up (`Subtrees.exists_parent_before`).
-/

namespace ScriptTree

namespace Arena

/-! ### Holes -/

/-- The first empty required slot of a node, as the error that it is for whoever wants the children. -/
def hole? (a : Arena) (h : Handle) : Option TreeError :=
  (a.node? h).bind fun node => node.payload.firstHole?.map fun slot => .malformed node.payload.variant h slot

/-- No required slot of a node is empty. -/
def HoleFreeAt (a : Arena) (h : Handle) : Prop :=
  ∀ (node : Node) (slot : Slot), a.get h = .ok node → .required slot none ∉ node.payload.childSlots

section Children

variable {a : Arena} {h : Handle}

theorem hole?_eq_none_iff : a.hole? h = none ↔ a.HoleFreeAt h := by
  have hhole : ∀ k : ChildSlot, k.isHole = true ↔ ∃ slot, k = .required slot none := by
    rintro (⟨_, _ | _⟩ | _ | _) <;> simp [ChildSlot.isHole]
  rw [hole?, Option.bind_eq_none_iff]
  refine forall_congr' fun node => ?_
  rw [node?, ← get_eq_ok_iff, Option.map_eq_none_iff, Payload.firstHole?, Option.map_eq_none_iff, List.find?_eq_none]
  simp only [hhole]
  constructor
  · exact fun hnone slot hget hk => hnone hget _ hk ⟨slot, rfl⟩
  · rintro hfree hget k hk ⟨slot, rfl⟩
    exact hfree slot hget hk

theorem children_eq (hh : h ∈ a) :
    a.children h = match a.hole? h with
      | some e => .error e
      | none => .ok (a.handlesAt h) := by
  obtain ⟨node, hn⟩ := mem_iff_node?.mp hh
  rw [children, payload, get_eq hn, hole?, hn, handlesAt_eq hn]
  cases hole : node.payload.firstHole? with
  | none => simp [hole, bind, Except.bind, pure, Except.pure]
  | some slot => simp [hole, bind, Except.bind, pure, Except.pure, throw, throwThe, MonadExceptOf.throw]

theorem children_eq_error (hh : h ∉ a) : a.children h = .error (.unknownNode h) := by
  rw [children, payload, get_eq_error hh]
  rfl

theorem exists_node?_of_children {cs : List Handle} (hc : a.children h = .ok cs) :
    ∃ node, a.node? h = some node ∧ node.payload.firstHole? = none ∧ node.payload.handles = cs := by
  obtain ⟨node, hn, hole, rfl⟩ := children_eq_ok_iff.mp hc
  exact ⟨node, get_eq_ok_iff.mp hn, hole, rfl⟩

theorem mem_of_children {cs : List Handle} (hc : a.children h = .ok cs) : h ∈ a := by
  obtain ⟨node, hn, -⟩ := exists_node?_of_children hc
  exact mem_of_node? hn

theorem handlesAt_of_children {cs : List Handle} (hc : a.children h = .ok cs) : a.handlesAt h = cs := by
  obtain ⟨node, hn, -, rfl⟩ := exists_node?_of_children hc
  exact handlesAt_eq hn

theorem hole?_of_children {cs : List Handle} (hc : a.children h = .ok cs) : a.hole? h = none := by
  obtain ⟨node, hn, hole, -⟩ := exists_node?_of_children hc
  rw [hole?, hn, Option.bind_some, hole]
  rfl

end Children

/-! ### The nodes of subtrees -/

/-- The nodes of the subtrees of some siblings, each before its children, which come in the order of their slots. -/
inductive Subtrees (a : Arena) : List Handle → List Handle → Prop
  | nil : Subtrees a [] []
  | cons {h : Handle} {hs xs ys : List Handle} (mem : h ∈ a) (below : Subtrees a (a.handlesAt h) xs)
      (rest : Subtrees a hs ys) : Subtrees a (h :: hs) (h :: (xs ++ ys))

namespace Subtrees

variable {a : Arena} {hs xs : List Handle}

/-- A node and what is below it. -/
theorem single {h : Handle} (mem : h ∈ a) (below : a.Subtrees (a.handlesAt h) xs) : a.Subtrees [h] (h :: xs) := by
  have hcons := Subtrees.cons mem below .nil
  rwa [List.append_nil] at hcons

theorem sublist (h : a.Subtrees hs xs) : hs.Sublist xs := by
  induction h with
  | nil => exact List.Sublist.slnil
  | cons _ _ _ _ ih => exact (ih.trans (List.sublist_append_right _ _)).cons_cons _

theorem subset (h : a.Subtrees hs xs) : hs ⊆ xs := h.sublist.subset

theorem mem (h : a.Subtrees hs xs) {x : Handle} (hx : x ∈ xs) : x ∈ a := by
  induction h with
  | nil => cases hx
  | cons mem _ _ ihb ihr =>
    rcases List.mem_cons.mp hx with rfl | hx
    · exact mem
    · exact (List.mem_append.mp hx).elim ihb ihr

theorem handlesAt_subset (h : a.Subtrees hs xs) {x : Handle} (hx : x ∈ xs) : a.handlesAt x ⊆ xs := by
  induction h with
  | nil => cases hx
  | @cons y hs xs ys _ below _ ihb ihr =>
    refine List.Subset.trans ?_ (List.subset_cons_self y (xs ++ ys))
    rcases List.mem_cons.mp hx with rfl | hx
    · exact List.Subset.trans below.subset (List.subset_append_left xs ys)
    · rcases List.mem_append.mp hx with hx | hx
      · exact List.Subset.trans (ihb hx) (List.subset_append_left xs ys)
      · exact List.Subset.trans (ihr hx) (List.subset_append_right xs ys)

theorem eq_cons {r : Handle} (h : a.Subtrees [r] xs) : ∃ below, xs = r :: below := by
  cases h
  exact ⟨_, rfl⟩

/-- What is listed before a node includes its parent, unless the node is one of the siblings. -/
theorem mem_or_exists_parent (h : a.Subtrees hs xs) {l r : List Handle} {x : Handle} (hxs : xs = l ++ x :: r) :
    x ∈ hs ∨ ∃ p ∈ l, x ∈ a.handlesAt p := by
  induction h generalizing l r with
  | nil => simp at hxs
  | @cons y hs xs ys _ _ _ ihb ihr =>
    cases l with
    | nil =>
      obtain ⟨rfl, -⟩ := List.cons.inj hxs
      exact .inl List.mem_cons_self
    | cons z l =>
      obtain ⟨rfl, hrest⟩ := List.cons.inj hxs
      rcases List.append_eq_append_iff.mp hrest with ⟨l', rfl, hys⟩ | ⟨l', hxs', hr⟩
      · -- the node is listed with the siblings
        rcases ihr hys with hx | ⟨p, hp, hx⟩
        · exact .inl (List.mem_cons_of_mem _ hx)
        · exact .inr ⟨p, List.mem_cons_of_mem _ (List.mem_append_right _ hp), hx⟩
      · cases l' with
        | nil =>
          rw [List.nil_append] at hr
          rcases ihr (l := []) hr.symm with hx | ⟨p, hp, -⟩
          · exact .inl (List.mem_cons_of_mem _ hx)
          · cases hp
        | cons w l' =>
          -- the node is listed below `y`
          obtain ⟨rfl, rfl⟩ := List.cons.inj hr
          rcases ihb hxs' with hx | ⟨p, hp, hx⟩
          · exact .inr ⟨y, List.mem_cons_self, hx⟩
          · exact .inr ⟨p, List.mem_cons_of_mem _ hp, hx⟩

end Subtrees

/-! ### Subtrees in well-formed arenas -/

theorem exists_subtrees_of_each {a : Arena} {hs : List Handle} (h : ∀ x ∈ hs, ∃ xs, a.Subtrees [x] xs) :
    ∃ xs, a.Subtrees hs xs := by
  induction hs with
  | nil => exact ⟨[], .nil⟩
  | cons x hs ih =>
    obtain ⟨xs, hx⟩ := h x List.mem_cons_self
    obtain ⟨ys, hys⟩ := ih fun y hy => h y (List.mem_cons_of_mem _ hy)
    cases hx with
    | cons mem below _ => exact ⟨_, .cons mem below hys⟩

section WellFormed

variable {a : Arena} (hw : a.WellFormed) {x : Handle} {path : List Handle}

include hw

theorem Ascent.exists_subtree {h : Handle} (hp : a.Ascent h path) : ∃ xs, a.Subtrees [h] xs := by
  -- the ascent of a child is longer by one, and none is longer than the arena
  induction hk : a.size - path.length using Nat.strongRecOn generalizing h path with
  | ind k ih =>
    have hchildren : ∀ c ∈ a.handlesAt h, ∃ xs, a.Subtrees [c] xs := by
      intro c hc
      have hpc : a.Ascent c (c :: path) := .step (hw.mem_handlesAt_iff.mp hc) hp
      have hlen := hpc.length_le
      rw [List.length_cons] at hlen
      exact ih (a.size - (c :: path).length) (by rw [List.length_cons]; omega) hpc rfl
    obtain ⟨xs, hxs⟩ := exists_subtrees_of_each hchildren
    exact ⟨_, .single hp.mem hxs⟩

/-- A node has a subtree, with or without holes. -/
theorem WellFormed.exists_subtree {h : Handle} (hh : h ∈ a) : ∃ xs, a.Subtrees [h] xs := by
  obtain ⟨path, hp⟩ := hw.rooted h hh
  exact hp.exists_subtree hw

theorem WellFormed.exists_subtrees {hs : List Handle} (hmem : ∀ h ∈ hs, h ∈ a) : ∃ xs, a.Subtrees hs xs :=
  exists_subtrees_of_each fun h hh => hw.exists_subtree (hmem h hh)

omit hw in
theorem countP_mem_cons (hx : x ∉ path) (hs : List Handle) :
    hs.countP (· ∈ x :: path) = hs.count x + hs.countP (· ∈ path) := by
  induction hs with
  | nil => rfl
  | cons y hs ih =>
    rw [List.countP_cons, List.countP_cons, List.count_cons, ih]
    by_cases hy : y = x
    · subst hy
      simp [hx]
      omega
    · simp [hy]
      omega

/-- An ascent leaves the subtree of a node through that node or through one of its children, and only once. -/
theorem WellFormed.countP_handlesAt (hp : a.Ascent x path) (h : Handle) :
    (if h = x then 1 else 0) + (a.handlesAt h).countP (· ∈ path) = if h ∈ path then 1 else 0 := by
  induction hp generalizing h with
  | @root x mem top =>
    have hcount := hw.count_handlesAt h x
    simp only [top, reduceCtorEq, ↓reduceIte] at hcount
    rw [countP_mem_cons List.not_mem_nil, hcount]
    simp
  | @step x p path link rest ih =>
    -- the ascent of `x` is that of its parent with `x` in front, so only `h = x` and `h = p` see a difference
    have hx : x ∉ path := rest.not_mem_of_parent? link
    have hcount := hw.count_handlesAt h x
    have hstep := ih h
    simp only [link, Option.some.injEq, eq_comm (a := p)] at hcount
    rw [countP_mem_cons hx, hcount]
    by_cases hhx : h = x
    · subst hhx
      have hhp : h ≠ p := hw.rooted.ne_of_parent? link
      simp only [hx, hhp, ↓reduceIte, List.mem_cons_self] at hstep ⊢
      omega
    · simp only [hhx, ↓reduceIte, List.mem_cons, false_or]
      omega

/-- A node is listed once for each of the siblings that is above it. -/
theorem Subtrees.count_eq {hs xs : List Handle} (h : a.Subtrees hs xs) (hp : a.Ascent x path) :
    xs.count x = hs.countP (· ∈ path) := by
  induction h with
  | nil => rfl
  | @cons h hs xs ys mem below rest ihb ihr =>
    have hstep := hw.countP_handlesAt hp h
    rw [List.count_cons, List.count_append, List.countP_cons, ihb, ihr]
    simp only [beq_iff_eq, decide_eq_true_eq]
    omega

/-- The subtree of a node has the nodes with that node on their ascent. -/
theorem Subtrees.mem_iff {r : Handle} {xs : List Handle} (h : a.Subtrees [r] xs) (hp : a.Ascent x path) :
    x ∈ xs ↔ r ∈ path := by
  rw [← List.count_pos_iff, h.count_eq hw hp]
  by_cases hr : r ∈ path <;> simp [hr]

omit hw in
/-- A node is no ancestor of a handle without a node: the way up from there is an error at once. -/
theorem isAncestor_ne_ok_true {r : Handle} (hr : r ∈ a) (hx : x ∉ a) : a.isAncestor r x ≠ .ok true := by
  have hxr : x ≠ r := fun h => hx (h ▸ hr)
  simp [isAncestor, isAncestorWithin, hxr, get_eq_error hx, bind, Except.bind]

/-- The subtree of a node has the nodes that it is an ancestor of. -/
theorem Subtrees.mem_iff_isAncestor {r : Handle} {xs : List Handle} (h : a.Subtrees [r] xs) (x : Handle) :
    x ∈ xs ↔ a.isAncestor r x = .ok true := by
  by_cases hx : x ∈ a
  · obtain ⟨path, hp⟩ := hw.rooted x hx
    rw [h.mem_iff hw hp, hp.isAncestor_eq, Except.ok.injEq, decide_eq_true_iff]
  · constructor
    · exact fun hm => absurd (h.mem hm) hx
    · exact fun hm => absurd hm (isAncestor_ne_ok_true (h.mem (h.subset List.mem_cons_self)) hx)

theorem Subtrees.nodup {r : Handle} {xs : List Handle} (h : a.Subtrees [r] xs) : xs.Nodup := by
  rw [List.nodup_iff_count_le_one]
  intro x
  by_cases hx : x ∈ xs
  · -- with one sibling the count is at most one
    obtain ⟨path, hp⟩ := hw.rooted x (h.mem hx)
    rw [h.count_eq hw hp]
    by_cases hr : r ∈ path <;> simp [hr]
  · rw [List.count_eq_zero.mpr hx]
    exact Nat.zero_le 1

theorem Subtrees.length_le {r : Handle} {xs : List Handle} (h : a.Subtrees [r] xs) : xs.length ≤ a.size := by
  have hsub : xs ⊆ a.handles := fun x hx => mem_handles.mpr (h.mem hx)
  have hle := (List.subperm_of_subset (h.nodup hw) hsub).length_le
  simpa [handles] using hle

/-- A node of a subtree other than its root has its parent there, further up. -/
theorem Subtrees.exists_parent_before {r : Handle} {xs : List Handle} (h : a.Subtrees [r] xs) (hx : x ∈ xs)
    (hxr : x ≠ r) : ∃ p ∈ xs, a.parent? x = some p ∧ xs.idxOf p < xs.idxOf x := by
  obtain ⟨before, after, hxs⟩ := List.append_of_mem hx
  have hnd := h.nodup hw
  rw [hxs] at hnd
  have hnot : x ∉ before := fun hm => (List.nodup_append.mp hnd).2.2 x hm x List.mem_cons_self rfl
  rcases h.mem_or_exists_parent hxs with hx | ⟨p, hp, hx⟩
  · exact absurd (List.mem_singleton.mp hx) hxr
  · refine ⟨p, hxs ▸ List.mem_append_left _ hp, hw.mem_handlesAt_iff.mp hx, ?_⟩
    have hlt := List.idxOf_lt_length_of_mem hp
    rw [hxs, List.idxOf_append, if_pos hp, List.idxOf_append, if_neg hnot]
    omega

end WellFormed

end Arena

end ScriptTree
