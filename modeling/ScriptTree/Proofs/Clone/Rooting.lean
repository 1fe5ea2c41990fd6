import ScriptTree.Proofs.Command
import ScriptTree.Proofs.Edit.Rooting

/-!
# Parent links of clones where payloads are corrupt

A clone of a subtree with shared children copies a shared node once for each way that leads to it, and the last copy is
the one that is known to the clone map.  As a child is listed behind every listing of its parent, the last copy of a child
stands behind the last copy of its parent (`ChildrenBehind`).  The links that relinking makes therefore all lead from a new
node to one before it, and the links that it does not reach still lead to the old nodes; so following them ends
(`Appended.rooted`).  With the edits of one arena this gives `Command.chains_end`: whatever is written into payloads, the
parent links stay finite.
-/

namespace ScriptTree

namespace Arena

/-! ### New nodes behind the others -/

/-- The arena `b` has the nodes of `a`, whose links are the same, and behind them nodes with their parents before them. -/
structure Appended (a b : Arena) : Prop where
  mem : ∀ h ∈ a, h ∈ b
  parent?_old : ∀ h ∈ a, b.parent? h = a.parent? h
  parent?_lt : ∀ h p, h ∉ a → b.parent? h = some p → p.index < h.index

theorem Appended.rooted {a b : Arena} (h : a.Appended b) (hr : a.Rooted) : b.Rooted := by
  intro x hx
  -- a new node leads to one before it, so the induction is on the place of the node
  induction hi : x.index using Nat.strongRecOn generalizing x with
  | ind i ih =>
    by_cases hxa : x ∈ a
    · obtain ⟨path, hp⟩ := hr x hxa
      have hpath : ∀ y ∈ path, y ∈ a := fun y hy => mem_handles.mp (hp.subset_handles hy)
      exact ⟨path, hp.of_parent?_eq (fun y hy => h.mem y (hpath y hy)) fun y hy => h.parent?_old y (hpath y hy)⟩
    · cases hpar : b.parent? x with
      | none => exact ⟨[x], .root hx hpar⟩
      | some p =>
        have hlt := h.parent?_lt x p hxa hpar
        obtain ⟨path, hp⟩ := ih p.index (hi ▸ hlt) p (Nat.lt_trans hlt hx) rfl
        exact ⟨x :: path, .step hpar hp⟩

/-- A clone map that sends nodes to new places, each child behind its parent. -/
structure ChildrenBehind (a : Arena) (map : CloneMap) : Prop where
  new : ∀ x y, map.get? x = some y → x ∈ a ∧ y ∉ a
  lt : ∀ x y c d, map.get? x = some y → map.get? c = some d → c ∈ a.handlesAt x → y.index < d.index

/-- An arena on the way to relinked copies: what a copy holds are children of its source, or new nodes. -/
structure Copied (a : Arena) (map : CloneMap) (b : Arena) : Prop extends a.Appended b where
  handlesAt_copy : ∀ x y, map.get? x = some y → ∀ c ∈ b.handlesAt y, c ∈ a.handlesAt x ∨ c ∉ a

end Arena

/-! ### Exchanged handles -/

section Exchange

variable {f : Handle → Option Handle} {d : Handle}

/-- After an exchange there are handles that `f` gives, and if one was missing also some from before. -/
theorem of_mem_relinkHandles (hs : List Handle) (hd : d ∈ (relinkHandles f hs).1) :
    (∃ c ∈ hs, f c = some d) ∨ (relinkHandles f hs).2 ≠ none ∧ d ∈ hs := by
  induction hs with
  | nil => cases hd
  | cons x hs ih =>
    rw [relinkHandles] at hd ⊢
    cases hf : f x with
    | none =>
      rw [hf] at hd
      exact .inr ⟨Option.some_ne_none x, hd⟩
    | some k =>
      rw [hf] at hd
      rcases List.mem_cons.mp hd with rfl | hd
      · exact .inl ⟨x, List.mem_cons_self, hf⟩
      · rcases ih hd with ⟨c, hc, hfc⟩ | ⟨hmissing, hmem⟩
        · exact .inl ⟨c, List.mem_cons_of_mem _ hc, hfc⟩
        · exact .inr ⟨hmissing, List.mem_cons_of_mem _ hmem⟩

theorem ChildSlot.of_mem_relink {k : ChildSlot} (hd : d ∈ (k.relink f).1.handles) :
    (∃ c ∈ k.handles, f c = some d) ∨ (k.relink f).2 ≠ none ∧ d ∈ k.handles := by
  cases k with
  | required s c | optional s c =>
    exact of_mem_relinkHandles c.toList (List.mem_of_mem_head? (Option.mem_toList.mp hd))
  | list s cs => exact of_mem_relinkHandles cs hd

theorem of_mem_relinkSlots {ks : List ChildSlot} (hd : d ∈ (relinkSlots f ks).1.flatMap ChildSlot.handles) :
    (∃ c ∈ ks.flatMap ChildSlot.handles, f c = some d) ∨
      (relinkSlots f ks).2 ≠ none ∧ d ∈ ks.flatMap ChildSlot.handles := by
  induction ks with
  | nil => cases hd
  | cons k ks ih =>
    have hk := @ChildSlot.of_mem_relink f d k
    rw [relinkSlots] at hd ⊢
    rw [List.flatMap_cons]
    rcases hrelink : k.relink f with ⟨k', _ | x⟩
    · rw [hrelink] at hd hk
      rcases List.mem_append.mp hd with hd | hd
      · rcases hk hd with ⟨c, hc, hfc⟩ | ⟨hnone, -⟩
        · exact .inl ⟨c, List.mem_append_left _ hc, hfc⟩
        · exact absurd rfl hnone
      · rcases ih hd with ⟨c, hc, hfc⟩ | ⟨hmissing, hmem⟩
        · exact .inl ⟨c, List.mem_append_right _ hc, hfc⟩
        · exact .inr ⟨hmissing, List.mem_append_right _ hmem⟩
    · rw [hrelink] at hd hk
      rcases List.mem_append.mp hd with hd | hd
      · rcases hk hd with ⟨c, hc, hfc⟩ | ⟨-, hmem⟩
        · exact .inl ⟨c, List.mem_append_left _ hc, hfc⟩
        · exact .inr ⟨Option.some_ne_none x, List.mem_append_left _ hmem⟩
      · exact .inr ⟨Option.some_ne_none x, List.mem_append_right _ hd⟩

theorem Payload.of_mem_handles_overwrite {g : Slot → Option Handle → Option Handle}
    {g' : Slot → List Handle → List Handle} {p : Payload} {Q : Prop}
    (hsingle : ∀ s c, d ∈ (g s c).toList → d ∈ c.toList ∨ Q) (hlist : ∀ s cs, d ∈ g' s cs → d ∈ cs ∨ Q)
    (hd : d ∈ (p.overwrite g g').handles) : d ∈ p.handles ∨ Q := by
  obtain ⟨k', hk', hd⟩ := List.mem_flatMap.mp hd
  rw [childSlots_overwrite] at hk'
  obtain ⟨k, hk, rfl⟩ := List.mem_map.mp hk'
  have hslot : d ∈ k.handles ∨ Q := by
    cases k with
    | required s c | optional s c => exact hsingle s c hd
    | list s cs => exact hlist s cs hd
  exact hslot.imp_left fun hd => List.mem_flatMap.mpr ⟨k, hk, hd⟩

/-- A payload with other contents in its slots has children from before, or from these contents. -/
theorem Payload.of_mem_handles_putSlots {p : Payload} {ks : List ChildSlot} (hd : d ∈ (p.putSlots ks).handles) :
    d ∈ p.handles ∨ d ∈ ks.flatMap ChildSlot.handles := by
  rw [putSlots] at hd
  refine of_mem_handles_overwrite (fun s c hd => ?_) (fun s cs hd => ?_) hd
  · cases hcontent : (ks.find? fun c => c.slot == s).bind ChildSlot.single? with
    | none =>
      simp only [hcontent, Option.getD_none] at hd
      exact .inl hd
    | some c' =>
      simp only [hcontent, Option.getD_some] at hd
      obtain ⟨k, hk, hc'⟩ := Option.bind_eq_some_iff.mp hcontent
      exact .inr (List.mem_flatMap.mpr ⟨k, List.mem_of_find?_eq_some hk, ChildSlot.handles_of_single? hc' ▸ hd⟩)
  · cases hcontent : (ks.find? fun c => c.slot == s).bind ChildSlot.list? with
    | none =>
      simp only [hcontent, Option.getD_none] at hd
      exact .inl hd
    | some cs' =>
      simp only [hcontent, Option.getD_some] at hd
      obtain ⟨k, hk, hcs'⟩ := Option.bind_eq_some_iff.mp hcontent
      exact .inr (List.mem_flatMap.mpr ⟨k, List.mem_of_find?_eq_some hk, ChildSlot.handles_of_list? hcs' ▸ hd⟩)

end Exchange

/-- A copy can be given slots with what it holds, and with new nodes. -/
theorem Arena.Copied.putSlots {a b : Arena} {map : CloneMap} {copy : Handle} {node : Node}
    {slots : List ChildSlot} (hb : a.Copied map b) (hn : b.node? copy = some node)
    (hslots : ∀ d ∈ slots.flatMap ChildSlot.handles, d ∉ a ∨ d ∈ node.payload.handles) :
    a.Copied map (b.update copy (Node.mapPayload (·.putSlots slots))) := by
  refine ⟨⟨fun h hh => mem_update.mpr (hb.mem h hh), fun h hh => ?_, fun h p hh hp => ?_⟩, fun x y hy c hc => ?_⟩
  · rw [parent?_update_mapPayload, hb.parent?_old h hh]
  · rw [parent?_update_mapPayload] at hp
    exact hb.parent?_lt h p hh hp
  · rw [handlesAt_update] at hc
    split at hc
    · rename_i hycopy
      subst hycopy
      have hkeep := hb.handlesAt_copy x y hy
      rw [handlesAt_eq hn] at hkeep
      rw [hn, Option.map_some, Option.getD_some] at hc
      rcases Payload.of_mem_handles_putSlots hc with hold | hput
      · exact hkeep c hold
      · rcases hslots c hput with hnew | hold
        · exact .inr hnew
        · exact hkeep c hold
    · exact hb.handlesAt_copy x y hy c hc

namespace Edit

open Arena

/-! ### Relinking -/

section Relink

variable {a : Arena} {map : CloneMap}

/-- New nodes can be hung below a node that stands before them. -/
theorem copied_setParentEach {owner : Handle} {ds : List Handle} (hds : ∀ d ∈ ds, d ∉ a ∧ owner.index < d.index) :
    Leads (a.Copied map) (setParentEach owner ds) (a.Copied map) := by
  induction ds with
  | nil => exact leads_pure ()
  | cons d ds ih =>
    obtain ⟨hda, hlt⟩ := hds d List.mem_cons_self
    refine (leads_modifyNode fun b hb => ?_).keep fun _ => ih fun x hx => hds x (List.mem_cons_of_mem _ hx)
    have hparent := parent?_update b d fun node => { node with parent := some owner }
    refine ⟨⟨fun h hh => mem_update.mpr (hb.mem h hh), fun h hh => ?_, fun h p hh hp => ?_⟩, fun x y hxy c hc => ?_⟩
    · have hne : h ≠ d := fun hd => hda (hd ▸ hh)
      rw [hparent, if_neg hne, hb.parent?_old h hh]
    · rw [hparent] at hp
      split at hp
      · rename_i hd
        obtain ⟨node, -, hp⟩ := Option.bind_eq_some_iff.mp hp
        obtain rfl : owner = p := Option.some.inj hp
        rw [hd]
        exact hlt
      · exact hb.parent?_lt h p hh hp
    · have hkeep : (b.update d fun node => { node with parent := some owner }).handlesAt y = b.handlesAt y :=
        handlesAt_update_of_eq (f := fun node => { node with parent := some owner }) (fun _ _ => rfl) y
      exact hb.handlesAt_copy x y hxy c (hkeep ▸ hc)

/-- Relinking a copy exchanges handles of children for handles of their copies, which are behind it. -/
theorem copied_relink (hmap : a.ChildrenBehind map) {x copy : Handle} (hx : map.get? x = some copy) :
    Leads (a.Copied map) (relink map copy) (a.Copied map) := by
  intro b hb
  refine leaves_inspect_bind hb fun p hp => ?_
  obtain ⟨node, hn, rfl⟩ := payload_eq_ok_iff.mp hp
  have hslots : ∀ d ∈ (relinkSlots map.get? node.payload.childSlots).1.flatMap ChildSlot.handles,
      (∃ c ∈ node.payload.handles, map.get? c = some d) ∨
        (relinkSlots map.get? node.payload.childSlots).2 ≠ none ∧ d ∈ node.payload.handles :=
    fun d hd => of_mem_relinkSlots hd
  generalize relinkSlots map.get? node.payload.childSlots = relinked at hslots
  obtain ⟨slots, missing⟩ := relinked
  rw [leaves_bind_of_ok (run_modifyPayload (mem_of_node? hn) _)]
  have hwritten : a.Copied map (b.update copy (Node.mapPayload (·.putSlots slots))) := by
    refine hb.putSlots hn fun d hd => ?_
    rcases hslots d hd with ⟨c, -, hcd⟩ | ⟨-, hold⟩
    · exact .inl (hmap.new c d hcd).2
    · exact .inr hold
  cases missing with
  | some h => exact leads_throw _ _ hwritten
  | none =>
    refine copied_setParentEach (fun d hd => ?_) _ hwritten
    rcases hslots d hd with ⟨c, hc, hcd⟩ | ⟨hnone, -⟩
    · -- a handle that has a copy is one of the source, so it is a child of `x`
      have hchild : c ∈ a.handlesAt x := by
        rw [← handlesAt_eq hn] at hc
        exact (hb.handlesAt_copy x copy hx c hc).resolve_right fun hnew => hnew (hmap.new c d hcd).1
      exact ⟨(hmap.new c d hcd).2, hmap.lt x copy c d hx hcd hchild⟩
    · exact absurd rfl hnone

theorem copied_relinkEach (hmap : a.ChildrenBehind map) (xs : List Handle) :
    Leads (a.Copied map) (relinkEach map xs) (a.Copied map) := by
  induction xs with
  | nil => exact leads_pure ()
  | cons x xs ih =>
    rw [relinkEach]
    cases hx : map.get? x with
    | none => exact (leads_throw _).keep fun _ => ih
    | some copy => exact (copied_relink hmap hx).keep fun _ => ih

end Relink

/-! ### Appending the copies -/

theorem exists_last_split {xs : List Handle} {x : Handle} (hx : x ∈ xs) : ∃ l r, xs = l ++ x :: r ∧ x ∉ r := by
  obtain ⟨l, r, h, hl⟩ := List.eq_append_cons_of_mem (List.mem_reverse.mpr hx)
  refine ⟨r.reverse, l.reverse, ?_, by simpa using hl⟩
  have hreverse := congrArg List.reverse h
  simpa using hreverse

/-- Behind the nodes of `a` the arena `b` has a copy of each entry of a list.  Of several copies of a node the clone map
knows the last one, and for the other nodes what it knew before. -/
structure CopiedEach (source a : Arena) (xs : List Handle) (before map : CloneMap) (b : Arena) : Prop where
  size_eq : b.size = a.size + xs.length
  node?_old : ∀ h ∈ a, b.node? h = a.node? h
  node?_copy : ∀ l x r, xs = l ++ x :: r → b.node? ⟨a.size + l.length⟩ = source.node? x
  get?_other : ∀ x ∉ xs, map.get? x = before.get? x
  get?_last : ∀ l x r, xs = l ++ x :: r → x ∉ r → map.get? x = some ⟨a.size + l.length⟩

theorem copiedEach_nil (source a : Arena) (map : CloneMap) : CopiedEach source a [] map map a :=
  ⟨rfl, fun _ _ => rfl, fun l x r h => by simp at h, fun _ _ => rfl, fun l x r h => by simp at h⟩

/-- The first entry is copied, and then the others. -/
theorem CopiedEach.cons {source a b : Arena} {x : Handle} {xs : List Handle} {before first map : CloneMap} {node : Node}
    (h : CopiedEach source (a.push node) xs first map b) (hn : source.node? x = some node)
    (hfirst : ∀ y, first.get? y = if y = x then some ⟨a.size⟩ else before.get? y) :
    CopiedEach source a (x :: xs) before map b where
  size_eq := by
    rw [h.size_eq, size_push, List.length_cons]
    omega
  node?_old y hy := by
    have hne : y.index ≠ a.size := Nat.ne_of_lt hy
    rw [h.node?_old y (mem_push.mpr (.inl hy)), node?_push, if_neg hne]
  node?_copy l y r hsplit := by
    cases l with
    | nil =>
      obtain ⟨rfl, rfl⟩ := List.cons.inj hsplit
      have hcopy := h.node?_old ⟨a.size⟩ (mem_push.mpr (.inr rfl))
      rw [node?_push, if_pos rfl] at hcopy
      exact hcopy.trans hn.symm
    | cons z l =>
      have hcopy := h.node?_copy l y r (List.cons.inj hsplit).2
      rw [size_push, Nat.add_right_comm] at hcopy
      exact hcopy
  get?_other y hy := by
    rw [List.mem_cons, not_or] at hy
    rw [h.get?_other y hy.2, hfirst, if_neg hy.1]
  get?_last l y r hsplit hy := by
    cases l with
    | nil =>
      obtain ⟨rfl, rfl⟩ := List.cons.inj hsplit
      rw [h.get?_other x hy, hfirst, if_pos rfl]
      rfl
    | cons z l =>
      have hcopy := h.get?_last l y r (List.cons.inj hsplit).2 hy
      rw [size_push, Nat.add_right_comm] at hcopy
      exact hcopy

theorem exists_run_copyEach {source a : Arena} (root : Handle) {xs : List Handle} (before : CloneMap)
    (hxs : ∀ x ∈ xs, x ∈ source) :
    ∃ map b, copyEach source root xs before a = .ok map b ∧ CopiedEach source a xs before map b := by
  induction xs generalizing a before with
  | nil => exact ⟨before, a, rfl, copiedEach_nil source a before⟩
  | cons x xs ih =>
    obtain ⟨node, hn⟩ := mem_iff_node?.mp (hxs x List.mem_cons_self)
    have hget : (fun _ : Arena => source.get x) a = .ok node := get_eq hn
    have hpush : push node a = .ok ⟨a.size⟩ (a.push node) := rfl
    -- the map with the copy of `x`, which may be the root
    obtain ⟨first, hfirst, hget?⟩ : ∃ first, first = (if x = root then
        { before.insert x ⟨a.size⟩ with root := ⟨a.size⟩ } else before.insert x ⟨a.size⟩) ∧
        ∀ y, first.get? y = if y = x then some ⟨a.size⟩ else before.get? y := by
      refine ⟨_, rfl, fun y => ?_⟩
      rw [← CloneMap.get?_insert before x ⟨a.size⟩ y]
      split <;> rfl
    obtain ⟨map, b, hrun, hcopied⟩ := @ih (a.push node) first fun y hy => hxs y (List.mem_cons_of_mem _ hy)
    refine ⟨map, b, ?_, hcopied.cons hn hget?⟩
    rw [copyEach, run_inspect_bind hget, run_bind_of_ok hpush, ← hfirst, hrun]

namespace CopiedEach

variable {a b : Arena} {root : Handle} {order : List Handle} {before map : CloneMap}
  (h : CopiedEach a a order before map b) (hempty : ∀ x, before.get? x = none)

include h

include hempty in
/-- A node with a copy is listed, and its copy is that of the last entry. -/
theorem exists_split {x y : Handle} (hxy : map.get? x = some y) :
    ∃ l r, order = l ++ x :: r ∧ x ∉ r ∧ y = ⟨a.size + l.length⟩ := by
  by_cases hx : x ∈ order
  · obtain ⟨l, r, hsplit, hxr⟩ := exists_last_split hx
    rw [h.get?_last l x r hsplit hxr, Option.some.injEq] at hxy
    exact ⟨l, r, hsplit, hxr, hxy.symm⟩
  · rw [h.get?_other x hx, hempty] at hxy
    cases hxy

include hempty in
theorem childrenBehind (hl : a.Listing [root] order) : a.ChildrenBehind map := by
  refine ⟨fun x y hxy => ?_, fun x y c d hxy hcd hc => ?_⟩
  · obtain ⟨l, r, hsplit, -, rfl⟩ := h.exists_split hempty hxy
    have hx : x ∈ order := hsplit ▸ List.mem_append_right l List.mem_cons_self
    refine ⟨hl.mem hx, ?_⟩
    show ¬a.size + l.length < a.size
    omega
  · obtain ⟨l, r, hsplit, -, rfl⟩ := h.exists_split hempty hxy
    obtain ⟨l', r', hsplit', hcr', rfl⟩ := h.exists_split hempty hcd
    have hcr : c ∈ r := hl.handlesAt_subset_behind hsplit hc
    have hdrop : order.drop (l.length + 1) = r := by simp [hsplit]
    have hdrop' : order.drop (l'.length + 1) = r' := by simp [hsplit']
    -- otherwise what comes behind `x` would also come behind the last entry of `c`
    by_contra hle
    have hlen : l'.length + 1 ≤ l.length + 1 := by
      simp only [Nat.not_lt] at hle
      omega
    exact hcr' (hdrop' ▸ List.drop_subset_drop_left order hlen (hdrop ▸ hcr))

/-- A new node is the copy of an entry. -/
theorem exists_source {y : Handle} (hy : y ∈ b) (hya : y ∉ a) : ∃ x ∈ order, b.node? y = a.node? x := by
  rw [mem_iff, h.size_eq] at hy
  rw [mem_iff] at hya
  obtain ⟨i, hi⟩ : ∃ i, y.index = a.size + i := ⟨y.index - a.size, by omega⟩
  have hlt : i < order.length := by omega
  have hsplit : order = order.take i ++ order[i] :: order.drop (i + 1) := by
    rw [List.getElem_cons_drop, List.take_append_drop]
  have hcopy := h.node?_copy _ _ _ hsplit
  rw [List.length_take_of_le (Nat.le_of_lt hlt), ← hi] at hcopy
  exact ⟨order[i], List.getElem_mem hlt, hcopy⟩

include hempty in
/-- The copies hold what their sources hold and hang where these hang. -/
theorem copied (hr : a.Rooted) : a.Copied map b := by
  refine ⟨⟨fun x hx => ?_, fun x hx => ?_, fun y p hy hp => ?_⟩, fun x y hxy c hc => ?_⟩
  · rw [mem_iff, h.size_eq]
    exact Nat.lt_of_lt_of_le hx (Nat.le_add_right _ _)
  · rw [parent?, parent?, h.node?_old x hx]
  · -- the parent of the source is a node of `a`, and `y` is behind these
    obtain ⟨x, -, hcopy⟩ := h.exists_source (mem_of_parent? hp) hy
    have hsource : a.parent? x = some p := by rwa [parent?, ← hcopy]
    have hpa : p ∈ a := hr.mem_of_parent?_eq hsource
    rw [mem_iff] at hpa hy
    omega
  · obtain ⟨l, r, hsplit, -, rfl⟩ := h.exists_split hempty hxy
    rw [handlesAt, h.node?_copy l x r hsplit] at hc
    exact .inl hc

end CopiedEach

theorem leads_copyNodes {a : Arena} (hr : a.Rooted) {root : Handle} {order : List Handle}
    (hl : a.Listing [root] order) : Leads (fun b => b = a) (copyNodes a root order) Rooted := by
  rintro b rfl
  obtain ⟨map, c, hrun, heach⟩ := exists_run_copyEach (a := b) root { root := ⟨0⟩, entries := [] } fun x hx => hl.mem hx
  have hempty : ∀ x, CloneMap.get? { root := ⟨0⟩, entries := [] } x = none := fun _ => rfl
  have hmap := heach.childrenBehind hempty hl
  have hc := heach.copied hempty hr
  have hrooted : ∀ d, b.Copied map d → d.Rooted := fun d hd => hd.rooted hr
  rw [copyNodes, leaves_bind_of_ok hrun]
  refine (copied_relinkEach hmap order).bind (fun _ => ?_) hrooted c hc
  refine (leads_inspect _).bind (fun position => ?_) hrooted
  have hcut : Leads Rooted (modifyNode map.root fun entry =>
      { entry with span := { entry.span with position }, parent := none }) Rooted :=
    leads_rooted_of_loosens fun d => loosens_modifyNode map.root fun _ => .inr rfl
  exact fun d hd => (hcut.keep fun _ => leads_pure map) d (hrooted d hd)

theorem leads_attachCopy (o : Handle) (s : Slot) (isList : Bool) (source copy : Handle) :
    Leads Rooted (attachCopy o s isList source copy) Rooted := by
  refine (leads_inspect _).keep fun node => ?_
  have hspan : Leads Rooted (setSpan copy node.span) Rooted :=
    leads_rooted_of_loosens fun _ => loosens_setSpan copy node.span
  cases isList with
  | true => exact (leads_pushChild o s copy).keep fun _ => hspan
  | false => exact (leads_setChild o s (some copy)).keep fun _ => hspan

theorem leads_cloneSubtree (n : Handle) (target : Option (Handle × Slot)) :
    Leads Rooted (cloneSubtree n target) Rooted := by
  intro a hr
  refine leaves_inspect_bind hr fun order horder => ?_
  rw [subtreeOrder_eq_preOrder] at horder
  have hcopy := leads_copyNodes hr (listing_of_preOrder horder)
  cases target with
  | none => exact hcopy a rfl
  | some target =>
    obtain ⟨o, s⟩ := target
    refine leaves_inspect_bind hr fun isList _ => ?_
    refine hcopy.bind (fun map => ?_) (fun _ h => h) a rfl
    exact (leads_attachCopy o s isList n map.root).keep fun _ => leads_pure map

end Edit

/-! ### Commands -/

namespace Command

open Arena Edit

theorem leads_run (c : Command) : Leads Rooted c.run Rooted := by
  cases c with
  | alloc p span => exact (leads_alloc p span).map _
  | construct c => exact (leads_construct c).map _
  | setChild o s c => exact (leads_setChild o s c).map _
  | pushChild o s c => exact (leads_pushChild o s c).map _
  | setChildList o s cs => exact (leads_setChildList o s cs).map _
  | detach h => exact (leads_rooted_of_loosens fun _ => loosens_detach h).map _
  | recomputeBounds h => exact (leads_rooted_of_loosens fun _ => loosens_recomputeBounds h).map _
  | cloneSubtree n target => exact (leads_cloneSubtree n target).map _
  | mark h m => exact (leads_rooted_of_loosens fun _ => loosens_mark h m).map _
  | setSpan h span => exact (leads_rooted_of_loosens fun _ => loosens_setSpan h span).map _
  | refine h r => exact (leads_rooted_of_loosens fun _ => loosens_refine h r).map _
  | overwritePayload h p => exact (leads_rooted_of_loosens fun _ => loosens_modifyPayload h _).map _

theorem rooted_runAll {a : Arena} (hr : a.Rooted) (cs : List Command) : (runAll a cs).Rooted := by
  induction cs generalizing a with
  | nil => exact hr
  | cons c cs ih => exact ih (after_eq_leaves a c ▸ leads_run c a hr)

/-- Parent chains stay finite.  Whatever commands are done to an empty arena, among them payloads overwritten as they are,
and whether each of them succeeds or fails half way: a parent is a node of the arena, the nodes from a node up to its root
are all different, and what climbs along them finds its answer. -/
theorem chains_end (ids : IdGenerator) (cs : List Command) :
    ∀ h ∈ runAll (.ofGenerator ids) cs,
      (∀ p, (runAll (.ofGenerator ids) cs).parent? h = some p → p ∈ runAll (.ofGenerator ids) cs) ∧
      (∃ path, (runAll (.ofGenerator ids) cs).Ascent h path ∧ path.Nodup ∧
        path.length ≤ (runAll (.ofGenerator ids) cs).size) ∧
      (∃ position, (runAll (.ofGenerator ids) cs).absolutePosition h = .ok position) ∧
      (∃ bounds, (runAll (.ofGenerator ids) cs).absoluteBounds h = .ok bounds) ∧
      ∀ x, ∃ above, (runAll (.ofGenerator ids) cs).isAncestor x h = .ok above := by
  intro h hh
  have hr := rooted_runAll (wellFormed_ofGenerator ids).rooted cs
  obtain ⟨path, hp⟩ := hr h hh
  refine ⟨fun p hpar => hr.mem_of_parent?_eq hpar, ⟨path, hp, hp.nodup, hp.length_le⟩, ?_, ?_, fun x => ?_⟩
  · exact ⟨_, hp.absolutePosition_eq⟩
  · exact ⟨_, hr.absoluteBounds_eq hh⟩
  · exact ⟨_, hp.isAncestor_eq x⟩

/-- Two blocks that are made to hold each other, one of them twice and with a handle that leads nowhere.  Emptying that one
fails half way, when its entries have been made roots; then it can be put below the other one. -/
def cyclicRun : List Command :=
  [.alloc (.block []) {}, .alloc (.block [⟨0⟩]) {}, .overwritePayload ⟨0⟩ (.block [⟨1⟩]),
    .overwritePayload ⟨1⟩ (.block [⟨0⟩, ⟨0⟩, ⟨9⟩]), .pushChild ⟨0⟩ .statements ⟨1⟩, .setChildList ⟨1⟩ .statements [],
    .pushChild ⟨0⟩ .statements ⟨1⟩]

theorem chains_end_cyclicRun :
    (runAll (.ofGenerator (.ofPolicy {})) (cyclicRun.take 5)).parent? ⟨0⟩ = some ⟨1⟩ ∧
      (runAll (.ofGenerator (.ofPolicy {})) cyclicRun).parent? ⟨1⟩ = some ⟨0⟩ ∧
      ∃ position, (runAll (.ofGenerator (.ofPolicy {})) cyclicRun).absolutePosition ⟨1⟩ = .ok position :=
  ⟨rfl, rfl, (chains_end (.ofPolicy {}) cyclicRun ⟨1⟩ (by decide)).2.2.1⟩

end Command

end ScriptTree
