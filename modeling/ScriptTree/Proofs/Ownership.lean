import ScriptTree.Proofs.Links
import ScriptTree.Proofs.Payload.Slots

/-!
# Ownership

In a well-formed arena the slots of payloads and the parent links agree: a node stands once among the children of its
parent and nowhere else, and every node has a root above it.  Two moves are behind all structural edits: `severed`
takes a node out of its slot and makes it a root at its place in the source, and `grafted` puts a root into a slot with
room for it.  Both keep an arena well formed, the second one unless it would close a circle.
-/

namespace ScriptTree

/-- The node below another parent, or as a root, at a position given for there. -/
def Node.rehome (node : Node) (parent : Option Handle) (position : Int) : Node :=
  { node with span := { node.span with position }, parent }

def Node.mapPayload (f : Payload → Payload) (node : Node) : Node := { node with payload := f node.payload }

namespace Arena

section Views

variable {a : Arena} {h : Handle} {f : Node → Node}

theorem parent?_update_of_eq (hf : ∀ node, (f node).parent = node.parent) (x : Handle) :
    (a.update h f).parent? x = a.parent? x := by
  simp only [parent?_update, hf]
  split <;> rfl

theorem handlesAt_update_of_eq (hf : ∀ node, a.node? h = some node → (f node).payload.handles = node.payload.handles)
    (x : Handle) : (a.update h f).handlesAt x = a.handlesAt x := by
  rw [handlesAt_update]
  split
  · rename_i hx
    subst hx
    cases hn : a.node? x with
    | none => simp [handlesAt, hn]
    | some node => rw [handlesAt_eq hn, Option.map_some, Option.getD_some, hf node hn]
  · rfl

@[simp] theorem parent?_update_mapPayload (f : Payload → Payload) (x : Handle) :
    (a.update h (Node.mapPayload f)).parent? x = a.parent? x :=
  parent?_update_of_eq (f := Node.mapPayload f) (fun _ => rfl) x

@[simp] theorem handlesAt_update_rehome (g : Node → Int) (p : Option Handle) (x : Handle) :
    (a.update h fun node => node.rehome p (g node)).handlesAt x = a.handlesAt x :=
  handlesAt_update_of_eq (f := fun node => node.rehome p (g node)) (fun _ _ => rfl) x

@[simp] theorem offset_update_mapPayload (f : Payload → Payload) (x : Handle) :
    (a.update h (Node.mapPayload f)).offset x = a.offset x := by
  rw [offset_update]
  split <;> rfl

theorem parent?_update_rehome (hh : h ∈ a) (g : Node → Int) (p : Option Handle) (x : Handle) :
    (a.update h fun node => node.rehome p (g node)).parent? x = if x = h then p else a.parent? x := by
  rw [parent?_update]
  split
  · rename_i hx
    obtain ⟨node, hn⟩ := mem_iff_node?.mp hh
    rw [hx, hn]
    rfl
  · rfl

end Views

/-- Slots and parent links agree. -/
structure WellFormed (a : Arena) : Prop where
  /-- What stands in a slot is a node of the arena. -/
  child_mem : ∀ p ∈ a, ∀ c ∈ a.handlesAt p, c ∈ a
  /-- A node stands once among the children of its parent, and not at all among those of another node. -/
  count_eq : ∀ p ∈ a, ∀ c ∈ a, (a.handlesAt p).count c = if a.parent? c = some p then 1 else 0
  /-- Following parent links from a node leads to a root. -/
  rooted : a.Rooted

namespace WellFormed

variable {a b : Arena}

/-- The agreement holds for any two handles, nodes or not. -/
theorem count_handlesAt (hw : a.WellFormed) (p c : Handle) :
    (a.handlesAt p).count c = if a.parent? c = some p then 1 else 0 := by
  by_cases hp : p ∈ a
  · by_cases hc : c ∈ a
    · exact hw.count_eq p hp c hc
    · have hpar : a.parent? c ≠ some p := fun h => hc (mem_of_parent? h)
      rw [if_neg hpar, List.count_eq_zero]
      exact fun hm => hc (hw.child_mem p hp c hm)
  · have hpar : a.parent? c ≠ some p := fun h => hp (hw.rooted.mem_of_parent?_eq h)
    rw [if_neg hpar, List.count_eq_zero]
    exact fun hm => hp (mem_of_mem_handlesAt hm)

theorem of_count (hr : a.Rooted)
    (h : ∀ p c, (a.handlesAt p).count c = if a.parent? c = some p then 1 else 0) : a.WellFormed where
  child_mem p _ c hc := by
    have hpos := List.count_pos_iff.mpr hc
    rw [h] at hpos
    by_contra hm
    rw [if_neg fun hp => hm (mem_of_parent? hp)] at hpos
    omega
  count_eq p _ c _ := h p c
  rooted := hr

theorem mem_handlesAt_iff (hw : a.WellFormed) {p c : Handle} : c ∈ a.handlesAt p ↔ a.parent? c = some p := by
  rw [← List.count_pos_iff, hw.count_handlesAt]
  split <;> simp_all

theorem nodup_handlesAt (hw : a.WellFormed) (p : Handle) : (a.handlesAt p).Nodup := by
  rw [List.nodup_iff_count_le_one]
  intro c
  rw [hw.count_handlesAt]
  split <;> omega

end WellFormed

/-! ### Changes beside the trees -/

/-- The arenas have the same nodes with the same parents and children; all else may differ. -/
structure SameTrees (a b : Arena) : Prop where
  size_eq : b.size = a.size
  parent?_eq (h : Handle) : b.parent? h = a.parent? h
  handlesAt_eq (h : Handle) : b.handlesAt h = a.handlesAt h

namespace SameTrees

variable {a b c : Arena}

theorem refl (a : Arena) : a.SameTrees a := ⟨rfl, fun _ => rfl, fun _ => rfl⟩

theorem symm (h : a.SameTrees b) : b.SameTrees a where
  size_eq := h.size_eq.symm
  parent?_eq x := (h.parent?_eq x).symm
  handlesAt_eq x := (h.handlesAt_eq x).symm

theorem trans (h : a.SameTrees b) (h' : b.SameTrees c) : a.SameTrees c where
  size_eq := h'.size_eq.trans h.size_eq
  parent?_eq x := (h'.parent?_eq x).trans (h.parent?_eq x)
  handlesAt_eq x := (h'.handlesAt_eq x).trans (h.handlesAt_eq x)

theorem update {h : Handle} {f : Node → Node} (hpar : ∀ node, (f node).parent = node.parent)
    (hhandles : ∀ node, a.node? h = some node → (f node).payload.handles = node.payload.handles) :
    a.SameTrees (a.update h f) :=
  ⟨size_update a h f, parent?_update_of_eq hpar, handlesAt_update_of_eq hhandles⟩

theorem mem_iff (h : a.SameTrees b) {x : Handle} : x ∈ b ↔ x ∈ a := by
  rw [Arena.mem_iff, Arena.mem_iff, h.size_eq]

theorem wellFormed (h : a.SameTrees b) (hw : a.WellFormed) : b.WellFormed := by
  refine .of_count (hw.rooted.of_cut (fun _ => h.mem_iff) fun x => .inl (h.parent?_eq x)) ?_
  intro p c
  rw [h.handlesAt_eq, h.parent?_eq, hw.count_handlesAt]

end SameTrees

theorem WellFormed.of_nodes_eq {a b : Arena} (hw : a.WellFormed) (h : b.nodes = a.nodes) : b.WellFormed := by
  have hn : b.node? = a.node? := by
    funext x
    rw [node?, node?, h]
  have hsame : a.SameTrees b := by
    refine ⟨by rw [size, size, h], fun x => ?_, fun x => ?_⟩
    · rw [parent?, parent?, hn]
    · rw [handlesAt, handlesAt, hn]
  exact hsame.wellFormed hw

theorem wellFormed_ofGenerator (ids : IdGenerator) : (ofGenerator ids).WellFormed := by
  have hempty : ∀ h, (ofGenerator ids).node? h = none := fun h => rfl
  refine .of_count ?_ ?_
  · intro h hh
    simp [mem_iff, ofGenerator, size] at hh
  · intro p c
    simp [handlesAt, parent?, hempty]

/-! ### Adding a leaf -/

section Push

variable {a : Arena} {node : Node}

theorem parent?_push (hroot : node.parent = none) (x : Handle) : (a.push node).parent? x = a.parent? x := by
  rw [parent?, node?_push]
  split
  · rename_i hx
    have hnone : a.node? x = none := node?_eq_none (by rw [mem_iff]; omega)
    rw [parent?, hnone]
    simpa using hroot
  · rfl

theorem handlesAt_push (hleaf : node.payload.handles = []) (x : Handle) :
    (a.push node).handlesAt x = a.handlesAt x := by
  rw [handlesAt, node?_push]
  split
  · rename_i hx
    have hnone : a.node? x = none := node?_eq_none (by rw [mem_iff]; omega)
    rw [handlesAt, hnone]
    simpa using hleaf
  · rfl

theorem Rooted.push (hr : a.Rooted) (hroot : node.parent = none) : (a.push node).Rooted := by
  intro h hh
  by_cases hnew : h ∈ a
  · obtain ⟨path, hp⟩ := hr h hnew
    exact ⟨path, hp.of_parent?_eq (fun x hx => mem_push.mpr (.inl (mem_handles.mp (hp.subset_handles hx))))
      (fun x _ => parent?_push hroot x)⟩
  · refine ⟨[h], .root hh ?_⟩
    rw [parent?_push hroot, parent?, node?_eq_none hnew]
    rfl

theorem WellFormed.push (hw : a.WellFormed) (hroot : node.parent = none) (hleaf : node.payload.handles = []) :
    (a.push node).WellFormed := by
  refine .of_count (hw.rooted.push hroot) fun p c => ?_
  rw [handlesAt_push hleaf, parent?_push hroot, hw.count_handlesAt]

end Push

/-! ### Taking a node out -/

/-- The arena in which a node has been taken out of its slot and is a root at its place in the source. -/
def severed (a : Arena) (c : Handle) : Arena :=
  match a.parent? c with
  | none => a
  | some p => (a.update p (Node.mapPayload (·.without c))).update c (·.rehome none (a.place c))

section Severed

variable {a : Arena} {c : Handle}

theorem severed_of_root (h : a.parent? c = none) : a.severed c = a := by
  rw [severed, h]

@[simp] theorem size_severed : (a.severed c).size = a.size := by
  unfold severed; split <;> simp

@[simp] theorem ids_severed : (a.severed c).ids = a.ids := by
  unfold severed; split <;> simp

@[simp] theorem mem_severed {x : Handle} : x ∈ a.severed c ↔ x ∈ a := by
  simp [mem_iff]

theorem parent?_severed (x : Handle) : (a.severed c).parent? x = if x = c then none else a.parent? x := by
  cases hp : a.parent? c with
  | none =>
    rw [severed_of_root hp]
    split
    · rename_i hx
      rw [hx, hp]
    · rfl
  | some p =>
    simp only [severed, hp]
    rw [parent?_update_rehome (mem_update.mpr (mem_of_parent? hp)), parent?_update_mapPayload]

/-- Of the other nodes only the parent changes: it loses the child. -/
theorem node?_severed {x : Handle} (hx : x ≠ c) :
    (a.severed c).node? x =
      if a.parent? c = some x then (a.node? x).map (Node.mapPayload (·.without c)) else a.node? x := by
  cases hp : a.parent? c with
  | none => rw [severed_of_root hp, if_neg (by simp)]
  | some p =>
    simp only [severed, hp, node?_update, hx, ↓reduceIte, Option.some.injEq, eq_comm]

theorem node?_severed_self {p : Handle} (hp : a.parent? c = some p) (hne : c ≠ p) :
    (a.severed c).node? c = (a.node? c).map (·.rehome none (a.place c)) := by
  simp only [severed, hp, node?_update, hne, ↓reduceIte]

theorem Ascent.severed {h : Handle} {path : List Handle} (hp : a.Ascent h path) (hc : c ∉ path) :
    (a.severed c).Ascent h path := by
  refine hp.of_parent?_eq (fun x hx => mem_severed.mpr (mem_handles.mp (hp.subset_handles hx))) ?_
  intro x hx
  rw [parent?_severed, if_neg]
  exact fun hxc => hc (hxc ▸ hx)

theorem count_handlesAt_severed (hw : a.WellFormed) (p x : Handle) :
    ((a.severed c).handlesAt p).count x = if x = c then 0 else (a.handlesAt p).count x := by
  cases hq : a.parent? c with
  | none =>
    rw [severed_of_root hq]
    split
    · rename_i hx
      rw [hx, hw.count_handlesAt, if_neg (by simp [hq])]
    · rfl
  | some q =>
    have hkeep : (a.severed c).handlesAt p = (a.update q (Node.mapPayload (·.without c))).handlesAt p := by
      simp only [severed, hq]
      exact handlesAt_update_rehome _ _ p
    rw [hkeep, handlesAt_update]
    by_cases hp : p = q
    · subst hp
      obtain ⟨node, hn⟩ := mem_iff_node?.mp (hw.rooted.mem_of_parent?_eq hq)
      have hc : c ∈ node.payload.handles := handlesAt_eq hn ▸ hw.mem_handlesAt_iff.mpr hq
      have hwithout := Payload.count_without hc x
      have hone : (a.handlesAt p).count c = 1 := by rw [hw.count_handlesAt, if_pos hq]
      simp only [handlesAt, hn, Option.map_some, Option.getD_some, ↓reduceIte, Node.mapPayload] at hone ⊢
      split <;> simp_all
    · rw [if_neg hp]
      split
      · rename_i hx
        rw [hx, hw.count_handlesAt, if_neg]
        rw [hq, Option.some.injEq]
        exact fun h => hp h.symm
      · rfl

theorem Rooted.severed (hr : a.Rooted) (c : Handle) : (a.severed c).Rooted := by
  refine hr.of_cut (fun _ => mem_severed) fun h => ?_
  rw [parent?_severed]
  split <;> simp

theorem WellFormed.severed (hw : a.WellFormed) (c : Handle) : (a.severed c).WellFormed := by
  refine .of_count (hw.rooted.severed c) fun p x => ?_
  rw [count_handlesAt_severed hw, parent?_severed, hw.count_handlesAt]
  split <;> simp

end Severed

/-! ### Putting a root in -/

/-- The arena in which a root stands in a slot of a node; its position is counted from there. -/
def grafted (a : Arena) (o : Handle) (s : Slot) (c : Handle) : Arena :=
  (a.update o (Node.mapPayload (·.insertChild s c))).update c
    fun node => node.rehome (some o) (node.span.position - a.place o)

section Grafted

variable {a : Arena} {o c : Handle} {s : Slot}

@[simp] theorem size_grafted : (a.grafted o s c).size = a.size := by simp [grafted]

@[simp] theorem ids_grafted : (a.grafted o s c).ids = a.ids := by simp [grafted]

@[simp] theorem mem_grafted {x : Handle} : x ∈ a.grafted o s c ↔ x ∈ a := by simp [mem_iff]

theorem parent?_grafted (hc : c ∈ a) (x : Handle) :
    (a.grafted o s c).parent? x = if x = c then some o else a.parent? x := by
  rw [grafted, parent?_update_rehome (mem_update.mpr hc), parent?_update_mapPayload]

/-- Of the other nodes only the new parent changes: it has one more child. -/
theorem node?_grafted {x : Handle} (hx : x ≠ c) :
    (a.grafted o s c).node? x = if x = o then (a.node? x).map (Node.mapPayload (·.insertChild s c)) else a.node? x := by
  rw [grafted, node?_update, if_neg hx, node?_update]

theorem node?_grafted_self (hne : c ≠ o) : (a.grafted o s c).node? c =
    (a.node? c).map fun node => node.rehome (some o) (node.span.position - a.place o) := by
  rw [grafted, node?_update, if_pos rfl, node?_update, if_neg hne]

theorem Ascent.grafted {h : Handle} {path : List Handle} (hp : a.Ascent h path) (hc : c ∈ a) (hpath : c ∉ path) :
    (a.grafted o s c).Ascent h path := by
  refine hp.of_parent?_eq (fun x hx => mem_grafted.mpr (mem_handles.mp (hp.subset_handles hx))) ?_
  intro x hx
  rw [parent?_grafted hc, if_neg]
  exact fun hxc => hpath (hxc ▸ hx)

theorem count_handlesAt_grafted {node : Node} (hn : a.node? o = some node) (hs : node.payload.HasRoom s)
    (p x : Handle) :
    ((a.grafted o s c).handlesAt p).count x = (a.handlesAt p).count x + if p = o ∧ x = c then 1 else 0 := by
  have hkeep : (a.grafted o s c).handlesAt p = (a.update o (Node.mapPayload (·.insertChild s c))).handlesAt p :=
    handlesAt_update_rehome _ _ p
  rw [hkeep, handlesAt_update]
  by_cases hp : p = o
  · subst hp
    simp [handlesAt, hn, Node.mapPayload, Payload.count_insertChild hs]
  · simp [hp]

theorem Rooted.grafted (hr : a.Rooted) {path : List Handle} (hc : c ∈ a) (ho : a.Ascent o path) (hpath : c ∉ path) :
    (a.grafted o s c).Rooted := by
  have hpar := parent?_grafted (o := o) (s := s) hc
  refine hr.of_link (fun _ => mem_grafted) ho hpath (fun h hh => ?_) ?_
  · rw [hpar, if_neg hh]
  · rw [hpar, if_pos rfl]

/-- Putting a root into a slot with room for it keeps an arena well formed, unless the owner hangs below the root. -/
theorem WellFormed.grafted (hw : a.WellFormed) {node : Node} {path : List Handle} (hn : a.node? o = some node)
    (hs : node.payload.HasRoom s) (hc : c ∈ a) (hroot : a.parent? c = none) (ho : a.Ascent o path) (hpath : c ∉ path) :
    (a.grafted o s c).WellFormed := by
  refine .of_count (hw.rooted.grafted hc ho hpath) fun p x => ?_
  rw [count_handlesAt_grafted hn hs, parent?_grafted hc, hw.count_handlesAt]
  by_cases hx : x = c
  · subst hx
    simp [hroot, eq_comm]
  · simp [hx]

end Grafted

end Arena

end ScriptTree
