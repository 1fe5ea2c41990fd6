import ScriptTree.Proofs.Edit.Allocation

/-!
# Payloads and labels under edits

What an edit does to the payload and the labels of a node is read off the two moves: severing takes a child out of the
payload of its parent, grafting puts one into the payload of its new parent, and nothing else is written.  Positions and
extents, which edits rewrite in many places, are not part of a reading.  What of a node does not depend on where it
stands (`Node.unplaced`) is changed by no move at all.
-/

namespace ScriptTree

/-- What of a node does not depend on where it stands: its identity, its marks, and its payload without the children. -/
def Node.unplaced (node : Node) : Node := { node with span := {}, parent := none, payload := node.payload.emptied }

namespace Arena

/-- The payload and the labels of a node. -/
def reading? (a : Arena) (h : Handle) : Option (Payload × ChangeRecord) :=
  (a.node? h).map fun node => (node.payload, node.change)

section Views

variable {a : Arena} {h x : Handle}

theorem reading?_eq {node : Node} (hn : a.node? h = some node) : a.reading? h = some (node.payload, node.change) := by
  rw [reading?, hn, Option.map_some]

theorem reading?_eq_some_iff {p : Payload} {l : ChangeRecord} :
    a.reading? h = some (p, l) ↔ ∃ node, a.node? h = some node ∧ node.payload = p ∧ node.change = l := by
  simp only [reading?, Option.map_eq_some_iff, Prod.mk.injEq]

theorem reading?_update_of_eq {f : Node → Node}
    (hf : ∀ node, (f node).payload = node.payload ∧ (f node).change = node.change) :
    (a.update h f).reading? x = a.reading? x := by
  rw [reading?, reading?, node?_update]
  split
  · simp only [Option.map_map, Function.comp_def, hf]
  · rfl

theorem reading?_update_mapPayload (f : Payload → Payload) :
    (a.update h (Node.mapPayload f)).reading? x =
      if x = h then ((a.reading? x).map fun r => (f r.1, r.2)) else a.reading? x := by
  rw [reading?, reading?, node?_update]
  split
  · rw [Option.map_map, Option.map_map]
    rfl
  · rfl

@[simp] theorem reading?_update_rehome (g : Node → Int) (p : Option Handle) :
    (a.update h fun node => node.rehome p (g node)).reading? x = a.reading? x :=
  reading?_update_of_eq (f := fun node => node.rehome p (g node)) fun _ => ⟨rfl, rfl⟩

end Views

/-! ### The two moves -/

section Moves

variable {a : Arena} {o c : Handle} {s : Slot}

theorem reading?_severed (x : Handle) :
    (a.severed c).reading? x =
      if a.parent? c = some x then ((a.reading? x).map fun r => (r.1.without c, r.2)) else a.reading? x := by
  cases hp : a.parent? c with
  | none => rw [severed_of_root hp, if_neg (by simp)]
  | some p =>
    simp only [severed, hp, reading?_update_rehome, reading?_update_mapPayload, Option.some.injEq, eq_comm]

theorem reading?_grafted (x : Handle) :
    (a.grafted o s c).reading? x =
      if x = o then ((a.reading? x).map fun r => (r.1.insertChild s c, r.2)) else a.reading? x := by
  rw [grafted, reading?_update_rehome, reading?_update_mapPayload]

/-- The entries of a list go, and the payload of the owner has the list empty. -/
theorem reading?_severedEach (hw : a.WellFormed) {cs : List Handle} (hs : a.HasList o s cs) (x : Handle) :
    (a.severedEach cs).reading? x =
      if x = o then ((a.reading? x).map fun r => (r.1.setList s [], r.2)) else a.reading? x := by
  induction cs generalizing a with
  | nil =>
    obtain ⟨node, hn, hlist⟩ := hs
    split
    · rename_i hx
      subst hx
      rw [reading?_eq hn, Option.map_some, Payload.setList_self hlist]
      exact reading?_eq hn
    · rfl
  | cons c cs ih =>
    have hc := hw.mem_handlesAt_iff.mp (hs.mem_handlesAt List.mem_cons_self)
    have hrest := hs.severed hw (hw.rooted.ne_of_parent? hc).symm
    rw [List.erase_cons_head] at hrest
    show ((a.severed c).severedEach cs).reading? x = _
    rw [ih (hw.severed c) hrest, reading?_severed, hc]
    by_cases hx : x = o
    · subst hx
      obtain ⟨node, hn, hlist⟩ := hs
      have hset := Payload.setList_without hlist List.mem_cons_self (hw.count_payload_le_one hn c) []
      simp [reading?_eq hn, hset]
    · have hox : ¬(some o = some x) := fun h => hx (Option.some.inj h).symm
      simp only [hx, hox, ↓reduceIte]

/-- Roots that move to the end of a list stand there behind its old entries. -/
theorem reading?_movedEach {cs xs : List Handle} (hs : a.HasList o s cs) (hxs : ∀ x ∈ xs, x ∈ a ∧ a.parent? x = none)
    (hnd : xs.Nodup) (x : Handle) :
    (a.movedEach o (xs.map (s, ·))).reading? x =
      if x = o then ((a.reading? x).map fun r => (r.1.setList s (cs ++ xs), r.2)) else a.reading? x := by
  induction xs generalizing a cs with
  | nil =>
    obtain ⟨node, hn, hlist⟩ := hs
    split
    · rename_i hx
      subst hx
      rw [List.append_nil, reading?_eq hn, Option.map_some, Payload.setList_self hlist]
      exact reading?_eq hn
    · rfl
  | cons y xs ih =>
    obtain ⟨hy, hnd⟩ := List.nodup_cons.mp hnd
    obtain ⟨hmem, hroot⟩ := hxs y List.mem_cons_self
    have hmoved : a.moved o s y = a.grafted o s y := by rw [moved, severed_of_root hroot]
    obtain ⟨node, hn, hlist⟩ := hs
    have hread := (reading?_grafted (a := a) (c := y) (s := s) o).trans (by rw [if_pos rfl, reading?_eq hn, Option.map_some])
    obtain ⟨node', hn', hpayload, hchange⟩ := reading?_eq_some_iff.mp hread
    have hlist' : node'.payload.list? s = some (cs ++ [y]) := hpayload ▸ Payload.list?_insertChild hlist y
    have hrest : ∀ z ∈ xs, z ∈ a.grafted o s y ∧ (a.grafted o s y).parent? z = none := by
      intro z hz
      have hzy : z ≠ y := fun h => hy (h ▸ hz)
      rw [mem_grafted, parent?_grafted hmem, if_neg hzy]
      exact hxs z (List.mem_cons_of_mem _ hz)
    show ((a.moved o s y).movedEach o (xs.map (s, ·))).reading? x = _
    rw [hmoved, ih ⟨node', hn', hlist'⟩ hrest hnd, reading?_grafted]
    by_cases hx : x = o
    · subst hx
      have hset : (node.payload.insertChild s y).setList s (cs ++ [y] ++ xs) = node.payload.setList s (cs ++ y :: xs) := by
        rw [← Payload.setList_append_eq_insertChild hlist, Payload.setList_setList, List.append_assoc]
        rfl
      simp only [reading?_eq hn, ↓reduceIte, Option.map_some, hset]
    · simp only [hx, ↓reduceIte]

end Moves

/-! ### Edits that write spans only -/

section Spans

variable {a : Arena}

theorem reading?_shiftedEach (distance : Int) (hs : List Handle) (x : Handle) :
    (a.shiftedEach distance hs).reading? x = a.reading? x := by
  induction hs generalizing a with
  | nil => rfl
  | cons h hs ih =>
    refine ih.trans ?_
    exact reading?_update_of_eq (f := fun node => { node with span := node.span.shift distance }) fun _ => ⟨rfl, rfl⟩

theorem reading?_repositioned (h : Handle) (start stop : Int) (x : Handle) :
    (a.repositioned h start stop).reading? x = a.reading? x := by
  rw [repositioned, reading?_shiftedEach]
  exact reading?_update_of_eq fun _ => ⟨rfl, rfl⟩

theorem reading?_recomputed (h x : Handle) : (a.recomputed h).reading? x = a.reading? x := by
  unfold recomputed
  split
  · rfl
  · split
    · exact reading?_repositioned h _ _ x
    · rfl

theorem reading?_settled (o : Handle) (s : Slot) (x : Handle) : (a.settled o s).reading? x = a.reading? x := by
  unfold settled
  split
  · exact reading?_recomputed o x
  · rfl

end Spans

/-! ### A new node around another one -/

section Enclosed

variable {a : Arena} {p : Payload} {span : Span}

theorem reading?_seeded {x : Handle} (hx : x ∈ a) : (a.seeded p span).reading? x = a.reading? x := by
  rw [reading?, seeded, node?_push, size_drawn, if_neg (Nat.ne_of_lt hx), node?_drawn, reading?]

theorem reading?_seeded_self : (a.seeded p span).reading? ⟨a.size⟩ = some (p.emptied, {}) :=
  reading?_eq node?_seeded_self

end Enclosed

/-! ### What no move changes -/

def unplaced? (a : Arena) (h : Handle) : Option Node := (a.node? h).map Node.unplaced

section Unplaced

variable {a : Arena} {h o c x : Handle} {s : Slot}

theorem unplaced?_update {f : Node → Node} (hf : ∀ node, (f node).unplaced = node.unplaced) :
    (a.update h f).unplaced? x = a.unplaced? x := by
  rw [unplaced?, unplaced?, node?_update]
  split
  · simp only [Option.map_map, Function.comp_def, hf]
  · rfl

theorem unplaced?_update_mapPayload {f : Payload → Payload} (hf : ∀ p, (f p).emptied = p.emptied) :
    (a.update h (Node.mapPayload f)).unplaced? x = a.unplaced? x :=
  unplaced?_update fun node => by simp only [Node.unplaced, Node.mapPayload, hf]

@[simp] theorem unplaced?_update_rehome (g : Node → Int) (p : Option Handle) :
    (a.update h fun node => node.rehome p (g node)).unplaced? x = a.unplaced? x :=
  unplaced?_update (f := fun node => node.rehome p (g node)) fun _ => rfl

@[simp] theorem unplaced?_severed : (a.severed c).unplaced? x = a.unplaced? x := by
  unfold severed
  split
  · rfl
  · rw [unplaced?_update_rehome, unplaced?_update_mapPayload fun p => p.emptied_without c]

@[simp] theorem unplaced?_severedEach (hs : List Handle) : (a.severedEach hs).unplaced? x = a.unplaced? x := by
  induction hs generalizing a with
  | nil => rfl
  | cons h hs ih => exact ih.trans unplaced?_severed

@[simp] theorem unplaced?_grafted : (a.grafted o s c).unplaced? x = a.unplaced? x := by
  rw [grafted, unplaced?_update_rehome, unplaced?_update_mapPayload fun p => p.emptied_insertChild s c]

@[simp] theorem unplaced?_moved : (a.moved o s c).unplaced? x = a.unplaced? x := unplaced?_grafted.trans unplaced?_severed

@[simp] theorem unplaced?_movedEach (placed : List (Slot × Handle)) :
    (a.movedEach o placed).unplaced? x = a.unplaced? x := by
  induction placed generalizing a with
  | nil => rfl
  | cons y placed ih => exact ih.trans unplaced?_moved

@[simp] theorem unplaced?_shiftedEach (distance : Int) (hs : List Handle) :
    (a.shiftedEach distance hs).unplaced? x = a.unplaced? x := by
  induction hs generalizing a with
  | nil => rfl
  | cons h hs ih => exact ih.trans (unplaced?_update fun _ => rfl)

@[simp] theorem unplaced?_recomputed : (a.recomputed h).unplaced? x = a.unplaced? x := by
  unfold recomputed
  split
  · rfl
  · split
    · exact (unplaced?_shiftedEach _ _).trans (unplaced?_update fun _ => rfl)
    · rfl

/-- Recomputing bounds leaves payloads as they are, and fixed extents fixed. -/
theorem exists_node?_recomputed (h : Handle) {node : Node} (hn : a.node? x = some node) :
    ∃ node', (a.recomputed h).node? x = some node' ∧ node'.payload = node.payload ∧
      node'.fixedPosition = node.fixedPosition := by
  obtain ⟨node', hn', hpayload, -⟩ := reading?_eq_some_iff.mp ((reading?_recomputed h x).trans (reading?_eq hn))
  have hunplaced := unplaced?_recomputed (a := a) (h := h) (x := x)
  rw [unplaced?, unplaced?, hn, hn', Option.map_some, Option.map_some, Option.some.injEq] at hunplaced
  have hfixed : node'.unplaced.fixedPosition = node.unplaced.fixedPosition := congrArg Node.fixedPosition hunplaced
  exact ⟨node', hn', hpayload, hfixed⟩

@[simp] theorem unplaced?_settled : (a.settled o s).unplaced? x = a.unplaced? x := by
  unfold settled
  split
  · exact unplaced?_recomputed
  · rfl

@[simp] theorem unplaced?_filled (old : Option Handle) : (a.filled o s c old).unplaced? x = a.unplaced? x := by
  simp [filled]

end Unplaced

end Arena

end ScriptTree
