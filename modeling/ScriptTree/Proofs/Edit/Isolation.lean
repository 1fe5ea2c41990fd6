import ScriptTree.Proofs.Clone.Outcome
import ScriptTree.Proofs.Edit.Allocation

/-!
# Trees that a move does not touch

The trees of an arena lie in one array, and an edit reaches nodes that it is not given: the former parent of a node that
moves, the content of a slot that is filled, the children of a node whose bounds change.  All of these hang in the trees
of nodes that it is given.  A set of nodes is `Separate` if no link leads into it or out of it, as the nodes of a tree are
(`Rooted.separate`).  A move of nodes outside keeps every node of the set as it is, and the set stays separate (`Spares`).
Then the tree has the same nodes as before (`Spares.hasRoot_iff`), though other trees may have changed their shapes.
-/

namespace ScriptTree

namespace Arena

/-- No parent link leads into a set of nodes, and none out of it. -/
structure Separate (a : Arena) (T : Handle → Prop) : Prop where
  mem : ∀ x, T x → x ∈ a
  link : ∀ x p, a.parent? x = some p → (T x ↔ T p)

/-- The nodes of a separate set are the same in both arenas, and still separate. -/
structure Spares (T : Handle → Prop) (a b : Arena) : Prop where
  node?_eq : ∀ x, T x → b.node? x = a.node? x
  separate : b.Separate T

section Moves

variable {T : Handle → Prop} {a b c : Arena}

theorem Separate.spares_self (hT : a.Separate T) : Spares T a a := ⟨fun _ _ => rfl, hT⟩

theorem Spares.trans (h : Spares T a b) (h' : Spares T b c) : Spares T a c :=
  ⟨fun x hx => (h'.node?_eq x hx).trans (h.node?_eq x hx), h'.separate⟩

theorem Separate.of_nodes_eq (hT : a.Separate T) (h : b.nodes = a.nodes) : Spares T a b := by
  have hn : b.node? = a.node? := by
    funext x
    rw [node?, node?, h]
  have hsize : b.size = a.size := by rw [size, size, h]
  refine ⟨fun x _ => by rw [hn], fun x hx => ?_, fun x p hp => ?_⟩
  · rw [mem_iff, hsize]
    exact hT.mem x hx
  · rw [parent?, hn] at hp
    exact hT.link x p hp

variable (hT : a.Separate T)

include hT

theorem Separate.parent_not_mem {x p : Handle} (hp : a.parent? x = some p) (hx : ¬T x) : ¬T p :=
  fun h => hx ((hT.link x p hp).mpr h)

theorem Separate.child_not_mem {x p : Handle} (hp : a.parent? x = some p) (hx : ¬T p) : ¬T x :=
  fun h => hx ((hT.link x p hp).mp h)

/-- A node outside may be rewritten, as long as it does not get a parent inside. -/
theorem Separate.update {h : Handle} (hh : ¬T h) {f : Node → Node}
    (hf : ∀ node, a.node? h = some node → ∀ p, (f node).parent = some p → ¬T p) : Spares T a (a.update h f) := by
  have hne : ∀ x, T x → x ≠ h := fun x hx hxh => hh (hxh ▸ hx)
  refine ⟨fun x hx => ?_, fun x hx => mem_update.mpr (hT.mem x hx), fun x p hp => ?_⟩
  · rw [node?_update, if_neg (hne x hx)]
  · rw [parent?_update] at hp
    split at hp
    · rename_i hxh
      obtain ⟨node, hn, hp⟩ := Option.bind_eq_some_iff.mp hp
      have hnot := hf node (hxh ▸ hn) p hp
      exact ⟨fun hx => absurd hxh (hne x hx), fun hx => absurd hx hnot⟩
    · exact hT.link x p hp

theorem Separate.update_of_parent {h : Handle} (hh : ¬T h) {f : Node → Node}
    (hf : ∀ node, (f node).parent = node.parent) : Spares T a (a.update h f) := by
  refine hT.update hh fun node hn p hp => ?_
  rw [hf, ← parent?_eq hn] at hp
  exact hT.parent_not_mem hp hh

/-! ### The moves -/

theorem Separate.severed {c : Handle} (hc : ¬T c) : Spares T a (a.severed c) := by
  unfold Arena.severed
  split
  · exact hT.spares_self
  · rename_i p hp
    have hstep : Spares T a (a.update p (Node.mapPayload (·.without c))) :=
      hT.update_of_parent (hT.parent_not_mem hp hc) fun _ => rfl
    exact hstep.trans (hstep.separate.update hc fun _ _ _ h => by cases h)

theorem Separate.severedEach {cs : List Handle} (hcs : ∀ c ∈ cs, ¬T c) : Spares T a (a.severedEach cs) := by
  induction cs generalizing a with
  | nil => exact hT.spares_self
  | cons c cs ih =>
    have hstep := hT.severed (hcs c List.mem_cons_self)
    exact hstep.trans (ih hstep.separate fun x hx => hcs x (List.mem_cons_of_mem _ hx))

theorem Separate.grafted {o c : Handle} {s : Slot} (ho : ¬T o) (hc : ¬T c) : Spares T a (a.grafted o s c) := by
  have hstep : Spares T a (a.update o (Node.mapPayload (·.insertChild s c))) := hT.update_of_parent ho fun _ => rfl
  refine hstep.trans (hstep.separate.update hc fun node _ p hp => ?_)
  obtain rfl : o = p := Option.some.inj hp
  exact ho

theorem Separate.moved {o c : Handle} {s : Slot} (ho : ¬T o) (hc : ¬T c) : Spares T a (a.moved o s c) := by
  have hstep := hT.severed hc
  exact hstep.trans (hstep.separate.grafted ho hc)

theorem Separate.movedEach {o : Handle} {placed : List (Slot × Handle)} (ho : ¬T o) (hplaced : ∀ x ∈ placed, ¬T x.2) :
    Spares T a (a.movedEach o placed) := by
  induction placed generalizing a with
  | nil => exact hT.spares_self
  | cons x placed ih =>
    have hstep : Spares T a (a.moved o x.1 x.2) := hT.moved ho (hplaced x List.mem_cons_self)
    exact hstep.trans (ih hstep.separate fun y hy => hplaced y (List.mem_cons_of_mem _ hy))

/-! ### Extents -/

theorem Separate.shiftedEach (distance : Int) {hs : List Handle} (hhs : ∀ h ∈ hs, ¬T h) :
    Spares T a (a.shiftedEach distance hs) := by
  induction hs generalizing a with
  | nil => exact hT.spares_self
  | cons h hs ih =>
    have hstep : Spares T a (a.update h fun node => { node with span := node.span.shift distance }) :=
      hT.update_of_parent (hhs h List.mem_cons_self) fun _ => rfl
    exact hstep.trans (ih hstep.separate fun x hx => hhs x (List.mem_cons_of_mem _ hx))

theorem Separate.children_not_mem (hw : a.WellFormed) {h : Handle} (hh : ¬T h) : ∀ c ∈ a.handlesAt h, ¬T c :=
  fun _ hc => hT.child_not_mem (hw.mem_handlesAt_iff.mp hc) hh

theorem Separate.repositioned (hw : a.WellFormed) {h : Handle} (hh : ¬T h) (start stop : Int) :
    Spares T a (a.repositioned h start stop) := by
  have hstep := hT.update_of_parent hh (f := fun node =>
    { node with span := { position := node.span.position + (start - a.place h), length := max 0 (stop - start) } })
    fun _ => rfl
  exact hstep.trans (hstep.separate.shiftedEach _ (hT.children_not_mem hw hh))

theorem Separate.recomputed (hw : a.WellFormed) {h : Handle} (hh : ¬T h) : Spares T a (a.recomputed h) := by
  unfold Arena.recomputed
  split
  · exact hT.spares_self
  · split
    · exact hT.repositioned hw hh _ _
    · exact hT.spares_self

theorem Separate.settled (hw : a.WellFormed) {o : Handle} (ho : ¬T o) (s : Slot) : Spares T a (a.settled o s) := by
  unfold Arena.settled
  split
  · exact hT.recomputed hw ho
  · exact hT.spares_self

theorem Separate.filled {o c : Handle} {s : Slot} {old : Option Handle} (ho : ¬T o) (hc : ¬T c)
    (hold : ∀ q ∈ old.toList, ¬T q) (hwf : (a.filled o s c old).WellFormed) : Spares T a (a.filled o s c old) := by
  have hsevered := hT.severed hc
  have heach := hsevered.trans (hsevered.separate.severedEach hold)
  have hgrafted := heach.trans (heach.separate.grafted (s := s) ho hc)
  exact hgrafted.trans (hgrafted.separate.settled ((sameTrees_settled _ o s).symm.wellFormed hwf) ho s)

theorem Separate.spanned {h : Handle} (hh : ¬T h) (span : Span) : Spares T a (a.spanned h span) :=
  hT.update_of_parent hh fun _ => rfl

/-! ### New nodes -/

theorem Separate.new_not_mem {x : Handle} (hx : x ∉ a) : ¬T x := fun h => hx (hT.mem x h)

theorem Separate.seeded (p : Payload) (span : Span) : Spares T a (a.seeded p span) := by
  refine ⟨fun x hx => ?_, fun x hx => mem_seeded.mpr (.inl (hT.mem x hx)), fun x q hq => ?_⟩
  · rw [Arena.seeded, node?_push, size_drawn, if_neg (Nat.ne_of_lt (hT.mem x hx)), node?_drawn]
  · rw [parent?_seeded] at hq
    exact hT.link x q hq

theorem Separate.allocated {p : Payload} (hp : ∀ c ∈ p.handles, ¬T c) (span : Span) :
    Spares T a (a.allocated p span) := by
  have hstep := hT.seeded p span
  refine hstep.trans (hstep.separate.movedEach (hT.new_not_mem (Nat.lt_irrefl a.size)) fun x hx => hp x.2 ?_)
  rw [← Payload.map_snd_placedHandles]
  exact List.mem_map_of_mem hx

/-- The copies of a subtree hang below each other, so no link leads from them to the nodes that were there. -/
theorem CopyOf.spares {source : Arena} {root : Handle} {order : List Handle} (h : source.CopyOf a root order b)
    (hnd : order.Nodup) : Spares T a b := by
  refine ⟨fun x hx => h.node?_old x (hT.mem x hx), fun x hx => ?_, fun x p hp => ?_⟩
  · rw [mem_iff, h.size_eq]
    exact Nat.lt_of_lt_of_le (hT.mem x hx) (Nat.le_add_right _ _)
  · rcases h.old_or_copy (mem_of_parent? hp) hnd with hx | ⟨y, hy, rfl⟩
    · rw [h.parent?_old hx] at hp
      exact hT.link x p hp
    · have hcopy := h.node?_copy y hy
      obtain ⟨node', hn', hparent⟩ := Option.bind_eq_some_iff.mp hp
      rw [hn'] at hcopy
      obtain ⟨node, -, rfl⟩ := Option.map_eq_some_iff.mp hcopy.symm
      have hnew : p ∉ a := by
        simp only [Node.copied] at hparent
        split at hparent
        · cases hparent
        · obtain ⟨q, -, rfl⟩ := Option.map_eq_some_iff.mp hparent
          exact imageOf_not_mem q
      exact ⟨fun hT' => absurd hT' (hT.new_not_mem (imageOf_not_mem y)), fun hT' => absurd hT' (hT.new_not_mem hnew)⟩

end Moves

/-! ### Trees -/

section Trees

variable {T : Handle → Prop} {a b : Arena} {x r : Handle}

/-- The nodes below one root are a separate set. -/
theorem Rooted.separate (hr : a.Rooted) (r : Handle) : a.Separate (a.HasRoot · r) :=
  ⟨fun _ hx => hx.mem, fun _ _ hp => hr.hasRoot_of_parent? hp⟩

/-- With one node a separate set has the whole tree of that node. -/
theorem Separate.iff_of_hasRoot (hT : a.Separate T) (h : a.HasRoot x r) : T x ↔ T r := by
  obtain ⟨path, hp, hlast⟩ := h
  induction hp with
  | @root h mem top =>
    obtain rfl : h = r := Option.some.inj hlast
    exact Iff.rfl
  | step link rest ih =>
    rw [hT.link _ _ link]
    exact ih (by rwa [rest.getLast?_cons] at hlast)

/-- A tree that is spared keeps its nodes, and no other nodes come under its root. -/
theorem Spares.hasRoot_iff (h : Spares (a.HasRoot · r) a b) (hroot : a.HasRoot r r) :
    b.HasRoot x r ↔ a.HasRoot x r := by
  constructor
  · intro hx
    exact (h.separate.iff_of_hasRoot hx).mpr hroot
  · rintro ⟨path, hp, hlast⟩
    -- every node on the way up is in the tree, so its link is the same
    have htree : ∀ y ∈ path, a.HasRoot y r := by
      intro y hy
      obtain ⟨rest, hrest, hsuffix⟩ := hp.suffix hy
      refine ⟨rest, hrest, ?_⟩
      obtain ⟨front, rfl⟩ := hsuffix
      rwa [List.getLast?_append_of_ne_nil front (List.ne_nil_of_mem hrest.self_mem)] at hlast
    refine ⟨path, hp.of_parent?_eq (fun y hy => h.separate.mem y (htree y hy)) (fun y hy => ?_), hlast⟩
    rw [parent?, parent?, h.node?_eq y (htree y hy)]

end Trees

end Arena

end ScriptTree
