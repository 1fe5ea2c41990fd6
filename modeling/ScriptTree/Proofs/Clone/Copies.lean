import ScriptTree.Clone
import ScriptTree.Proofs.Edit.Run
import ScriptTree.Proofs.Traversal

/-!
# Copying and relinking

The copies of the nodes of a subtree are appended as they are, and then relinked one by one.  While that goes on, a copy
holds handles of the source and handles of copies side by side, which may even be equal as numbers; `Relinking` says
which is which, by the nodes whose copies were relinked already.  At the end every handle has been exchanged once
(`run_copyNodes`).
-/

namespace ScriptTree

/-! ### Exchanging the handles of a payload -/

def ChildSlot.renamed (f : Handle → Handle) (k : ChildSlot) : ChildSlot :=
  k.overwrite (fun _ c => c.map f) (fun _ cs => cs.map f)

namespace Payload

/-- The payload with every child exchanged. -/
def renamed (f : Handle → Handle) (p : Payload) : Payload := p.overwrite (fun _ c => c.map f) (fun _ cs => cs.map f)

theorem childSlots_renamed (f : Handle → Handle) (p : Payload) :
    (p.renamed f).childSlots = p.childSlots.map (ChildSlot.renamed f) :=
  childSlots_overwrite _ _ p

theorem handles_renamed (f : Handle → Handle) (p : Payload) : (p.renamed f).handles = p.handles.map f := by
  have hk : ∀ k : ChildSlot, (k.renamed f).handles = k.handles.map f := by
    intro k
    cases k with
    | required _ c | optional _ c => cases c <;> rfl
    | list => rfl
  simp [handles, childSlots_renamed, List.flatMap_map, List.map_flatMap, hk]

theorem firstHole?_renamed (f : Handle → Handle) (p : Payload) : (p.renamed f).firstHole? = p.firstHole? := by
  have hk : ∀ k : ChildSlot, (k.renamed f).isHole = k.isHole := by
    intro k
    cases k with
    | required _ c => cases c <;> rfl
    | optional | list => rfl
  have hs : ∀ k : ChildSlot, (k.renamed f).slot = k.slot := ChildSlot.slot_overwrite _ _
  simp only [firstHole?, childSlots_renamed, List.find?_map, Function.comp_def, hk, Option.map_map, hs]

theorem renamed_id (p : Payload) : p.renamed id = p := by
  rw [renamed, Option.map_id, List.map_id_fun]
  exact p.overwrite_self

theorem renamed_congr {f g : Handle → Handle} {p : Payload} (h : ∀ c ∈ p.handles, f c = g c) :
    p.renamed f = p.renamed g := by
  refine overwrite_congr ?_ ?_
  · intro s c hc
    cases c with
    | none => rfl
    | some c => exact congrArg some (h c (mem_handles_of_single? hc))
  · intro s cs hcs
    exact List.map_congr_left fun c hc => h c (mem_handles_of_list? hcs hc)

/-- Putting back all slots with exchanged children exchanges the children of the payload. -/
theorem putSlots_renamed (f : Handle → Handle) (p : Payload) :
    p.putSlots (p.childSlots.map (ChildSlot.renamed f)) = p.renamed f := by
  have hfind : ∀ s, (p.childSlots.map (ChildSlot.renamed f)).find? (fun c => c.slot == s) =
      (p.childSlot? s).map (ChildSlot.renamed f) := by
    intro s
    rw [← childSlots_renamed]
    exact childSlot?_overwrite _ _ p s
  simp only [putSlots, hfind]
  refine overwrite_congr ?_ ?_
  · intro s c hc
    obtain ⟨k, hk, rfl, hsingle⟩ := single?_eq_some_iff.mp hc
    rw [childSlot?_eq_some_iff.mpr ⟨hk, rfl⟩]
    cases k <;> simp_all [ChildSlot.single?, ChildSlot.renamed, ChildSlot.overwrite]
  · intro s cs hcs
    obtain ⟨k, hk, rfl, hlist⟩ := list?_eq_some_iff.mp hcs
    rw [childSlot?_eq_some_iff.mpr ⟨hk, rfl⟩]
    cases k <;> simp_all [ChildSlot.list?, ChildSlot.renamed, ChildSlot.overwrite]

end Payload

section Relink

variable {g : Handle → Option Handle} {f : Handle → Handle}

theorem relinkHandles_eq {hs : List Handle} (h : ∀ x ∈ hs, g x = some (f x)) :
    relinkHandles g hs = (hs.map f, none) := by
  induction hs with
  | nil => rfl
  | cons x hs ih =>
    rw [relinkHandles, h x List.mem_cons_self, ih fun y hy => h y (List.mem_cons_of_mem _ hy)]
    rfl

theorem ChildSlot.relink_eq {k : ChildSlot} (h : ∀ x ∈ k.handles, g x = some (f x)) :
    k.relink g = (k.renamed f, none) := by
  cases k with
  | required s c | optional s c =>
    have hc : ∀ x ∈ c.toList, g x = some (f x) := h
    rw [ChildSlot.relink, relinkHandles_eq hc]
    cases c <;> rfl
  | list s cs =>
    have hcs : ∀ x ∈ cs, g x = some (f x) := h
    rw [ChildSlot.relink, relinkHandles_eq hcs]
    rfl

theorem relinkSlots_eq (ks : List ChildSlot) (h : ∀ k ∈ ks, ∀ x ∈ k.handles, g x = some (f x)) :
    relinkSlots g ks = (ks.map (ChildSlot.renamed f), none) := by
  induction ks with
  | nil => rfl
  | cons k ks ih =>
    rw [relinkSlots, ChildSlot.relink_eq (h k List.mem_cons_self),
      ih fun k' hk' => h k' (List.mem_cons_of_mem _ hk')]
    rfl

end Relink

/-! ### Appending the copies -/

/-- Where the copy of a node goes that is listed in `order`, behind `size` other nodes. -/
def imageOf (size : Nat) (order : List Handle) (x : Handle) : Handle := ⟨size + order.idxOf x⟩

/-- The clone map of some nodes whose copies were appended in order. -/
def CloneMap.ofOrder (size : Nat) (order : List Handle) : CloneMap :=
  { root := ⟨size⟩, entries := order.map fun x => (x, imageOf size order x) }

theorem imageOf_cons_self (size : Nat) (x : Handle) (xs : List Handle) : imageOf size (x :: xs) x = ⟨size⟩ := by
  simp [imageOf]

theorem imageOf_cons_of_ne (size : Nat) {x y : Handle} (hxy : x ≠ y) (xs : List Handle) :
    imageOf size (x :: xs) y = imageOf (size + 1) xs y := by
  simp only [imageOf, List.idxOf_cons_ne xs hxy]
  congr 1
  omega

theorem imageOf_injOn {size : Nat} {order : List Handle} {x y : Handle} (hx : x ∈ order)
    (h : imageOf size order x = imageOf size order y) : x = y := by
  have hidx : order.idxOf x = order.idxOf y := by
    have := congrArg Handle.index h
    simp only [imageOf] at this
    omega
  exact (List.idxOf_inj hx).mp hidx

theorem count_map_imageOf {size : Nat} {order cs : List Handle} (hcs : cs ⊆ order) (x : Handle) :
    (cs.map (imageOf size order)).count (imageOf size order x) = cs.count x := by
  induction cs with
  | nil => rfl
  | cons c cs ih =>
    have hiff : imageOf size order c = imageOf size order x ↔ c = x :=
      ⟨imageOf_injOn (hcs List.mem_cons_self), fun hcx => hcx ▸ rfl⟩
    rw [List.map_cons, List.count_cons, List.count_cons, ih fun y hy => hcs (List.mem_cons_of_mem _ hy)]
    simp only [beq_iff_eq, hiff]

theorem Arena.Listing.imageOf_root {a : Arena} {root : Handle} {order : List Handle} (h : a.Listing [root] order)
    (size : Nat) : imageOf size order root = ⟨size⟩ := by
  obtain ⟨below, rfl⟩ := h.eq_cons
  exact imageOf_cons_self size root below

theorem get?_ofOrder {size : Nat} {order : List Handle} {x : Handle} (hx : x ∈ order) :
    (CloneMap.ofOrder size order).get? x = some (imageOf size order x) := by
  have hfind : order.find? (fun y => y == x) = some x := by
    cases hf : order.find? (fun y => y == x) with
    | none => exact absurd (List.find?_eq_none.mp hf x hx) (by simp)
    | some y =>
      have hy : y = x := by simpa using List.find?_some hf
      rw [hy]
  simp only [CloneMap.get?, CloneMap.ofOrder, List.find?_map, Function.comp_def, hfind]
  rfl

theorem CloneMap.insert_of_new {m : CloneMap} {x : Handle} (h : ∀ e ∈ m.entries, e.1 ≠ x) (copy : Handle) :
    m.insert x copy = { m with entries := m.entries ++ [(x, copy)] } := by
  have hany : (m.entries.any fun e => e.1 == x) = false := by simpa using h
  rw [insert, hany]
  rfl

namespace Edit

open Arena

/-- Appending copies leaves the other nodes where they are and finds a place behind them for each of the copies. -/
theorem run_copyEach {source a : Arena} (root : Handle) {xs : List Handle} {m : CloneMap}
    (hmem : ∀ x ∈ xs, x ∈ source) (hnd : xs.Nodup) (hnew : ∀ e ∈ m.entries, e.1 ∉ xs) :
    ∃ b, copyEach source root xs m a =
        .ok
          { root := if root ∈ xs then imageOf a.size xs root else m.root
            entries := m.entries ++ xs.map fun x => (x, imageOf a.size xs x) } b ∧
      b.size = a.size + xs.length ∧ b.ids = a.ids ∧ (∀ h ∈ a, b.node? h = a.node? h) ∧
      ∀ x ∈ xs, b.node? (imageOf a.size xs x) = source.node? x := by
  induction xs generalizing a m with
  | nil => exact ⟨a, by simp [copyEach, run_pure], rfl, rfl, fun _ _ => rfl, fun x hx => absurd hx List.not_mem_nil⟩
  | cons x xs ih =>
    obtain ⟨hx, hnd⟩ := List.nodup_cons.mp hnd
    obtain ⟨node, hn⟩ := mem_iff_node?.mp (hmem x List.mem_cons_self)
    have hget : (fun _ : Arena => source.get x) a = .ok node := get_eq hn
    have hpush : push node a = .ok ⟨a.size⟩ (a.push node) := rfl
    have himage : ∀ y ∈ xs, imageOf a.size (x :: xs) y = imageOf (a.push node).size xs y := by
      intro y hy
      have hxy : x ≠ y := fun h => hx (h ▸ hy)
      rw [imageOf_cons_of_ne a.size hxy, size_push]
    have hself := imageOf_cons_self a.size x xs
    have hinsert := CloneMap.insert_of_new (m := m) (x := x) (fun e he h => hnew e he (h ▸ List.mem_cons_self)) ⟨a.size⟩
    -- the clone map with the copy of `x`; it may be the root
    obtain ⟨m', hm', hroot, hentries⟩ : ∃ m', m' = (if x = root then
        { m.insert x ⟨a.size⟩ with root := ⟨a.size⟩ } else m.insert x ⟨a.size⟩) ∧
        m'.root = (if x = root then ⟨a.size⟩ else m.root) ∧ m'.entries = m.entries ++ [(x, ⟨a.size⟩)] := by
      refine ⟨_, rfl, ?_, ?_⟩ <;> split <;> simp [hinsert]
    have hnew' : ∀ e ∈ m'.entries, e.1 ∉ xs := by
      intro e he
      rw [hentries, List.mem_append, List.mem_singleton] at he
      rcases he with he | rfl
      · exact fun h => hnew e he (List.mem_cons_of_mem _ h)
      · exact hx
    obtain ⟨b, hrun, hsize, hids, hold, hcopy⟩ := @ih (a.push node) m' (fun y hy => hmem y (List.mem_cons_of_mem _ hy))
      hnd hnew'
    refine ⟨b, ?_, ?_, hids, ?_, ?_⟩
    · rw [copyEach, run_inspect_bind hget, run_bind_of_ok hpush, ← hm', hrun, hroot, hentries]
      have hmap : xs.map (fun y => (y, imageOf (a.push node).size xs y)) =
          xs.map fun y => (y, imageOf a.size (x :: xs) y) :=
        List.map_congr_left fun y hy => by rw [himage y hy]
      rw [hmap, List.map_cons, hself, List.append_assoc, List.singleton_append]
      congr 2
      by_cases hr : root ∈ xs
      · simp only [hr, List.mem_cons, or_true, ↓reduceIte, himage root hr]
      · by_cases hrx : x = root
        · simp only [hrx, hr, ↓reduceIte, List.mem_cons, true_or, ← hself]
        · simp only [hr, hrx, Ne.symm hrx, ↓reduceIte, List.mem_cons, or_self]
    · rw [hsize, size_push, List.length_cons]
      omega
    · intro h hh
      have hne : h.index ≠ a.size := Nat.ne_of_lt hh
      rw [hold h (mem_push.mpr (.inl hh)), node?_push, if_neg hne]
    · intro y hy
      rcases List.mem_cons.mp hy with rfl | hy
      · rw [hself, hold ⟨a.size⟩ (mem_push.mpr (.inr rfl)), node?_push, if_pos rfl, hn]
      · rw [himage y hy, hcopy y hy]

end Edit

/-! ### Relinking the copies -/

/-- The copy of `x` when the copies of `done` have been relinked. -/
def Node.relinked (node : Node) (f : Handle → Handle) (done : List Handle) (x : Handle) : Node :=
  { node with
    payload := if x ∈ done then node.payload.renamed f else node.payload
    parent := node.parent.map fun p => if p ∈ done then f p else p }

section Relinked

variable {f : Handle → Handle} {done : List Handle} {x y : Handle} {node : Node}

theorem Node.relinked_self (hp : node.parent ≠ some x) :
    node.relinked f (x :: done) x = (node.relinked f done x).mapPayload fun _ => node.payload.renamed f := by
  have hparent : (node.parent.map fun p => if p ∈ x :: done then f p else p) =
      node.parent.map fun p => if p ∈ done then f p else p := by
    cases hq : node.parent with
    | none => rfl
    | some p =>
      have hpx : p ≠ x := fun h => hp (h ▸ hq)
      simp [hpx]
  simp only [Node.relinked, Node.mapPayload, List.mem_cons_self, ↓reduceIte, hparent]

theorem Node.relinked_child (hyx : y ≠ x) (hp : node.parent = some x) :
    node.relinked f (x :: done) y = { node.relinked f done y with parent := some (f x) } := by
  simp [Node.relinked, hyx, hp]

theorem Node.relinked_other (hyx : y ≠ x) (hp : node.parent ≠ some x) :
    node.relinked f (x :: done) y = node.relinked f done y := by
  cases hq : node.parent with
  | none => simp [Node.relinked, hyx, hq]
  | some p =>
    have hpx : p ≠ x := fun h => hp (h ▸ hq)
    simp [Node.relinked, hyx, hq, hpx]

end Relinked

/-- An arena `b` in which the nodes `order` of `source` were copied behind the nodes of `dest`, and the copies of `done`
have been relinked. -/
structure Arena.Relinking (source dest : Arena) (order done : List Handle) (b : Arena) : Prop where
  size_eq : b.size = dest.size + order.length
  ids_eq : b.ids = dest.ids
  node?_old : ∀ h ∈ dest, b.node? h = dest.node? h
  node?_copy : ∀ x ∈ order, b.node? (imageOf dest.size order x) =
    (source.node? x).map (·.relinked (imageOf dest.size order) done x)

namespace Arena

variable {source dest b : Arena} {order done : List Handle}

theorem imageOf_not_mem (x : Handle) : imageOf dest.size order x ∉ dest := by
  show ¬dest.size + order.idxOf x < dest.size
  omega

theorem Relinking.imageOf_mem (h : source.Relinking dest order done b) {x : Handle} (hx : x ∈ order) :
    imageOf dest.size order x ∈ b := by
  have hlt := List.idxOf_lt_length_of_mem hx
  rw [mem_iff, h.size_eq]
  exact Nat.add_lt_add_left hlt _

/-- One more copy is relinked when its payload is renamed and its children, which are the copies of the children, have it
for their parent. -/
theorem Relinking.cons (hw : source.WellFormed) (h : source.Relinking dest order done b) {x : Handle} {node : Node}
    (hn : source.node? x = some node) (hdone : x ∉ done) (hclosed : ∀ c ∈ node.payload.handles, c ∈ order) {b' : Arena}
    (hsize : b'.size = b.size) (hids : b'.ids = b.ids)
    (hnode : ∀ y, b'.node? y =
      let written := b.update (imageOf dest.size order x)
        (Node.mapPayload (·.putSlots (node.payload.childSlots.map (ChildSlot.renamed (imageOf dest.size order)))))
      if y ∈ node.payload.handles.map (imageOf dest.size order) then
        (written.node? y).map fun entry => { entry with parent := some (imageOf dest.size order x) }
      else written.node? y) : source.Relinking dest order (x :: done) b' := by
  refine ⟨hsize.trans h.size_eq, hids.trans h.ids_eq, ?_, ?_⟩
  · intro y hy
    have hyx : y ≠ imageOf dest.size order x := fun hyx => imageOf_not_mem x (hyx ▸ hy)
    have hyc : y ∉ node.payload.handles.map (imageOf dest.size order) := by
      intro hyc
      obtain ⟨c, -, rfl⟩ := List.mem_map.mp hyc
      exact imageOf_not_mem c hy
    rw [hnode, if_neg hyc, node?_update, if_neg hyx, h.node?_old y hy]
  · intro y hy
    have hself : imageOf dest.size order y = imageOf dest.size order x ↔ y = x :=
      ⟨imageOf_injOn hy, fun hyx => hyx ▸ rfl⟩
    -- as copies have copies of their own, the children of the copy are the copies of nodes with the parent `x`
    have hchild : imageOf dest.size order y ∈ node.payload.handles.map (imageOf dest.size order) ↔
        source.parent? y = some x := by
      rw [← hw.mem_handlesAt_iff, handlesAt_eq hn, List.mem_map]
      exact ⟨fun ⟨c, hc, hcy⟩ => imageOf_injOn (hclosed c hc) hcy ▸ hc, fun hc => ⟨y, hc, rfl⟩⟩
    simp only [hnode, node?_update, hself, hchild, h.node?_copy y hy]
    cases hny : source.node? y with
    | none => simp
    | some node' =>
      have hparent := parent?_eq hny
      rw [hparent]
      by_cases hyx : y = x
      · subst hyx
        obtain rfl : node = node' := Option.some.inj (hn.symm.trans hny)
        have hroot : node.parent ≠ some y := fun hp => hw.rooted.ne_of_parent? (hparent.trans hp) rfl
        rw [if_neg hroot, if_pos rfl, Option.map_some, Option.map_some, Option.map_some, Node.relinked_self hroot]
        simp only [Node.mapPayload, Node.relinked, if_neg hdone, Payload.putSlots_renamed]
      · rw [if_neg hyx, Option.map_some, Option.map_some]
        by_cases hp : node'.parent = some x
        · rw [if_pos hp, Option.map_some, Node.relinked_child hyx hp]
        · rw [if_neg hp, Option.map_some, Node.relinked_other hyx hp]

end Arena

namespace Edit

open Arena

/-- The arena in which some nodes have the parent `owner`. -/
theorem run_setParentEach (owner : Handle) {hs : List Handle} {a : Arena} (hmem : ∀ h ∈ hs, h ∈ a) :
    ∃ b, setParentEach owner hs a = .ok () b ∧ b.size = a.size ∧ b.ids = a.ids ∧
      ∀ x, b.node? x = if x ∈ hs then (a.node? x).map fun node => { node with parent := some owner } else a.node? x := by
  induction hs generalizing a with
  | nil => exact ⟨a, rfl, rfl, rfl, fun x => by simp⟩
  | cons h hs ih =>
    obtain ⟨b, hrun, hsize, hids, hnode⟩ := @ih (a.update h fun node => { node with parent := some owner })
      (fun x hx => mem_update.mpr (hmem x (List.mem_cons_of_mem _ hx)))
    refine ⟨b, ?_, by rw [hsize, size_update], hids, ?_⟩
    · rw [setParentEach, run_bind_of_ok (run_modifyNode (hmem h List.mem_cons_self) _), hrun]
    · intro x
      rw [hnode, node?_update]
      by_cases hx : x = h
      · by_cases hxs : h ∈ hs <;> simp [hx, hxs, Option.map_map, Function.comp_def]
      · simp [hx]

theorem run_relink {source dest b : Arena} {order done : List Handle} (hw : source.WellFormed)
    (h : source.Relinking dest order done b) {x : Handle} (hx : x ∈ order) (hmem : x ∈ source) (hdone : x ∉ done)
    (hclosed : ∀ c ∈ source.handlesAt x, c ∈ order) :
    ∃ b', relink (.ofOrder dest.size order) (imageOf dest.size order x) b = .ok () b' ∧
      source.Relinking dest order (x :: done) b' := by
  obtain ⟨node, hn⟩ := mem_iff_node?.mp hmem
  rw [handlesAt_eq hn] at hclosed
  have hpayload : b.payload (imageOf dest.size order x) = .ok node.payload := by
    have hcopy := h.node?_copy x hx
    rw [hn, Option.map_some] at hcopy
    rw [payload_eq hcopy, Node.relinked, if_neg hdone]
  have hslots := relinkSlots_eq node.payload.childSlots (g := (CloneMap.ofOrder dest.size order).get?)
    (f := imageOf dest.size order) fun k hk c hc => get?_ofOrder (hclosed c (List.mem_flatMap.mpr ⟨k, hk, hc⟩))
  have hrenamed : (node.payload.childSlots.map (ChildSlot.renamed (imageOf dest.size order))).flatMap
      ChildSlot.handles = node.payload.handles.map (imageOf dest.size order) := by
    rw [← Payload.childSlots_renamed]
    exact Payload.handles_renamed _ _
  have hparents : ∀ c ∈ node.payload.handles.map (imageOf dest.size order),
      c ∈ b.update (imageOf dest.size order x)
        (Node.mapPayload (·.putSlots (node.payload.childSlots.map (ChildSlot.renamed (imageOf dest.size order))))) := by
    intro c hc
    obtain ⟨y, hy, rfl⟩ := List.mem_map.mp hc
    exact mem_update.mpr (h.imageOf_mem (hclosed y hy))
  obtain ⟨b', hrun, hsize, hids, hnode⟩ := run_setParentEach (imageOf dest.size order x) hparents
  refine ⟨b', ?_, h.cons hw hn hdone hclosed (hsize.trans (size_update ..)) (hids.trans (ids_update ..)) hnode⟩
  rw [relink, run_inspect_bind hpayload]
  simp only [hslots, hrenamed]
  rw [run_bind_of_ok (run_modifyPayload (h.imageOf_mem hx) _), hrun]

theorem run_relinkEach {source dest b : Arena} {order done rest : List Handle} (hw : source.WellFormed)
    (h : source.Relinking dest order done b) (hnd : rest.Nodup)
    (hrest : ∀ x ∈ rest, x ∈ order ∧ x ∈ source ∧ x ∉ done ∧ ∀ c ∈ source.handlesAt x, c ∈ order) :
    ∃ b', relinkEach (.ofOrder dest.size order) rest b = .ok () b' ∧
      source.Relinking dest order (rest.reverse ++ done) b' := by
  induction rest generalizing b done with
  | nil => exact ⟨b, rfl, h⟩
  | cons x rest ih =>
    obtain ⟨hx, hmem, hdone, hclosed⟩ := hrest x List.mem_cons_self
    obtain ⟨hxrest, hnd⟩ := List.nodup_cons.mp hnd
    obtain ⟨b₁, hrun₁, h₁⟩ := run_relink hw h hx hmem hdone hclosed
    have hrest' : ∀ y ∈ rest, y ∈ order ∧ y ∈ source ∧ y ∉ x :: done ∧ ∀ c ∈ source.handlesAt y, c ∈ order := by
      intro y hy
      obtain ⟨hyo, hys, hyd, hyc⟩ := hrest y (List.mem_cons_of_mem _ hy)
      have hyx : y ≠ x := fun h => hxrest (h ▸ hy)
      exact ⟨hyo, hys, by simp [hyx, hyd], hyc⟩
    obtain ⟨b', hrun, h'⟩ := ih h₁ hnd hrest'
    refine ⟨b', ?_, by simpa using h'⟩
    rw [relinkEach, get?_ofOrder hx]
    show (relink _ _ >>= _) b = _
    rw [run_bind_of_ok hrun₁]
    exact hrun

end Edit

/-! ### The finished copy -/

/-- The copy of `x` in a clone of the subtree of `root`, which stands at `place` in the source. -/
def Node.copied (node : Node) (f : Handle → Handle) (root : Handle) (place : Int) (x : Handle) : Node :=
  { node with
    payload := node.payload.renamed f
    parent := if x = root then none else node.parent.map f
    span := { node.span with position := if x = root then place else node.span.position } }

/-- An arena `b` that has the nodes of `dest` and behind them a copy of the subtree of `root` in `source`, whose nodes
are `order`. -/
structure Arena.CopyOf (source dest : Arena) (root : Handle) (order : List Handle) (b : Arena) : Prop where
  size_eq : b.size = dest.size + order.length
  ids_eq : b.ids = dest.ids
  node?_old : ∀ h ∈ dest, b.node? h = dest.node? h
  node?_copy : ∀ x ∈ order, b.node? (imageOf dest.size order x) =
    (source.node? x).map (·.copied (imageOf dest.size order) root (source.place root) x)

namespace Arena

/-- When all copies are relinked, only the copy of the root still has the parent and the position of its source. -/
theorem Relinking.copyOf {source dest b : Arena} {root : Handle} {order : List Handle} (hw : source.WellFormed)
    (hl : source.Listing [root] order) (h : source.Relinking dest order order.reverse b) :
    source.CopyOf dest root order (b.update ⟨dest.size⟩ fun entry =>
      { entry with span := { entry.span with position := source.place root }, parent := none }) := by
  have hroot : root ∈ order := hl.subset List.mem_cons_self
  refine ⟨(size_update ..).trans h.size_eq, (ids_update ..).trans h.ids_eq, ?_, ?_⟩
  · intro x hx
    have hne : x ≠ ⟨dest.size⟩ := by
      rintro rfl
      exact Nat.lt_irrefl dest.size hx
    rw [node?_update, if_neg hne, h.node?_old x hx]
  · intro x hx
    have hself : imageOf dest.size order x = ⟨dest.size⟩ ↔ x = root := by
      rw [← hl.imageOf_root]
      exact ⟨imageOf_injOn hx, fun hxr => hxr ▸ rfl⟩
    obtain ⟨node, hn⟩ := mem_iff_node?.mp (hl.mem hx)
    rw [node?_update, h.node?_copy x hx, hn]
    simp only [hself, Option.map_some]
    by_cases hxr : x = root
    · rw [if_pos hxr]
      simp only [Node.relinked, Node.copied, List.mem_reverse, hxr, hroot, ↓reduceIte]
    · obtain ⟨p, hp, hparent⟩ := (hl.links_mem hw hn hx).2 hxr
      rw [if_neg hxr]
      simp only [Node.relinked, Node.copied, List.mem_reverse, hx, hxr, hparent, hp, ↓reduceIte, Option.map_some]

end Arena

namespace Edit

open Arena

/-- Copying the nodes of a subtree succeeds. -/
theorem run_copyNodes {source : Arena} (dest : Arena) {root : Handle} {order : List Handle} (hw : source.WellFormed)
    (hl : source.Listing [root] order) :
    ∃ b, copyNodes source root order dest = .ok (.ofOrder dest.size order) b ∧ source.CopyOf dest root order b := by
  have hnd := hl.nodup hw
  have hroot : root ∈ order := hl.subset List.mem_cons_self
  -- the nodes are copied, then all copies are relinked, and then the copy of the root is made a root
  obtain ⟨b₀, hcopy, hsize, hids, hold, hnode⟩ := run_copyEach (a := dest) root
    (m := { root := ⟨0⟩, entries := [] }) (fun x hx => hl.mem hx) hnd (fun e he => absurd he List.not_mem_nil)
  simp only [hroot, ↓reduceIte, hl.imageOf_root, List.nil_append] at hcopy
  have hstart : source.Relinking dest order [] b₀ := by
    refine ⟨hsize, hids, hold, fun x hx => ?_⟩
    rw [hnode x hx]
    cases source.node? x <;> simp [Node.relinked]
  obtain ⟨b₁, hrelink, h₁⟩ := run_relinkEach hw hstart hnd fun x hx => by
    exact ⟨hx, hl.mem hx, List.not_mem_nil, fun c hc => hl.handlesAt_subset hx hc⟩
  rw [List.append_nil] at h₁
  have hplace : (fun _ : Arena => source.absolutePosition root) b₁ = .ok (source.place root) :=
    hw.rooted.absolutePosition_eq (hl.mem hroot)
  have hrootb : (⟨dest.size⟩ : Handle) ∈ b₁ := hl.imageOf_root dest.size ▸ h₁.imageOf_mem hroot
  refine ⟨_, ?_, h₁.copyOf hw hl⟩
  rw [copyNodes, run_bind_of_ok hcopy]
  show (relinkEach (.ofOrder dest.size order) order >>= _) b₀ = _
  rw [run_bind_of_ok hrelink, run_inspect_bind hplace, run_bind_of_ok (run_modifyNode hrootb _)]
  rfl

end Edit

end ScriptTree
