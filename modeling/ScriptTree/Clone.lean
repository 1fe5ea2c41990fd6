import ScriptTree.Edit.Attributes
import ScriptTree.Edit.Structure
import ScriptTree.Walk

/-!
# Clones

A clone of a subtree has the same shape, payloads, identities, marks and extents as its source, and shares no node with
it.  The nodes of the subtree are listed first, in the order of a walk, and a hole among them is an error.  Their copies
are appended as they are; then the handles in each copy are exchanged for those of the copies; last, the copy of the root
becomes a root at the source's place.  The clone map says which copy belongs to which node, so that what is kept
elsewhere about the source can be carried over.
-/

namespace ScriptTree

/-- Which copy belongs to which node, in the order of copying, and the copy of the root. -/
structure CloneMap where
  root : Handle
  entries : List (Handle × Handle)
deriving DecidableEq, Repr

namespace CloneMap

def get? (m : CloneMap) (source : Handle) : Option Handle := (m.entries.find? fun e => e.1 == source).map (·.2)

/-- The number of nodes that have a copy. -/
def size (m : CloneMap) : Nat := m.entries.length

/-- Records the copy of a node; a node that was copied before now has this copy. -/
def insert (m : CloneMap) (source copy : Handle) : CloneMap :=
  if m.entries.any fun e => e.1 == source then
    { m with entries := m.entries.map fun e => if e.1 == source then (source, copy) else e }
  else
    { m with entries := m.entries ++ [(source, copy)] }

@[simp] theorem root_insert (m : CloneMap) (source copy : Handle) : (m.insert source copy).root = m.root := by
  unfold insert
  split <;> rfl

/-- Recording a copy changes what is found for its source and nothing else. -/
theorem get?_insert (m : CloneMap) (source copy x : Handle) :
    (m.insert source copy).get? x = if x = source then some copy else m.get? x := by
  unfold insert
  split
  · rename_i hany
    have hcomp : (fun e : Handle × Handle => e.1 == x) ∘ (fun e => if e.1 == source then (source, copy) else e) =
        fun e => e.1 == x := by
      funext e
      by_cases he : e.1 = source <;> simp [he]
    simp only [get?, List.find?_map, hcomp]
    cases hf : m.entries.find? fun e => e.1 == x with
    | none =>
      have hx : x ≠ source := by
        rintro rfl
        simp only [List.any_eq_true] at hany
        obtain ⟨e, he, hes⟩ := hany
        exact List.find?_eq_none.mp hf e he hes
      simp [hx]
    | some e =>
      have he : e.1 = x := by simpa using List.find?_some hf
      by_cases hx : x = source <;> simp [he, hx]
  · rename_i hany
    simp only [get?, List.find?_append]
    by_cases hx : x = source
    · subst hx
      have hf : m.entries.find? (fun e => e.1 == x) = none := by
        rw [List.find?_eq_none]
        exact fun e he hx => hany (List.any_eq_true.mpr ⟨e, he, hx⟩)
      simp [hf]
    · have hs : source ≠ x := fun h => hx h.symm
      simp [hx, hs]

end CloneMap

/-! ### Exchanging handles -/

/-- The handles exchanged by `f`, up to the first one that `f` does not know; that one is the second result. -/
def relinkHandles (f : Handle → Option Handle) : List Handle → List Handle × Option Handle
  | [] => ([], none)
  | h :: rest =>
    match f h with
    | none => (h :: rest, some h)
    | some k =>
      let (rest, missing) := relinkHandles f rest
      (k :: rest, missing)

/-- The slot with its handles exchanged, as in `relinkHandles`. -/
def ChildSlot.relink (f : Handle → Option Handle) : ChildSlot → ChildSlot × Option Handle
  | .required s c =>
    let (cs, missing) := relinkHandles f c.toList
    (.required s cs.head?, missing)
  | .optional s c =>
    let (cs, missing) := relinkHandles f c.toList
    (.optional s cs.head?, missing)
  | .list s cs =>
    let (cs, missing) := relinkHandles f cs
    (.list s cs, missing)

/-- The slots with their handles exchanged, up to the first handle that `f` does not know. -/
def relinkSlots (f : Handle → Option Handle) : List ChildSlot → List ChildSlot × Option Handle
  | [] => ([], none)
  | c :: rest =>
    match c.relink f with
    | (c, some missing) => (c :: rest, some missing)
    | (c, none) =>
      let (rest, missing) := relinkSlots f rest
      (c :: rest, missing)

/-! ### What is copied -/

namespace Arena

/-- The nodes found so far, the latest first, and behind them what the pending nodes lead to, each followed to its
depth.  A node is found when its children have been read. -/
def orderPending (a : Arena) : List (Nat × Handle) → List Handle → Except TreeError (List Handle)
  | [], found => .ok found.reverse
  | (0, h) :: _, _ => .error (.cyclic h)
  | (depth + 1, h) :: rest, found =>
    match _hc : a.children h with
    | .error e => .error e
    | .ok cs => a.orderPending (cs.map (depth, ·) ++ rest) (h :: found)
termination_by pending => a.weight (pending.map (·.1))
decreasing_by
  have := weight_children_lt _hc depth
  simp only [List.map_append, List.map_map, List.map_cons, weight_append, weight, Function.comp_def,
    Nat.succ_eq_add_one]
  omega

/-- The nodes of a subtree in the order of their copies. -/
def subtreeOrder (a : Arena) (root : Handle) : Except TreeError (List Handle) :=
  a.orderPending [(a.size + 1, root)] []

/-- The search finds what a walk shows to a visitor that wants to see everything. -/
theorem orderPending_eq (a : Arena) (pending : List (Nat × Handle)) (found : List Handle) :
    a.orderPending pending found =
      match a.walkPending recordAll pending found with
      | (.ok _, seen) => .ok seen.reverse
      | (.error e, _) => .error e := by
  fun_induction orderPending a pending found with
  | case1 => simp [walkPending]
  | case2 => simp [walkPending]
  | case3 depth h rest found e hc => simp [walkPending_cons, recordAll, hc]
  | case4 depth h rest found cs hc ih =>
    rw [ih, walkPending_cons]
    simp only [recordAll, hc]

/-- Nodes are copied in the order of a walk, and the copy fails where the walk does. -/
theorem subtreeOrder_eq_preOrder (a : Arena) (root : Handle) : a.subtreeOrder root = a.preOrder root := by
  rw [subtreeOrder, orderPending_eq, preOrder, walk]
  cases hg : a.get root with
  | ok node => rfl
  | error e =>
    -- the walk looks the root up first, the search meets the same error when it reads the children
    have hc : a.children root = .error e := by simp [children, payload, hg, bind, Except.bind]
    simp [walkPending_cons, recordAll, hc]

end Arena

namespace Edit

/-- Makes `owner` the parent of each of some nodes and leaves their positions as they are. -/
def setParentEach (owner : Handle) : List Handle → Edit Unit
  | [] => return ()
  | h :: rest => do
    modifyNode h fun node => { node with parent := some owner }
    setParentEach owner rest

/-- Exchanges the handles in a copy for those of the copies, and the parent links of its children. -/
def relink (map : CloneMap) (copy : Handle) : Edit Unit := do
  let p ← inspect (·.payload copy)
  let (slots, missing) := relinkSlots map.get? p.childSlots
  modifyPayload copy (·.putSlots slots)
  match missing with
  | some h => throw (.unknownNode h)
  | none => setParentEach copy (slots.flatMap ChildSlot.handles)

/-- Appends copies of some nodes as they are.  The copy of `root` is the root of the map. -/
def copyEach (source : Arena) (root : Handle) : List Handle → CloneMap → Edit CloneMap
  | [], map => return map
  | h :: rest, map => do
    let copy ← push (← inspect fun _ => source.get h)
    let map := map.insert h copy
    copyEach source root rest (if h = root then { map with root := copy } else map)

/-- Relinks the copy of each of some nodes. -/
def relinkEach (map : CloneMap) : List Handle → Edit Unit
  | [] => return ()
  | h :: rest => do
    match map.get? h with
    | none => throw (.unknownNode h)
    | some copy => relink map copy
    relinkEach map rest

/-- Copies the nodes `order` of the subtree of `node` in `source` and makes the copy of `node` a root at its place in
the source text. -/
def copyNodes (source : Arena) (node : Handle) (order : List Handle) : Edit CloneMap := do
  let map ← copyEach source node order { root := ⟨0⟩, entries := [] }
  relinkEach map order
  let position ← inspect fun _ => source.absolutePosition node
  modifyNode map.root fun entry => { entry with span := { entry.span with position }, parent := none }
  return map

/-- Copies the subtree of a node of another arena into this one.  No identity is drawn. -/
def copyFrom (source : Arena) (node : Handle) : Edit CloneMap := do
  let order ← inspect fun _ => source.subtreeOrder node
  copyNodes source node order

/-- Hangs a clone below `owner` and gives its root the extent of the source as it is stored. -/
def attachCopy (owner : Handle) (slot : Slot) (isList : Bool) (source copy : Handle) : Edit Unit := do
  let span := (← inspect (·.get source)).span
  if isList then
    pushChild owner slot copy
  else
    let _ ← setChild owner slot (some copy)
  setSpan copy span

/-- Clones a subtree inside the arena: as a new tree, or below `target`, where a list gets it as its last entry and a
single slot has its child displaced. -/
def cloneSubtree (node : Handle) (target : Option (Handle × Slot)) : Edit CloneMap := do
  let order ← inspect (·.subtreeOrder node)
  match target with
  | none => copyNodes (← get) node order
  | some (owner, slot) =>
    let isList ← inspect (·.isList owner slot)
    let map ← copyNodes (← get) node order
    attachCopy owner slot isList node map.root
    return map

end Edit

end ScriptTree
