import ScriptTree.Arena

/-!
# Edits

An edit is a step on an arena that may fail.  A failed edit keeps the arena as it was at the failure; the edits of this
library check everything first, so on trees that were built by them a failure leaves no trace but the identity that a
failed allocation has drawn.

The steps that every structural edit is made of are `orphan`, `unlink` and `link`: they keep the position of every node
in the source.
-/

namespace ScriptTree

/-- A step on an arena that returns a value or fails. -/
abbrev Edit := EStateM TreeError Arena

namespace Edit

def inspect {α : Type} (query : Arena → Except TreeError α) : Edit α := fun a =>
  match query a with
  | .ok x => .ok x a
  | .error e => .error e a

def modifyNode (h : Handle) (f : Node → Node) : Edit Unit := fun a =>
  if h.index < a.size then
    .ok () (a.update h f)
  else
    .error (.unknownNode h) a

/-- Changes the payload of the node at a handle, without looking at any link. -/
def modifyPayload (h : Handle) (f : Payload → Payload) : Edit Unit :=
  modifyNode h fun node => { node with payload := f node.payload }

def drawId : Edit UInt32 := fun a =>
  let (id, ids) := a.ids.draw
  .ok id { a with ids }

/-- Adds a node as it is, touching no other node. -/
def push (node : Node) : Edit Handle := fun a =>
  .ok ⟨a.size⟩ (a.push node)

/-! ### Running edits -/

theorem run_bind {α β : Type} (e : Edit α) (f : α → Edit β) (a : Arena) :
    (e >>= f) a =
      match e a with
      | .ok x a => f x a
      | .error err a => .error err a := by
  simp only [bind, EStateM.bind]
  split <;> simp_all

theorem run_inspect_of_ok {α : Type} {query : Arena → Except TreeError α} {a : Arena} {x : α} (h : query a = .ok x) :
    inspect query a = .ok x a := by
  simp [inspect, h]

theorem run_inspect_of_error {α : Type} {query : Arena → Except TreeError α} {a : Arena} {e : TreeError}
    (h : query a = .error e) : inspect query a = .error e a := by
  simp [inspect, h]

theorem run_modifyNode {a : Arena} {h : Handle} (hh : h.index < a.size) (f : Node → Node) :
    modifyNode h f a = .ok () (a.update h f) := by
  simp [modifyNode, hh]

/-! ### Links -/

/-- Makes a node a root at its place in the source.  Its former parent has let go of it. -/
def orphan (h : Handle) : Edit Unit := do
  let position ← inspect (·.absolutePosition h)
  modifyNode h fun node => { node with span := { node.span with position }, parent := none }

/-- Takes a node out of the slot of its parent and makes it a root.  The result is the slot. -/
def unlink (child : Handle) : Edit (Option Slot) := do
  match ← inspect (·.parent child) with
  | none => return none
  | some owner =>
    let p ← inspect (·.payload owner)
    match p.slotOf? child with
    | none =>
      orphan child
      return none
    | some slot =>
      modifyPayload owner (·.eraseChild slot child)
      orphan child
      return some slot

/-- Records `owner` as the parent of a root and makes its position relative to `owner`. -/
def link (owner child : Handle) : Edit Unit := do
  let base ← inspect (·.absolutePosition owner)
  modifyNode child fun node => { node with span := node.span.shift (-base), parent := some owner }

/-! ### Allocation -/

/-- Moves each of some nodes from where it hangs to a new owner whose payload holds it already. -/
def adopt (owner : Handle) : List Handle → Edit Unit
  | [] => return ()
  | child :: rest => do
    let _ ← unlink child
    link owner child
    adopt owner rest

/-- Allocates a node with a fresh identity.  The children in the payload are taken from where they hang; required slots
may still be empty. -/
def alloc (payload : Payload) (span : Span) : Edit Handle := do
  let id ← drawId
  inspect (·.checkChildren payload.variant [] payload.placedHandles)
  let node ← push { id, span, payload }
  adopt node payload.handles
  return node

end Edit

end ScriptTree
