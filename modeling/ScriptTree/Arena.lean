import ScriptTree.Change
import ScriptTree.Error
import ScriptTree.Identity
import ScriptTree.Payload.Children
import ScriptTree.Span

/-!
# Arenas

An arena holds the nodes of one or more trees in the order of their allocation, and the generator of their identities.
Nodes know their children through the payload and their parent through a link; the position of a node with a parent is
relative to it, so the position in the source is the sum of the positions up to the root.

This module reads arenas.  Climbing along parent links takes at most one step for each node; links that would take more
lead round in a circle.
-/

namespace ScriptTree

/-- A node: what every variant has, and the payload. -/
structure Node where
  id : UInt32
  span : Span
  parent : Option Handle := none
  payload : Payload
  change : ChangeRecord := {}
  /-- The extent stays as it is when children change. -/
  fixedPosition : Bool := false
deriving DecidableEq, Repr

/-- The nodes of some trees and the generator of their identities. -/
structure Arena where
  nodes : Array Node := #[]
  ids : IdGenerator
deriving DecidableEq, Repr

namespace Arena

def ofGenerator (ids : IdGenerator) : Arena := { ids }

def size (a : Arena) : Nat := a.nodes.size

def get (a : Arena) (h : Handle) : Except TreeError Node :=
  match a.nodes[h.index]? with
  | some node => .ok node
  | none => .error (.unknownNode h)

/-- Whether a handle addresses a node of the arena. -/
def contains (a : Arena) (h : Handle) : Bool := decide (h.index < a.size)

def handles (a : Arena) : List Handle := (List.range a.size).map Handle.mk

/-- The nodes without a parent, in the order of allocation. -/
def roots (a : Arena) : List Handle :=
  a.handles.filter fun h => (a.nodes[h.index]?.map (·.parent)) == some none

def payload (a : Arena) (h : Handle) : Except TreeError Payload := return (← a.get h).payload

def variant (a : Arena) (h : Handle) : Except TreeError Variant := return (← a.payload h).variant

def parent (a : Arena) (h : Handle) : Except TreeError (Option Handle) := return (← a.get h).parent

def id (a : Arena) (h : Handle) : Except TreeError UInt32 := return (← a.get h).id

/-- The arena with the node at a handle changed by `f`. -/
def update (a : Arena) (h : Handle) (f : Node → Node) : Arena := { a with nodes := a.nodes.modify h.index f }

def push (a : Arena) (node : Node) : Arena := { a with nodes := a.nodes.push node }

/-! ### Climbing -/

/-- The sum of the positions from a node up to its root, following at most `fuel` links. -/
def positionWithin (a : Arena) : Nat → Handle → Except TreeError Int
  | 0, h => .error (.cyclic h)
  | fuel + 1, h => do
    let node ← a.get h
    match node.parent with
    | none => return node.span.position
    | some p => return node.span.position + (← a.positionWithin fuel p)

/-- The position of a node in the source. -/
def absolutePosition (a : Arena) (h : Handle) : Except TreeError Int := a.positionWithin (a.size + 1) h

/-- Start and end of a node in the source. -/
def absoluteBounds (a : Arena) (h : Handle) : Except TreeError (Int × Int) := do
  let start ← a.absolutePosition h
  return (start, start + (← a.get h).span.length)

/-- Whether one meets `ancestor` on the way up from a node, following at most `fuel` links. -/
def isAncestorWithin (a : Arena) (ancestor : Handle) : Nat → Handle → Except TreeError Bool
  | 0, h => .error (.cyclic h)
  | fuel + 1, h =>
    if h = ancestor then
      return true
    else do
      match (← a.get h).parent with
      | none => return false
      | some p => a.isAncestorWithin ancestor fuel p

/-- Whether `ancestor` is the node itself or lies above it. -/
def isAncestor (a : Arena) (ancestor h : Handle) : Except TreeError Bool :=
  a.isAncestorWithin ancestor (a.size + 1) h

/-! ### Children -/

/-- The children of a node in the order of a walk.  A hole is an error. -/
def children (a : Arena) (h : Handle) : Except TreeError (List Handle) := do
  let p ← a.payload h
  match p.firstHole? with
  | some slot => throw (.malformed p.variant h slot)
  | none => return p.handles

/-- The error for a slot that a node does not have in the shape asked for. -/
def noSuchSlot (p : Payload) (slot : Slot) : TreeError := .invalidState p.variant (.noSuchSlot slot)

/-- The content of a slot for a single child. -/
def child (a : Arena) (h : Handle) (slot : Slot) : Except TreeError (Option Handle) := do
  let p ← a.payload h
  match p.single? slot with
  | some c => return c
  | none => throw (noSuchSlot p slot)

/-- The content of a slot for a single child that must be there. -/
def requiredChild (a : Arena) (h : Handle) (slot : Slot) : Except TreeError Handle := do
  match ← a.child h slot with
  | some c => return c
  | none => throw (.malformed (← a.variant h) h slot)

/-- The content of a slot for a list. -/
def childList (a : Arena) (h : Handle) (slot : Slot) : Except TreeError (List Handle) := do
  let p ← a.payload h
  match p.list? slot with
  | some cs => return cs
  | none => throw (noSuchSlot p slot)

/-- Whether a slot for a single child is a required one. -/
def isRequired (a : Arena) (h : Handle) (slot : Slot) : Except TreeError Bool := do
  let p ← a.payload h
  match p.isRequired? slot with
  | some required => return required
  | none => throw (noSuchSlot p slot)

/-- Whether a slot is a list; a slot that the node does not have in any shape is an error. -/
def isList (a : Arena) (h : Handle) (slot : Slot) : Except TreeError Bool := do
  let p ← a.payload h
  match p.childSlot? slot with
  | some c => return c.list?.isSome
  | none => throw (noSuchSlot p slot)

/-! ### Properties of single nodes -/

/-- Whether a node stands where a statement may stand. -/
def isStatement (a : Arena) (h : Handle) : Except TreeError Bool := return (← a.payload h).isStatement

/-- Whether a keyword literal is a truth value. -/
def isBooleanLiteral (a : Arena) (h : Handle) : Except TreeError Bool := do
  match ← a.payload h with
  | .keywordLiteral k => return k.isBoolean
  | p => throw (.invalidState p.variant .notAKeywordLiteral)

/-! ### Checks before an edit -/

/-- Whether a node may become a child of a slot of `owner`: it is a node of the arena, and neither `owner` nor above
it. -/
def checkAttachable (a : Arena) (owner : Handle) (slot : Slot) (child : Handle) : Except TreeError Unit := do
  let v ← a.variant owner
  if !a.contains child then
    throw (.invalidChild v slot .notInArena)
  if ← a.isAncestor child owner then
    throw (.invalidChild v slot .cycle)

/-- Whether some nodes may become the content of a list slot of `owner`, one after the other: each may be attached, and
none is among the nodes `seen` before it. -/
def checkEntries (a : Arena) (owner : Handle) (slot : Slot) : List Handle → List Handle → Except TreeError Unit
  | _, [] => return ()
  | seen, child :: rest => do
    a.checkAttachable owner slot child
    if seen.contains child then
      throw (.invalidChild (← a.variant owner) slot .repeated)
    a.checkEntries owner slot (child :: seen) rest

/-- Whether some nodes may become the children of a new node, one after the other: each is a node of the arena, and none
is among the nodes `seen` before it. -/
def checkChildren (a : Arena) (v : Variant) : List Handle → List (Slot × Handle) → Except TreeError Unit
  | _, [] => return ()
  | seen, (slot, child) :: rest => do
    if !a.contains child then
      throw (.invalidChild v slot .notInArena)
    if seen.contains child then
      throw (.invalidChild v slot .repeated)
    a.checkChildren v (child :: seen) rest

/-! ### Look-up -/

theorem get_eq_ok_iff {a : Arena} {h : Handle} {node : Node} :
    a.get h = .ok node ↔ a.nodes[h.index]? = some node := by
  unfold get; split <;> simp_all

theorem get_eq_error_iff {a : Arena} {h : Handle} {e : TreeError} :
    a.get h = .error e ↔ a.size ≤ h.index ∧ e = .unknownNode h := by
  unfold get size
  split
  · rename_i node hn
    have := (Array.getElem?_eq_some_iff.mp hn).1
    simp; omega
  · rename_i hn
    have := Array.getElem?_eq_none_iff.mp hn
    simp [this, eq_comm]

@[simp] theorem size_update (a : Arena) (h : Handle) (f : Node → Node) : (a.update h f).size = a.size := by
  simp [update, size]

@[simp] theorem ids_update (a : Arena) (h : Handle) (f : Node → Node) : (a.update h f).ids = a.ids := rfl

/-- Changing a node changes what is found at its handle and nothing else. -/
theorem get_update (a : Arena) (h : Handle) (f : Node → Node) (x : Handle) :
    (a.update h f).get x = if x = h then (a.get x).map f else a.get x := by
  simp only [get, update, Array.getElem?_modify]
  by_cases hx : x = h
  · subst hx
    cases a.nodes[x.index]? <;> simp [Except.map]
  · have hi : h.index ≠ x.index := fun hi => hx (Handle.index_injective hi.symm)
    simp [hx, hi]

@[simp] theorem size_push (a : Arena) (node : Node) : (a.push node).size = a.size + 1 := by
  simp [push, size]

@[simp] theorem ids_push (a : Arena) (node : Node) : (a.push node).ids = a.ids := rfl

/-- A new node is found behind the others, which stay where they are. -/
theorem get_push (a : Arena) (node : Node) (x : Handle) :
    (a.push node).get x = if x.index = a.size then .ok node else a.get x := by
  simp only [get, push, size, Array.getElem?_push]
  by_cases hx : x.index = a.nodes.size <;> simp only [hx, ↓reduceIte]

theorem mem_handles {a : Arena} {h : Handle} : h ∈ a.handles ↔ h.index < a.size := by
  simp only [handles, List.mem_map, List.mem_range]
  constructor
  · rintro ⟨i, hi, rfl⟩
    exact hi
  · intro hi
    exact ⟨h.index, hi, rfl⟩

end Arena

end ScriptTree
