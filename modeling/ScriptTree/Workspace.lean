import ScriptTree.Command

/-!
# Workspaces

Several arenas side by side.  Arenas may share a generator of identities: then the identities that one of them draws are
not drawn by the others, and a clone in another arena still says which node it comes from.
-/

namespace ScriptTree

/-- The nodes of an arena and the number of the generator that it draws from. -/
structure Shelf where
  nodes : Array Node := #[]
  generator : Nat
deriving DecidableEq, Repr

structure Workspace where
  shelves : Array Shelf := #[]
  generators : Array IdGenerator := #[]
deriving DecidableEq, Repr

namespace Workspace

def size (w : Workspace) : Nat := w.shelves.size

def arena? (w : Workspace) (i : Nat) : Option Arena := do
  let shelf ← w.shelves[i]?
  let ids ← w.generators[shelf.generator]?
  return { nodes := shelf.nodes, ids }

/-- Puts an arena back at its number; its generator goes back to all arenas that share it. -/
def put (w : Workspace) (i : Nat) (a : Arena) : Workspace :=
  match w.shelves[i]? with
  | some shelf =>
    { shelves := w.shelves.setIfInBounds i { shelf with nodes := a.nodes }
      generators := w.generators.setIfInBounds shelf.generator a.ids }
  | none => w

/-- Adds an arena with nodes of its own that draws from a given generator. -/
def addShelf (w : Workspace) (nodes : Array Node) (generator : Nat) : Workspace :=
  { w with shelves := w.shelves.push { nodes, generator } }

/-- Adds an empty arena with a generator of its own. -/
def addArena (w : Workspace) (policy : IdPolicy) : Workspace :=
  { w with generators := w.generators.push (.ofPolicy policy) }.addShelf #[] w.generators.size

def ofPolicy (policy : IdPolicy) : Workspace := ({} : Workspace).addArena policy

/-- Adds an empty arena that shares the generator of arena `i`. -/
def addSharing? (w : Workspace) (i : Nat) : Option Workspace := do
  let shelf ← w.shelves[i]?
  return w.addShelf #[] shelf.generator

/-- Adds a copy of arena `i`, which shares its generator. -/
def duplicate? (w : Workspace) (i : Nat) : Option Workspace := do
  let shelf ← w.shelves[i]?
  return w.addShelf shelf.nodes shelf.generator

/-- Does an edit on arena `i`.  A failed edit keeps what it changed. -/
def edit? {α : Type} (w : Workspace) (i : Nat) (e : Edit α) : Option (Except TreeError α × Workspace) := do
  let a ← w.arena? i
  match e.run a with
  | .ok x a => return (.ok x, w.put i a)
  | .error err a => return (.error err, w.put i a)

/-- Copies the subtree of a node of arena `i` into arena `j`, which may be the same one: the source is read as it was
before. -/
def copyInto? (w : Workspace) (i : Nat) (node : Handle) (j : Nat) :
    Option (Except TreeError CloneMap × Workspace) := do
  let source ← w.arena? i
  w.edit? j (Edit.copyFrom source node)

/-- Copies the subtree of a node of arena `i` into a new arena, which shares the generator.  If that fails no arena is
added. -/
def cloneIntoNewArena? (w : Workspace) (i : Nat) (node : Handle) :
    Option (Except TreeError CloneMap × Workspace) := do
  let extended ← w.addSharing? i
  match ← extended.copyInto? i node w.size with
  | (.ok map, w) => return (.ok map, w)
  | (.error err, _) => return (.error err, w)

/-- Draws an identity from the generator of arena `i`. -/
def drawId? (w : Workspace) (i : Nat) : Option (Except TreeError UInt32 × Workspace) := w.edit? i Edit.drawId

end Workspace

end ScriptTree
