import ScriptTree.Edit.Bounds

/-!
# Structural edits

Filling a slot, appending to a list, replacing a list, and detaching.  A node that is put somewhere is first taken from
where it hangs; a node that is displaced becomes a root at its place in the source.
-/

namespace ScriptTree

namespace Edit

/-- Writes a slot for a single child and returns what it held. -/
def replaceSingle (owner : Handle) (slot : Slot) (child : Option Handle) : Edit (Option Handle) := do
  let previous ← inspect (·.child owner slot)
  modifyPayload owner (·.setSingle slot child)
  return previous

def orphanEach : List Handle → Edit Unit
  | [] => return ()
  | h :: rest => do
    orphan h
    orphanEach rest

/-- Puts a child into a slot for a single child, or empties an optional slot.  The result is the child that was
displaced; it is now a root.  A child that is there already stays, and nothing is displaced. -/
def setChild (owner : Handle) (slot : Slot) : Option Handle → Edit (Option Handle)
  | none => do
    if ← inspect (·.isRequired owner slot) then
      throw (.invalidChild (← inspect (·.variant owner)) slot .absent)
    let previous ← replaceSingle owner slot none
    orphanEach previous.toList
    return previous
  | some child => do
    let _ ← inspect (·.isRequired owner slot)
    inspect (·.checkAttachable owner slot child)
    if (← inspect (·.child owner slot)) = some child then
      return none
    let _ ← unlink child
    let previous ← replaceSingle owner slot (some child)
    orphanEach previous.toList
    link owner child
    afterFill owner slot
    return previous

def pushChild (owner : Handle) (slot : Slot) (child : Handle) : Edit Unit := do
  inspect (·.checkAttachable owner slot child)
  let _ ← inspect (·.childList owner slot)
  let _ ← unlink child
  let children ← inspect (·.childList owner slot)
  modifyPayload owner (·.setList slot (children ++ [child]))
  link owner child

/-- Appends children to a list slot one after the other. -/
def pushEach (owner : Handle) (slot : Slot) : List Handle → Edit Unit
  | [] => return ()
  | child :: rest => do
    pushChild owner slot child
    pushEach owner slot rest

/-- Replaces the content of a list slot.  The old entries become roots before the new ones are appended; every new entry
is checked before anything changes. -/
def setChildList (owner : Handle) (slot : Slot) (children : List Handle) : Edit Unit := do
  let previous ← inspect (·.childList owner slot)
  inspect (·.checkEntries owner slot [] children)
  modifyPayload owner (·.setList slot [])
  orphanEach previous
  pushEach owner slot children

/-- Takes a node from its parent.  The result is the parent and the slot; a required slot is left as a hole. -/
def detach (h : Handle) : Edit (Option (Handle × Slot)) := do
  match ← inspect (·.parent h) with
  | none => return none
  | some owner =>
    let slot ← unlink h
    return slot.map fun s => (owner, s)

end Edit

end ScriptTree
