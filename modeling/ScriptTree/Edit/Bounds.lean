import ScriptTree.Edit

/-!
# Composite bounds

Infix and assignment nodes reach from the start of the left operand to the end of the right one; a unary node ends, or
starts, with its operand; a function ends with its body.  `recomputeBounds` brings the extent of such a node in line
with its children and keeps every child at its place in the source.
-/

namespace ScriptTree

namespace Arena

/-- The start and end that the children of a node ask for, if its variant takes its bounds from children and they are
there. -/
def compositeBounds (a : Arena) (h : Handle) : Except TreeError (Option (Int × Int)) := do
  let (start, stop) ← a.absoluteBounds h
  match ← a.payload h with
  | .assignment o | .infixExpression o =>
    match o.left, o.right with
    | some left, some right => return some ((← a.absoluteBounds left).1, (← a.absoluteBounds right).2)
    | _, _ => return none
  | .unary _ (some operand) afterOperand =>
    let bounds ← a.absoluteBounds operand
    return some (if afterOperand then (bounds.1, stop) else (start, bounds.2))
  | .function f =>
    match f.body with
    | some body => return some (start, (← a.absoluteBounds body).2)
    | none => return none
  | _ => return none

end Arena

namespace Edit

/-- Moves each of some nodes by a distance. -/
def shiftEach (distance : Int) : List Handle → Edit Unit
  | [] => return ()
  | h :: rest => do
    modifyNode h fun node => { node with span := node.span.shift distance }
    shiftEach distance rest

/-- Gives a node the extent from `start` to `stop` and keeps its children where they are in the source. -/
def reposition (h : Handle) (start stop : Int) : Edit Unit := do
  let distance := start - (← inspect (·.absolutePosition h))
  let children := (← inspect (·.payload h)).handles
  modifyNode h fun node =>
    { node with span := { position := node.span.position + distance, length := max 0 (stop - start) } }
  shiftEach (-distance) children

/-- Recomputes the extent of a node whose variant has composite bounds.  A node with a fixed position, of another
variant, or without the children that count stays as it is. -/
def recomputeBounds (h : Handle) : Edit Unit := do
  let node ← inspect (·.get h)
  if node.fixedPosition then
    return ()
  match ← inspect (·.compositeBounds h) with
  | some (start, stop) => reposition h start stop
  | none => return ()

/-- What follows when a single slot has been filled: a function takes its end from its new body. -/
def afterFill (owner : Handle) (slot : Slot) : Edit Unit := do
  if slot = .body then
    if (← inspect (·.variant owner)) = .function then
      recomputeBounds owner

end Edit

end ScriptTree
