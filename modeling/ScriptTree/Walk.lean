import ScriptTree.Pending

/-!
# Walks

A walk shows the nodes of a subtree to a visitor, each node before its children and the children in the order of their
slots.  After each node the visitor says whether to go down to the children, to leave them out, or to end the walk.  A
visitor may keep a state and decide by all that it has seen.
-/

namespace ScriptTree

inductive Signal
  /-- Go on with the children of the node. -/
  | descend
  /-- Leave the children out. -/
  | skip
  /-- End the walk. -/
  | halt
deriving DecidableEq, Repr

/-- A visitor with states in `σ`: what it wants after a node, and its next state. -/
abbrev Visitor (σ : Type) := σ → Handle → Signal × σ

namespace Arena

/-- Walks the pending nodes one after the other, each with the depth to which it may be followed.  The result says
whether the visitor let the walk run to its end; a hole in a node whose children are wanted is an error. -/
def walkPending {σ : Type} (a : Arena) (visit : Visitor σ) :
    List (Nat × Handle) → σ → Except TreeError Bool × σ
  | [], s => (.ok true, s)
  | (0, h) :: _, s => (.error (.cyclic h), s)
  | (depth + 1, h) :: rest, s =>
    match visit s h with
    | (.halt, s) => (.ok false, s)
    | (.skip, s) => a.walkPending visit rest s
    | (.descend, s) =>
      match _hc : a.children h with
      | .error e => (.error e, s)
      | .ok cs => a.walkPending visit (cs.map (depth, ·) ++ rest) s
termination_by pending => a.weight (pending.map (·.1))
decreasing_by
  · have := a.depthWeight_pos (depth + 1)
    simp only [List.map_cons, weight, Nat.succ_eq_add_one]
    omega
  · have := weight_children_lt _hc depth
    simp only [List.map_append, List.map_map, List.map_cons, weight_append, weight, Function.comp_def,
      Nat.succ_eq_add_one]
    omega

/-- One step of a walk. -/
theorem walkPending_cons {σ : Type} (a : Arena) (visit : Visitor σ) (depth : Nat) (h : Handle)
    (rest : List (Nat × Handle)) (s : σ) :
    a.walkPending visit ((depth + 1, h) :: rest) s =
      match visit s h with
      | (.halt, s) => (.ok false, s)
      | (.skip, s) => a.walkPending visit rest s
      | (.descend, s) =>
        match a.children h with
        | .error e => (.error e, s)
        | .ok cs => a.walkPending visit (cs.map (depth, ·) ++ rest) s := by
  rw [walkPending]
  rcases visit s h with ⟨_ | _ | _, s'⟩ <;> dsimp only
  split <;> simp only [*]

def walk {σ : Type} (a : Arena) (visit : Visitor σ) (root : Handle) (s : σ) : Except TreeError Bool × σ :=
  match a.get root with
  | .error e => (.error e, s)
  | .ok _ => a.walkPending visit [(a.size + 1, root)] s

/-- The visitor that sees every node and remembers them, the latest first. -/
def recordAll : Visitor (List Handle) := fun seen h => (.descend, h :: seen)

/-- The nodes of a subtree in the order of a walk. -/
def preOrder (a : Arena) (root : Handle) : Except TreeError (List Handle) :=
  match a.walk recordAll root [] with
  | (.ok _, seen) => .ok seen.reverse
  | (.error e, _) => .error e

end Arena

end ScriptTree
