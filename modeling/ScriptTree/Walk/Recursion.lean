import ScriptTree.Walk

/-!
# Walks by recursion

The walk said a second time, by recursion on the tree: a node, then the subtrees of its children from left to right,
then its siblings.  The main statement is that both ways agree on every arena and for every visitor: the same nodes in
the same order, the same states, the same result (`walk_eq_visit`).
-/

namespace ScriptTree

namespace Arena

/-- Visits the subtrees of some siblings from left to right, each to the given depth. -/
def visitSiblings {σ : Type} (a : Arena) (visit : Visitor σ) :
    Nat → List Handle → σ → Except TreeError Bool × σ
  | _, [], s => (.ok true, s)
  | 0, h :: _, s => (.error (.cyclic h), s)
  | depth + 1, h :: rest, s =>
    match visit s h with
    | (.halt, s) => (.ok false, s)
    | (.skip, s) => a.visitSiblings visit (depth + 1) rest s
    | (.descend, s) =>
      match a.children h with
      | .error e => (.error e, s)
      | .ok cs =>
        match a.visitSiblings visit depth cs s with
        | (.ok true, s) => a.visitSiblings visit (depth + 1) rest s
        | r => r
termination_by depth hs => (depth, hs.length)

def visit {σ : Type} (a : Arena) (visit : Visitor σ) (root : Handle) (s : σ) : Except TreeError Bool × σ :=
  match a.get root with
  | .error e => (.error e, s)
  | .ok _ => a.visitSiblings visit (a.size + 1) [root] s

/-- Walking one pending list and then another is walking both in a row, unless the first walk stops. -/
theorem walkPending_append {σ : Type} (a : Arena) (f : Visitor σ) (p q : List (Nat × Handle)) (s : σ) :
    a.walkPending f (p ++ q) s =
      match a.walkPending f p s with
      | (.ok true, s) => a.walkPending f q s
      | r => r := by
  fun_induction walkPending a f p s with
  | case1 s => rfl
  | case2 s h rest => simp [walkPending]
  | case3 depth h rest s s' hv => rw [List.cons_append, walkPending_cons, hv]
  | case4 depth h rest s s' hv ih => rw [List.cons_append, walkPending_cons, hv]; exact ih
  | case5 depth h rest s s' hv e hc => rw [List.cons_append, walkPending_cons, hv, hc]
  | case6 depth h rest s s' hv cs hc ih =>
    rw [List.cons_append, walkPending_cons, hv, hc]
    rw [List.append_assoc] at ih
    exact ih

/-- Pending siblings of one depth are visited as the recursion visits them. -/
theorem walkPending_map {σ : Type} (a : Arena) (f : Visitor σ) (depth : Nat) (hs : List Handle) (s : σ) :
    a.walkPending f (hs.map (depth, ·)) s = a.visitSiblings f depth hs s := by
  fun_induction visitSiblings a f depth hs s with
  | case1 => simp [walkPending]
  | case2 => simp [walkPending]
  | case3 depth h rest s s' hv => rw [List.map_cons, walkPending_cons, hv]
  | case4 depth h rest s s' hv ih => rw [List.map_cons, walkPending_cons, hv]; exact ih
  | case5 depth h rest s s' hv e hc => rw [List.map_cons, walkPending_cons, hv, hc]
  | case6 depth h rest s s' hv cs hc s'' hr ih₁ ih₂ =>
    rw [List.map_cons, walkPending_cons, hv, hc]
    dsimp only
    rw [walkPending_append, ih₁, hr]
    exact ih₂
  | case7 depth h rest s s' hv cs hc hr ih =>
    rw [List.map_cons, walkPending_cons, hv, hc]
    dsimp only
    rw [walkPending_append, ih]
    split
    · rename_i s'' hs
      exact absurd hs (hr s'')
    · rfl

/-- The walk with a list of pending nodes and the walk by recursion are the same. -/
theorem walk_eq_visit {σ : Type} (a : Arena) (f : Visitor σ) (root : Handle) (s : σ) :
    a.walk f root s = a.visit f root s := by
  unfold walk visit
  rw [← walkPending_map]
  rfl

end Arena

end ScriptTree
