import ScriptTree.Arena

/-!
# Pending visits

A traversal keeps the nodes it has still to visit in a list and replaces a visited node by its children.  Every pending
node comes with a bound on how much deeper the traversal may go from there: a path that is longer than the number of
nodes passes some node twice.  The weight of the pending nodes falls with each step, whatever the links are like.
-/

namespace ScriptTree

namespace Arena

/-- The largest number of children of a node. -/
def arity (a : Arena) : Nat := a.nodes.foldl (fun n node => max n node.payload.handles.length) 0

private theorem le_foldl_arity (nodes : List Node) (n : Nat) :
    n ≤ nodes.foldl (fun n node => max n node.payload.handles.length) n ∧
      ∀ node ∈ nodes,
        node.payload.handles.length ≤ nodes.foldl (fun n node => max n node.payload.handles.length) n := by
  induction nodes generalizing n with
  | nil => simp
  | cons node nodes ih =>
    obtain ⟨h₁, h₂⟩ := ih (max n node.payload.handles.length)
    rw [List.foldl_cons]
    refine ⟨by omega, ?_⟩
    intro m hm
    rcases List.mem_cons.mp hm with rfl | hm
    · omega
    · exact h₂ m hm

theorem length_handles_le {a : Arena} {h : Handle} {node : Node} (hn : a.get h = .ok node) :
    node.payload.handles.length ≤ a.arity := by
  have hm : node ∈ a.nodes.toList := by
    rw [get_eq_ok_iff] at hn
    obtain ⟨hlt, rfl⟩ := Array.getElem?_eq_some_iff.mp hn
    exact Array.mem_toList_iff.mpr (Array.getElem_mem hlt)
  unfold arity
  rw [← Array.foldl_toList]
  exact (le_foldl_arity a.nodes.toList 0).2 node hm

theorem children_eq_ok_iff {a : Arena} {h : Handle} {cs : List Handle} :
    a.children h = .ok cs ↔
      ∃ node, a.get h = .ok node ∧ node.payload.firstHole? = none ∧ cs = node.payload.handles := by
  unfold children payload
  cases hg : a.get h with
  | error e => simp [bind, Except.bind]
  | ok node =>
    cases hh : node.payload.firstHole? with
    | none => simp [bind, Except.bind, pure, Except.pure, hh, eq_comm]
    | some slot => simp [bind, Except.bind, pure, Except.pure, hh, throw, throwThe, MonadExceptOf.throw]

theorem length_children_le {a : Arena} {h : Handle} {cs : List Handle} (hc : a.children h = .ok cs) :
    cs.length ≤ a.arity := by
  obtain ⟨node, hn, -, rfl⟩ := children_eq_ok_iff.mp hc
  exact length_handles_le hn

/-- The weight of a node that may be followed to the given depth. -/
def depthWeight (a : Arena) : Nat → Nat
  | 0 => 1
  | depth + 1 => (a.arity + 2) * a.depthWeight depth

/-- The weight of nodes that may be followed to the given depths. -/
def weight (a : Arena) : List Nat → Nat
  | [] => 0
  | d :: ds => a.depthWeight d + a.weight ds

@[simp] theorem depthWeight_zero (a : Arena) : a.depthWeight 0 = 1 := rfl

theorem depthWeight_pos (a : Arena) (d : Nat) : 0 < a.depthWeight d := by
  induction d with
  | zero => exact Nat.one_pos
  | succ d ih => exact Nat.mul_pos (Nat.succ_pos _) ih

theorem weight_append (a : Arena) (ds es : List Nat) : a.weight (ds ++ es) = a.weight ds + a.weight es := by
  induction ds with
  | nil => simp [weight]
  | cons d ds ih => rw [List.cons_append, weight, weight, ih, Nat.add_assoc]

theorem weight_replicate (a : Arena) (n d : Nat) : a.weight (List.replicate n d) = n * a.depthWeight d := by
  induction n with
  | zero => simp [weight]
  | succ n ih => rw [List.replicate_succ, weight, ih, Nat.succ_mul, Nat.add_comm]

/-- A node that may be followed one step deeper outweighs its children together with one more item. -/
theorem weight_children_lt {a : Arena} {h : Handle} {cs : List Handle} (hc : a.children h = .ok cs) (d : Nat) :
    a.weight (cs.map fun _ => d) + 1 < a.depthWeight (d + 1) := by
  have hpos := a.depthWeight_pos d
  have hle : cs.length * a.depthWeight d ≤ a.arity * a.depthWeight d :=
    Nat.mul_le_mul_right _ (length_children_le hc)
  have hmap : (cs.map fun _ => d) = List.replicate cs.length d := List.map_const'
  rw [hmap, weight_replicate, depthWeight, Nat.add_mul]
  omega

end Arena

end ScriptTree
