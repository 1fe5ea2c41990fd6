import ScriptTree.Proofs.Edit.Run

/-!
# Recomputing bounds

In a well-formed arena recomputing the bounds of a node always succeeds (`run_recomputeBounds`), and it changes spans
only: the trees stay the same (`sameTrees_recomputed`).
-/

namespace ScriptTree

namespace Payload

/-- The start and the end that the children of a node from `start` to `stop` ask for, given the bounds of all nodes. -/
def asked? (p : Payload) (bounds : Handle → Int × Int) (start stop : Int) : Option (Int × Int) :=
  match p with
  | assignment o | infixExpression o =>
    match o.left, o.right with
    | some left, some right => some ((bounds left).1, (bounds right).2)
    | _, _ => none
  | unary _ (some operand) afterOperand =>
    some (if afterOperand then ((bounds operand).1, stop) else (start, (bounds operand).2))
  | function f => f.body.map fun body => (start, (bounds body).2)
  | _ => none

/-- The operation of an infix node or of an assignment. -/
def operation? : Payload → Option Operation
  | assignment o | infixExpression o => some o
  | _ => none

theorem single?_of_operation? {p : Payload} {o : Operation} (hp : p.operation? = some o) :
    p.single? .left = some o.left ∧ p.single? .right = some o.right := by
  cases p <;> cases hp <;> exact ⟨rfl, rfl⟩

/-- An operation takes its start from the left operand and its end from the right one. -/
theorem asked?_of_operation? {p : Payload} {o : Operation} (hp : p.operation? = some o) {left right : Handle}
    (hleft : o.left = some left) (hright : o.right = some right) (bounds : Handle → Int × Int) (start stop : Int) :
    p.asked? bounds start stop = some ((bounds left).1, (bounds right).2) := by
  cases p <;> cases hp <;> simp [asked?, hleft, hright]

/-- A function takes its end from its body and its start from nothing. -/
theorem asked?_of_function {p : Payload} (hp : p.variant = .function) (bounds : Handle → Int × Int) (start stop : Int) :
    p.asked? bounds start stop = (p.single? .body).join.map fun body => (start, (bounds body).2) := by
  cases p <;> first | rfl | cases hp

theorem asked?_congr {p : Payload} {bounds bounds' : Handle → Int × Int} (h : ∀ c ∈ p.handles, bounds' c = bounds c)
    (start stop : Int) : p.asked? bounds' start stop = p.asked? bounds start stop := by
  cases p with
  | assignment o | infixExpression o =>
    rcases o with ⟨t, _ | left, _ | right, offset⟩ <;>
      simp_all [asked?, handles, childSlots, ChildSlot.handles]
  | unary t operand afterOperand =>
    cases operand <;> simp_all [asked?, handles, childSlots, ChildSlot.handles]
  | function f =>
    cases hbody : f.body <;> simp_all [asked?, handles, childSlots, ChildSlot.handles]
  | _ => rfl

/-- A node that has taken on what its children ask for is asked for the same again. -/
theorem asked?_settled {p : Payload} {bounds : Handle → Int × Int} {start stop first last : Int}
    (h : p.asked? bounds start stop = some (first, last)) :
    ∃ last', p.asked? bounds first (max first last) = some (first, last') ∧ max first last' = max first last := by
  cases p with
  | assignment o | infixExpression o =>
    rcases o with ⟨t, _ | left, _ | right, offset⟩ <;> simp_all [asked?]
  | unary t operand afterOperand =>
    cases operand <;> cases afterOperand <;> simp_all [asked?]
  | function f =>
    cases hbody : f.body <;> simp_all [asked?]
  | _ => cases h

end Payload

namespace Arena

def extent (a : Arena) (h : Handle) : Int := ((a.node? h).map (·.span.length)).getD 0

def shiftedEach (a : Arena) (distance : Int) (hs : List Handle) : Arena :=
  hs.foldl (fun b h => b.update h fun node => { node with span := node.span.shift distance }) a

/-- The arena with a node at another place and its children kept at theirs. -/
def repositioned (a : Arena) (h : Handle) (start stop : Int) : Arena :=
  (a.update h fun node =>
    { node with
      span := { position := node.span.position + (start - a.place h), length := max 0 (stop - start) } }).shiftedEach
    (-(start - a.place h)) (a.handlesAt h)

/-- A node keeps its bounds whatever its children are. -/
def isFixed (a : Arena) (h : Handle) : Bool := ((a.node? h).map (·.fixedPosition)).getD false

/-- The arena with the bounds of a node recomputed. -/
def recomputed (a : Arena) (h : Handle) : Arena :=
  if a.isFixed h then a
  else
    match a.compositeBounds h with
    | .ok (some (start, stop)) => a.repositioned h start stop
    | _ => a

/-! ### The trees stay the same -/

theorem sameTrees_shiftedEach (a : Arena) (distance : Int) (hs : List Handle) :
    a.SameTrees (a.shiftedEach distance hs) := by
  induction hs generalizing a with
  | nil => exact .refl a
  | cons h hs ih =>
    refine SameTrees.trans ?_ (ih _)
    exact .update (fun _ => rfl) (fun _ _ => rfl)

theorem sameTrees_repositioned (a : Arena) (h : Handle) (start stop : Int) :
    a.SameTrees (a.repositioned h start stop) := by
  refine SameTrees.trans ?_ (sameTrees_shiftedEach _ _ _)
  exact .update (fun _ => rfl) (fun _ _ => rfl)

theorem sameTrees_recomputed (a : Arena) (h : Handle) : a.SameTrees (a.recomputed h) := by
  unfold recomputed
  split
  · exact .refl a
  · split
    · exact sameTrees_repositioned a h _ _
    · exact .refl a

@[simp] theorem ids_shiftedEach (a : Arena) (distance : Int) (hs : List Handle) :
    (a.shiftedEach distance hs).ids = a.ids := by
  induction hs generalizing a with
  | nil => rfl
  | cons h hs ih => exact ih _

@[simp] theorem ids_recomputed (a : Arena) (h : Handle) : (a.recomputed h).ids = a.ids := by
  unfold recomputed
  split
  · rfl
  · split <;> simp [repositioned]

/-! ### Bounds of nodes -/

/-- Where a node starts and ends in the source. -/
def bounds (a : Arena) (h : Handle) : Int × Int := (a.place h, a.place h + a.extent h)

theorem Rooted.absoluteBounds_eq {a : Arena} (hr : a.Rooted) {h : Handle} (hh : h ∈ a) :
    a.absoluteBounds h = .ok (a.bounds h) := by
  obtain ⟨node, hn⟩ := mem_iff_node?.mp hh
  simp [absoluteBounds, hr.absolutePosition_eq hh, get_eq hn, bounds, extent, hn, bind, Except.bind, pure, Except.pure]

/-- The children that bounds are taken from are nodes, so the bounds are found. -/
theorem WellFormed.compositeBounds_eq {a : Arena} (hw : a.WellFormed) {h : Handle} {node : Node}
    (hn : a.node? h = some node) :
    a.compositeBounds h = .ok (node.payload.asked? a.bounds (a.bounds h).1 (a.bounds h).2) := by
  have hh := mem_of_node? hn
  have hchild : ∀ c ∈ node.payload.handles, a.absoluteBounds c = .ok (a.bounds c) := by
    intro c hc
    rw [← handlesAt_eq hn] at hc
    exact hw.rooted.absoluteBounds_eq (hw.child_mem h hh c hc)
  simp only [compositeBounds, hw.rooted.absoluteBounds_eq hh, payload_eq hn, bind, Except.bind]
  generalize node.payload = p at hchild ⊢
  -- a child that is missing leaves the bounds open; one that is there is a node
  cases p with
  | assignment o | infixExpression o =>
    rcases o with ⟨t, _ | left, _ | right, offset⟩
    · rfl
    · rfl
    · rfl
    · have hl := hchild left (by simp [Payload.handles, Payload.childSlots, ChildSlot.handles])
      have hr := hchild right (by simp [Payload.handles, Payload.childSlots, ChildSlot.handles])
      simp [hl, hr, pure, Except.pure, Payload.asked?]
  | unary t operand afterOperand =>
    cases operand with
    | none => rfl
    | some c =>
      have hc := hchild c (by simp [Payload.handles, Payload.childSlots, ChildSlot.handles])
      simp [hc, pure, Except.pure, Payload.asked?]
  | function f =>
    cases hbody : f.body with
    | none => simp [hbody, pure, Except.pure, Payload.asked?]
    | some c =>
      have hc := hchild c (by simp [Payload.handles, Payload.childSlots, ChildSlot.handles, hbody])
      simp [hbody, hc, pure, Except.pure, Payload.asked?]
  | _ => rfl

end Arena

namespace Edit

open Arena

theorem run_shiftEach {a : Arena} (distance : Int) {hs : List Handle} (hmem : ∀ h ∈ hs, h ∈ a) :
    shiftEach distance hs a = .ok () (a.shiftedEach distance hs) := by
  induction hs generalizing a with
  | nil => rfl
  | cons h hs ih =>
    rw [shiftEach, run_bind_of_ok (run_modifyNode (hmem h List.mem_cons_self) _)]
    exact ih fun x hx => mem_update.mpr (hmem x (List.mem_cons_of_mem _ hx))

theorem run_reposition {a : Arena} (hw : a.WellFormed) {h : Handle} (hh : h ∈ a) (start stop : Int) :
    reposition h start stop a = .ok () (a.repositioned h start stop) := by
  obtain ⟨node, hn⟩ := mem_iff_node?.mp hh
  rw [reposition, run_inspect_bind (hw.rooted.absolutePosition_eq hh), run_inspect_bind (payload_eq hn),
    ← handlesAt_eq hn, run_bind_of_ok (run_modifyNode hh _)]
  exact run_shiftEach _ fun c hc => mem_update.mpr (hw.child_mem h hh c hc)

theorem run_recomputeBounds {a : Arena} (hw : a.WellFormed) {h : Handle} (hh : h ∈ a) :
    recomputeBounds h a = .ok () (a.recomputed h) := by
  obtain ⟨node, hn⟩ := mem_iff_node?.mp hh
  obtain ⟨bounds, hb⟩ : ∃ bounds, a.compositeBounds h = .ok bounds := ⟨_, hw.compositeBounds_eq hn⟩
  rw [recomputeBounds, run_inspect_bind (get_eq hn)]
  have hfixed : a.isFixed h = node.fixedPosition := by simp [isFixed, hn]
  by_cases hf : node.fixedPosition = true
  · simp only [recomputed, hfixed, hf, ↓reduceIte]
    rfl
  · simp only [recomputed, hfixed, hf, hb]
    show (inspect (·.compositeBounds h) >>= _) a = _
    rw [run_inspect_bind hb]
    cases bounds with
    | none => rfl
    | some bounds => exact run_reposition hw hh _ _

end Edit

end ScriptTree
