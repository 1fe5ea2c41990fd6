import ScriptTree.Proofs.Command.Effect
import ScriptTree.Proofs.Edit.Isolation

/-!
# Commands spare other trees

A command is given handles, and what it changes hangs in the trees of these nodes: nodes that have no link to any of them
stay as they are, whether the command succeeds or fails (`Command.spares`).
-/

namespace ScriptTree

open Arena

/-! ### The handles that a command is given -/

/-- The nodes that become children of the node to be built. -/
def Construction.handles : Construction → List Handle
  | name .. | numberLiteral .. | stringLiteral .. | keywordLiteral .. | empty _ => []
  | infixExpression _ left right _ | assignment _ left right _ => [left, right]
  | unary _ operand _ _ => [operand]
  | conditional test consequent alternate _ => [test, consequent, alternate]
  | elementGet target element _ => [target, element]
  | function identifier params body _ => identifier.toList ++ params ++ [body]
  | functionCall target arguments _ => target :: arguments
  | newExpression target arguments initializer _ => target :: arguments ++ initializer.toList
  | block statements _ | script statements _ => statements
  | switchStatement discriminant cases _ => discriminant :: cases
  | switchCase expression statements _ => expression.toList ++ statements
  | returnStatement value _ | yieldExpression value _ => value.toList
  | throwStatement expression _ | expressionStatement expression _ => [expression]
  | whileLoop condition body _ => [condition, body]
  | withStatement object statement _ => [object, statement]
  | variableDeclaration _ declarators _ => declarators
  | variableInitializer target initializer _ => target :: initializer.toList
  | parenthesized inner _ => [inner]
  | objectLiteral properties _ => properties
  | objectProperty key value _ => [key, value]

/-- All handles among the arguments of a command. -/
def Command.handles : Command → List Handle
  | alloc p _ => p.handles
  | construct c => c.handles
  | setChild o _ c => o :: c.toList
  | pushChild o _ c => [o, c]
  | setChildList o _ cs => o :: cs
  | detach h | recomputeBounds h | mark h _ | setSpan h _ | refine h _ => [h]
  | cloneSubtree n target => n :: (target.map (·.1)).toList
  | overwritePayload h p => h :: p.handles

/-- A planned operation has its two operands for children. -/
theorem Construction.handles_of_planOperation {a : Arena} {operator : Token} {left right : Handle} {position : Int}
    {o : Operation} {span : Span} (h : planOperation a operator left right position = .ok (o, span)) :
    o.left = some left ∧ o.right = some right := by
  obtain ⟨bounds, -, h⟩ := bind_eq_ok_iff.mp h
  obtain ⟨bounds', -, h⟩ := bind_eq_ok_iff.mp h
  cases h
  exact ⟨rfl, rfl⟩

/-- The planned payload has the children that the construction was given. -/
theorem Construction.handles_of_plan {c : Construction} {a : Arena} {p : Payload} {span : Span}
    (h : c.plan a = .ok (p, span)) : p.handles = c.handles := by
  cases c with
  | keywordLiteral token =>
    rw [plan] at h
    split at h <;> cases h
    rfl
  | variableDeclaration token declarators =>
    rw [plan] at h
    split at h <;> cases h
    simp [Payload.handles, Payload.childSlots, ChildSlot.handles, handles]
  | infixExpression operator left right position | assignment operator left right position =>
    rw [plan] at h
    split at h
    · cases h
    · obtain ⟨⟨o, span'⟩, ho, h⟩ := bind_eq_ok_iff.mp h
      obtain ⟨hleft, hright⟩ := handles_of_planOperation ho
      cases h
      simp [Payload.handles, Payload.childSlots, ChildSlot.handles, handles, hleft, hright]
  | unary operator operand position afterOperand =>
    rw [plan] at h
    split at h
    · cases h
    · obtain ⟨bounds, -, h⟩ := bind_eq_ok_iff.mp h
      cases h
      rfl
  | _ =>
    -- the others are planned without looking at the arena
    cases h
    simp [Payload.handles, Payload.childSlots, ChildSlot.handles, handles]

/-! ### What commands spare -/

namespace Command

variable {a b : Arena} {T : Handle → Prop} {c : Command}

theorem Effect.spares {r : Except TreeError Reply} (h : Effect a c r b) (hw : a.WellFormed) (hT : a.Separate T)
    (outside : ∀ x ∈ c.handles, ¬T x) : Spares T a b := by
  have hnew : ¬T ⟨a.size⟩ := hT.new_not_mem (Nat.lt_irrefl a.size)
  cases h with
  | refused => exact hT.spares_self
  | drawn => exact hT.of_nodes_eq rfl
  | @allocated p span check => exact hT.allocated outside span
  | @constructed k p span planned check =>
    have hp : ∀ x ∈ p.handles, ¬T x := by
      rw [Construction.handles_of_plan planned]
      exact outside
    have halloc := hT.allocated hp span
    unfold Arena.constructed
    split
    · exact halloc.trans (halloc.separate.recomputed (hw.allocated span check) hnew)
    · exact halloc
  | @emptied o s old held =>
    have ho : ¬T o := outside o List.mem_cons_self
    exact hT.severedEach fun c hc => hT.children_not_mem hw ho c (held.mem_handlesAt_of_mem hc)
  | found => exact hT.spares_self
  | @filled o c s old path held other mem ascent below =>
    have ho : ¬T o := outside o List.mem_cons_self
    have hc : ¬T c := outside c (List.mem_cons_of_mem _ List.mem_cons_self)
    exact hT.filled ho hc (fun q hq => hT.children_not_mem hw ho q (held.mem_handlesAt_of_mem hq))
      (Edit.run_setChild_some hw held other mem ascent below).1
  | @pushed o c s =>
    have hc : ¬T c := outside c (List.mem_cons_of_mem _ List.mem_cons_self)
    exact hT.moved (outside o List.mem_cons_self) hc
  | @listed o s cs xs path held ascent below =>
    have ho : ¬T o := outside o List.mem_cons_self
    have hsevered := hT.severedEach fun c hc => hT.children_not_mem hw ho c (held.mem_handlesAt hc)
    refine hsevered.trans (hsevered.separate.movedEach ho fun x hx => ?_)
    obtain ⟨c, hc, rfl⟩ := List.mem_map.mp hx
    exact outside c (List.mem_cons_of_mem _ hc)
  | @detached h mem => exact hT.severed (outside h List.mem_cons_self)
  | @recomputed h mem => exact hT.recomputed hw (outside h List.mem_cons_self)
  | cloned listed copy => exact copy.spares hT (hw.nodup_of_preOrder listed)
  | @clonedIntoList n o s order cs b node listed copy held =>
    have ho : ¬T o := outside o (List.mem_cons_of_mem _ List.mem_cons_self)
    have hcopy := copy.spares hT (hw.nodup_of_preOrder listed)
    have hmoved := hcopy.trans (hcopy.separate.moved (s := s) ho hnew)
    exact hmoved.trans (hmoved.separate.spanned hnew node.span)
  | @clonedIntoSlot n o s order old b node listed copy held wellFormed =>
    have ho : ¬T o := outside o (List.mem_cons_of_mem _ List.mem_cons_self)
    have hcopy := copy.spares hT (hw.nodup_of_preOrder listed)
    have hold : ∀ q ∈ old.toList, ¬T q := fun q hq => hT.children_not_mem hw ho q (held.mem_handlesAt_of_mem hq)
    have hfilled := hcopy.trans (hcopy.separate.filled ho hnew hold wellFormed)
    exact hfilled.trans (hfilled.separate.spanned hnew node.span)
  | @marked h m mem => exact hT.update_of_parent (outside h List.mem_cons_self) fun node => by cases m <;> rfl
  | @spanned h span mem => exact hT.spanned (outside h List.mem_cons_self) span
  | @refined h => exact hT.update_of_parent (outside h List.mem_cons_self) fun _ => rfl

/-- A command leaves the nodes alone that have no link to the nodes it is given. -/
theorem spares (hw : a.WellFormed) (hc : c.isChecked) (hT : a.Separate T) (outside : ∀ x ∈ c.handles, ¬T x) :
    Spares T a (after a c) := by
  obtain ⟨r, -, heffect⟩ := effect_leaves hw hc
  rw [after_eq_leaves]
  exact heffect.spares hw hT outside

end Command

end ScriptTree
