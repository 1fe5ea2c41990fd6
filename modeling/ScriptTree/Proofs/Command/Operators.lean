import ScriptTree.Proofs.Command.Effect
import ScriptTree.Proofs.Edit.Readings

/-!
# Operators under commands

Nodes with operators have those of their own variant (`OwnOperators`), as long as no payload with an operator comes from
outside (`Command.isTyped`).  Operators are checked in two places: where a node is planned
(`Construction.hasOwnOperator_of_plan`), and where its operator is exchanged (`Refinement.hasOwnOperator_of_apply`).  No
other command writes one.
-/

namespace ScriptTree

/-- The command brings no operator with it that it does not check: it neither allocates a payload with an operator nor
writes a payload as it is. -/
def Command.isTyped : Command → Bool
  | alloc p _ => p.operator?.isNone
  | overwritePayload .. => false
  | _ => true

theorem Command.isChecked_of_isTyped {c : Command} (h : c.isTyped) : c.isChecked := by
  cases c <;> first | rfl | cases h

/-! ### Where operators are checked -/

namespace Payload

@[simp] theorem hasOwnOperator_overwrite (f : Slot → Option Handle → Option Handle) (g : Slot → List Handle → List Handle)
    (p : Payload) : (p.overwrite f g).hasOwnOperator = p.hasOwnOperator := by
  cases p <;> rfl

@[simp] theorem hasOwnOperator_emptied (p : Payload) : p.emptied.hasOwnOperator = p.hasOwnOperator :=
  hasOwnOperator_overwrite _ _ p

theorem hasOwnOperator_of_operator? {p : Payload} (h : p.operator? = none) : p.hasOwnOperator := by
  cases p <;> first | rfl | cases h

/-- An operator is exchanged for one of the same variant. -/
theorem hasOwnOperator_of_withOperator {t : Token} {p q : Payload} (h : p.withOperator t = .ok q) : q.hasOwnOperator := by
  cases p with
  | assignment o | infixExpression o | unary u operand afterOperand =>
    rw [withOperator] at h
    split at h
    · cases h
      assumption
    · cases h
  | _ => cases h

end Payload

namespace Construction

variable {a : Arena}

theorem operator_of_planOperation {operator : Token} {left right : Handle} {position : Int} {o : Operation} {span : Span}
    (h : planOperation a operator left right position = .ok (o, span)) : o.operator = operator := by
  obtain ⟨bounds, -, h⟩ := bind_eq_ok_iff.mp h
  obtain ⟨bounds', -, h⟩ := bind_eq_ok_iff.mp h
  cases h
  rfl

/-- A node is planned with an operator of its variant, or it is not planned. -/
theorem hasOwnOperator_of_plan {c : Construction} {p : Payload} {span : Span} (h : c.plan a = .ok (p, span)) :
    p.hasOwnOperator := by
  cases c with
  | infixExpression operator left right position | assignment operator left right position =>
    rw [plan] at h
    split at h
    · cases h
    · rename_i hoperator
      obtain ⟨⟨o, span'⟩, ho, h⟩ := bind_eq_ok_iff.mp h
      cases h
      rw [Payload.hasOwnOperator, operator_of_planOperation ho]
      simpa using hoperator
  | unary operator operand position afterOperand =>
    rw [plan] at h
    split at h
    · cases h
    · rename_i hoperator
      obtain ⟨bounds, -, h⟩ := bind_eq_ok_iff.mp h
      cases h
      simpa [Payload.hasOwnOperator] using hoperator
  | keywordLiteral token span' | variableDeclaration token declarators span' =>
    rw [plan] at h
    split at h <;> cases h
    rfl
  | _ =>
    -- the others have no operator
    cases h
    rfl

end Construction

theorem Refinement.hasOwnOperator_of_apply {r : Refinement} {p q : Payload} (h : r.apply p = .ok q)
    (hp : p.hasOwnOperator) : q.hasOwnOperator := by
  cases r with
  | operator t => exact Payload.hasOwnOperator_of_withOperator h
  | declarationKind t =>
    cases p with
    | variableDeclaration k ds isStatement =>
      rw [apply, Payload.withDeclarationKind] at h
      split at h <;> cases h
      rfl
    | _ => cases h
  | keyword t =>
    cases p with
    | keywordLiteral k =>
      rw [apply, Payload.withKeyword] at h
      split at h <;> cases h
      rfl
    | _ => cases h
  | _ =>
    -- the others leave the operator as it is
    cases p <;> cases h <;> exact hp

/-! ### What commands do to operators -/

namespace Arena

/-- Every node with an operator has one of its variant. -/
def OwnOperators (a : Arena) : Prop := ∀ (h : Handle) (node : Node), a.node? h = some node → node.payload.hasOwnOperator

namespace OwnOperators

variable {a b : Arena} (ha : a.OwnOperators)

include ha

/-- Moving nodes about does not change their operators. -/
theorem of_unplaced? (h : ∀ x, b.unplaced? x = a.unplaced? x) : b.OwnOperators := by
  intro x node hn
  have hread := h x
  rw [unplaced?, hn, Option.map_some, unplaced?, eq_comm, Option.map_eq_some_iff] at hread
  obtain ⟨node', hn', hunplaced⟩ := hread
  have hpayload : node'.payload.emptied = node.payload.emptied := congrArg Node.payload hunplaced
  rw [← Payload.hasOwnOperator_emptied, ← hpayload, Payload.hasOwnOperator_emptied]
  exact ha x node' hn'

theorem update {h : Handle} {f : Node → Node}
    (hf : ∀ node, a.node? h = some node → node.payload.hasOwnOperator → (f node).payload.hasOwnOperator) :
    (a.update h f).OwnOperators := by
  intro x node hn
  rw [node?_update] at hn
  split at hn
  · rename_i hx
    subst hx
    obtain ⟨node', hn', rfl⟩ := Option.map_eq_some_iff.mp hn
    exact hf node' hn' (ha x node' hn')
  · exact ha x node hn

theorem spanned (h : Handle) (span : Span) : (a.spanned h span).OwnOperators := ha.update fun _ _ hnode => hnode

theorem allocated {p : Payload} (hp : p.hasOwnOperator) (span : Span) : (a.allocated p span).OwnOperators := by
  have hseeded : (a.seeded p span).OwnOperators := by
    intro x node hn
    rw [seeded, node?_push] at hn
    split at hn
    · cases hn
      rwa [Payload.hasOwnOperator_emptied]
    · exact ha x node hn
  exact hseeded.of_unplaced? fun x => unplaced?_movedEach _

/-- A copy has the operator of its source. -/
theorem copyOf {source : Arena} {root : Handle} {order : List Handle} (hsource : source.OwnOperators)
    (h : source.CopyOf a root order b) (hnd : order.Nodup) : b.OwnOperators := by
  intro x node hn
  rcases h.old_or_copy (mem_of_node? hn) hnd with hx | ⟨y, hy, rfl⟩
  · exact ha x node ((h.node?_old x hx).symm.trans hn)
  · rw [h.node?_copy y hy] at hn
    obtain ⟨node', hn', rfl⟩ := Option.map_eq_some_iff.mp hn
    have hcopy : (node'.payload.renamed (imageOf a.size order)).hasOwnOperator = node'.payload.hasOwnOperator :=
      Payload.hasOwnOperator_overwrite _ _ _
    exact hcopy.trans (hsource y node' hn')

end OwnOperators

end Arena

namespace Command

open Arena

variable {a b : Arena} {c : Command} {r : Except TreeError Reply}

/-- A command of an editor that checks its operators leaves operators where they belong, whether it succeeds or not. -/
theorem Effect.ownOperators (h : Effect a c r b) (hw : a.WellFormed) (hc : c.isTyped) (ha : a.OwnOperators) :
    b.OwnOperators := by
  cases h with
  | refused | drawn | found => exact ha
  | allocated check => exact ha.allocated (Payload.hasOwnOperator_of_operator? (Option.isNone_iff_eq_none.mp hc)) _
  | @constructed k p span planned check =>
    have hallocated := ha.allocated (Construction.hasOwnOperator_of_plan planned) span
    unfold Arena.constructed
    split
    · exact hallocated.of_unplaced? fun x => unplaced?_recomputed
    · exact hallocated
  | emptied | filled | pushed | listed | detached | recomputed => exact ha.of_unplaced? (by simp)
  | cloned listed copy => exact ha.copyOf ha copy (hw.nodup_of_preOrder listed)
  | clonedIntoList listed copy =>
    have hcopied := ha.copyOf ha copy (hw.nodup_of_preOrder listed)
    exact (hcopied.of_unplaced? fun x => unplaced?_moved).spanned _ _
  | clonedIntoSlot listed copy =>
    have hcopied := ha.copyOf ha copy (hw.nodup_of_preOrder listed)
    exact (hcopied.of_unplaced? fun x => unplaced?_filled _).spanned _ _
  | @marked h m =>
    refine ha.update fun node _ hnode => ?_
    cases m <;> exact hnode
  | spanned => exact ha.spanned _ _
  | refined get apply =>
    refine ha.update fun node hn hnode => ?_
    obtain rfl := Option.some.inj (hn.symm.trans get)
    exact Refinement.hasOwnOperator_of_apply apply hnode

end Command

end ScriptTree
