import ScriptTree.Proofs.Command.Operators
import ScriptTree.Proofs.Traversal.Holes
import ScriptTree.Proofs.Workspace.Step

/-!
# Operators in exported documents

Operators are kept apart by three tests on tokens, one for each variant that has an operator, and written by tables that
have symbols for most tokens and a fallback for the others.  In a run that brings in no operator unchecked, every operator
stays with its variant (`OwnOperators`); and for those operators the tables need no fallback but for the comma and for
`default xml namespace` (`operators_of_typed_run`).
-/

namespace ScriptTree

/-- The object shows the operator of the payload.  An assignment is an assignment and has its symbol; among the others,
the comma alone has no symbol, and `default xml namespace` alone has the unknown one. -/
def Payload.ShowsOperator (p : Payload) (object : Json) : Prop :=
  match p with
  | assignment o => object.field? "type" = some (.string "AssignmentExpression") ∧
      ∃ s, o.operator.assignmentSymbol = some s ∧ object.field? "operator" = some (.string s)
  | infixExpression o => ∃ v, object.field? "operator" = some v ∧ (v = .null ↔ o.operator = .comma)
  | unary t _ _ => ∃ s, object.field? "operator" = some (.string s) ∧ (s = "unk" ↔ t = .defaultNamespace)
  | _ => True

theorem Token.symbol_unaryForm_eq_unk_iff {t : Token} (h : t.isUnaryOperator = true) :
    t.unaryForm.symbol = "unk" ↔ t = defaultNamespace :=
  t.symbol_unaryForm_eq_unknown_iff.trans (isFallback_unaryForm_iff h)

/-- Where the operator is one of the variant, the object of the node shows it. -/
theorem Arena.showsOperator_nodeForm (a : Arena) (provider : AnalysisProvider) (form : Handle → Json) (h : Handle)
    {node : Node} (hoperator : node.payload.hasOwnOperator) :
    node.payload.ShowsOperator (a.nodeForm provider form h node) := by
  obtain ⟨id, span, parent, payload, change, fixedPosition⟩ := node
  cases payload with
  | assignment o =>
    obtain ⟨s, hs⟩ := Option.isSome_iff_exists.mp (o.operator.isSome_assignmentSymbol.trans hoperator)
    refine ⟨rfl, s, hs, ?_⟩
    show some (Json.ofString? o.operator.infixForm.symbol) = _
    rw [Token.symbol_infixForm_of_isAssignmentOperator hoperator, hs]
    rfl
  | infixExpression o =>
    refine ⟨_, rfl, ?_⟩
    rw [← Token.symbol_infixForm_eq_none_iff hoperator]
    cases o.operator.infixForm.symbol <;> simp [Json.ofString?]
  | unary t operand afterOperand => exact ⟨_, rfl, Token.symbol_unaryForm_eq_unk_iff hoperator⟩
  | _ => exact trivial

namespace Workspace

/-! ### Runs -/

/-- The action brings no operator with it that it does not check. -/
def Action.isTyped : Action → Bool
  | command _ c => c.isTyped
  | _ => true

theorem Action.isChecked_of_isTyped {x : Action} (h : x.isTyped) : x.isChecked := by
  cases x with
  | command i c => exact Command.isChecked_of_isTyped h
  | _ => rfl

/-- The operators of all arenas are where they belong. -/
def OwnOperators (w : Workspace) : Prop := w.AllNodes fun nodes => ∀ ids, ({ nodes, ids } : Arena).OwnOperators

theorem OwnOperators.arena {w : Workspace} (h : w.OwnOperators) {i : Nat} {a : Arena} (hi : w.arena? i = some a) :
    a.OwnOperators := by
  obtain ⟨shelf, hs, hnodes, -⟩ := arena?_eq_some_iff.mp hi
  have hown := h i shelf hs a.ids
  rwa [hnodes] at hown

theorem OwnOperators.put {w : Workspace} (h : w.OwnOperators) {a : Arena} (ha : a.OwnOperators) (i : Nat) :
    (w.put i a).OwnOperators :=
  AllNodes.put (P := fun nodes => ∀ ids, ({ nodes, ids } : Arena).OwnOperators) h (fun _ => ha) i

theorem OwnOperators.addShelf {w : Workspace} (h : w.OwnOperators) {nodes : Array Node}
    (hn : ∀ ids, ({ nodes, ids } : Arena).OwnOperators) (g : Nat) : (w.addShelf nodes g).OwnOperators :=
  AllNodes.addShelf (P := fun nodes => ∀ ids, ({ nodes, ids } : Arena).OwnOperators) h hn g

theorem ownOperators_empty (ids : IdGenerator) : ({ nodes := #[], ids } : Arena).OwnOperators := by
  intro h node hn
  simp [Arena.node?] at hn

theorem Step.ownOperators {w w' : Workspace} {x : Action} (step : w.Step x w') (hw : w.WellFormed) (hx : x.isTyped)
    (h : w.OwnOperators) : w'.OwnOperators := by
  cases step with
  | idle => exact h
  | command arena effect => exact h.put (effect.ownOperators (hw.arena arena) hx (h.arena arena)) _
  | @drawn i a arena =>
    -- a draw changes the generator of the arena only
    have hown := h.arena arena
    have hdrawn : a.drawn.OwnOperators := hown
    exact h.put hdrawn i
  | added => exact OwnOperators.addShelf (fun i shelf hs => h i shelf hs) ownOperators_empty _
  | shared => exact h.addShelf ownOperators_empty _
  | duplicated shelf_eq => exact h.addShelf (h _ _ shelf_eq) _
  | copied from_eq into_eq listed copy =>
    have hnodup := (hw.arena from_eq).nodup_of_preOrder listed
    exact h.put ((h.arena into_eq).copyOf (h.arena from_eq) copy hnodup) _
  | cloned from_eq _ listed copy =>
    have hnodup := (hw.arena from_eq).nodup_of_preOrder listed
    have hcopied := Arena.OwnOperators.copyOf (ownOperators_empty _) (h.arena from_eq) copy hnodup
    exact (h.addShelf ownOperators_empty _).put hcopied _

theorem OwnOperators.performAll {w : Workspace} (hw : w.WellFormed) (h : w.OwnOperators) {actions : List Action}
    (typed : ∀ x ∈ actions, x.isTyped) : (w.performAll actions).OwnOperators :=
  hw.keeps_performAll (fun x hx => Action.isChecked_of_isTyped (typed x hx))
    (fun _ x _ hx hw step h => step.ownOperators hw (typed x hx) h) h

/-- Whatever is done with checked operators to empty arenas, with whatever outcomes, every node with an operator has one
of its variant.  Hence every export that succeeds is the recursive form of the subtree, and shows the operators of all its
nodes. -/
theorem operators_of_typed_run (actions : List Action) (typed : ∀ x ∈ actions, x.isTyped) {i : Nat} {a : Arena}
    (hi : (({} : Workspace).performAll actions).arena? i = some a) :
    (∀ x node, a.get x = .ok node → node.payload.hasOwnOperator) ∧
    ∀ provider n form, a.toExternal provider n = .ok form → ∃ order, a.preOrder n = .ok order ∧
      form = a.render provider n ∧ ∀ x ∈ order, ∃ node, a.get x = .ok node ∧
        a.render provider x = a.nodeForm provider (a.render provider) x node ∧
          node.payload.ShowsOperator (a.render provider x) := by
  have hchecked : ∀ x ∈ actions, x.isChecked := fun x hx => Action.isChecked_of_isTyped (typed x hx)
  have hw := (wellFormed_empty.performAll hchecked).arena hi
  have hempty : ({} : Workspace).OwnOperators := fun i shelf hs => by simp at hs
  have hown := (hempty.performAll wellFormed_empty typed).arena hi
  refine ⟨fun x node hget => hown x node (Arena.get_eq_ok_iff.mp hget), fun provider n form hform => ?_⟩
  cases horder : a.preOrder n with
  | error e =>
    rw [hw.toExternal_eq_error horder] at hform
    cases hform
  | ok order =>
    have hl := Arena.listing_of_preOrder horder
    rw [hw.toExternal_eq hl] at hform
    refine ⟨order, rfl, (Except.ok.inj hform).symm, fun x hx => ?_⟩
    obtain ⟨node, hn⟩ := Arena.mem_iff_node?.mp (hl.mem hx)
    obtain ⟨zs, hz⟩ := hl.exists_listing hx
    have hrender : a.render provider x = a.nodeForm provider (a.render provider) x node := hw.render_eq hz hn
    exact ⟨node, Arena.get_eq hn, hrender, hrender ▸ a.showsOperator_nodeForm provider _ x (hown x node hn)⟩

/-- `x += typeof y` is built, the operator of the assignment is not exchanged for a comma, and then it is for `-=`. -/
def exchangedOperatorRun : List Action :=
  [.addArena {}, .command 0 (.construct (.name "x" { position := 0, length := 1 })),
    .command 0 (.construct (.name "y" { position := 12, length := 1 })),
    .command 0 (.construct (.unary .typeof ⟨1⟩ 5 false)),
    .command 0 (.construct (.assignment .assignAdd ⟨0⟩ ⟨2⟩ 2)), .command 0 (.refine ⟨3⟩ (.operator .comma)),
    .command 0 (.refine ⟨3⟩ (.operator .assignSub))]

theorem operators_of_typed_exchangedOperatorRun :
    (∀ x ∈ exchangedOperatorRun, x.isTyped) ∧
      ∃ a node form, (({} : Workspace).performAll exchangedOperatorRun).arena? 0 = some a ∧ a.get ⟨3⟩ = .ok node ∧
        node.payload.operator? = some .assignSub ∧ node.payload.hasOwnOperator ∧
          a.toExternal .none ⟨3⟩ = .ok form ∧ form.field? "operator" = some (.string "-=") := by
  have typed : ∀ x ∈ exchangedOperatorRun, x.isTyped := by decide
  obtain ⟨a, node, o, ha, hlisting, hget, hpayload, ho⟩ :
      ∃ a node o, (({} : Workspace).performAll exchangedOperatorRun).arena? 0 = some a ∧
        a.Listing [⟨3⟩] [⟨3⟩, ⟨0⟩, ⟨2⟩, ⟨1⟩] ∧ a.get ⟨3⟩ = .ok node ∧ node.payload = .assignment o ∧
          o.operator = .assignSub :=
    ⟨_, _, _, rfl, .cons rfl (.cons rfl .nil (.cons rfl (.cons rfl .nil .nil) .nil)) .nil, rfl, rfl, rfl⟩
  obtain ⟨hown, hexport⟩ := operators_of_typed_run exchangedOperatorRun typed ha
  have hw := (wellFormed_empty.performAll fun x hx => Action.isChecked_of_isTyped (typed x hx)).arena ha
  have hform : a.toExternal .none ⟨3⟩ = .ok (a.render .none ⟨3⟩) := hw.toExternal_eq hlisting
  obtain ⟨order, horder, -, hshown⟩ := hexport .none ⟨3⟩ _ hform
  obtain rfl := Except.ok.inj (horder.symm.trans (hw.preOrder_eq_ok_iff.mpr hlisting))
  obtain ⟨node', hget', -, hshows⟩ := hshown ⟨3⟩ List.mem_cons_self
  obtain rfl : node = node' := Except.ok.inj (hget.symm.trans hget')
  rw [hpayload] at hshows
  obtain ⟨-, s, hs, hoperator⟩ := hshows
  rw [ho] at hs
  cases hs
  exact ⟨typed, a, node, _, ha, hget, by rw [hpayload, ← ho]; rfl, hown ⟨3⟩ node hget, hform, hoperator⟩

end Workspace

end ScriptTree
