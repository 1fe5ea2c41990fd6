import ScriptTree.Payload

/-!
# Reading and writing the children of a payload

`childSlots` lists the slots of a payload with their contents, in the order of a walk; `openSlots` hands them out for
writing, and `overwrite` writes all of them.  Everything else about children goes through these two views, so the
variants are told apart here and nowhere else.  The laws `childSlots_overwrite`, `overwrite_self` and `nodup_slots` say
that both views see the same slots, that writing back what was read changes nothing, and that no slot name occurs twice
in a payload.
-/

namespace ScriptTree

namespace Payload

/-! ### The two views -/

/-- The slots of a payload in the order of a walk. -/
def childSlots : Payload → List ChildSlot
  | assignment o | infixExpression o => [.required .left o.left, .required .right o.right]
  | conditional t c a _ _ => [.required .test t, .required .consequent c, .required .alternate a]
  | elementGet t e _ => [.required .target t, .required .element e]
  | function f =>
    [.optional .name f.name, .list .params f.params, .required .body f.body, .optional .memberExpr f.memberExpr]
  | functionCall t as _ => [.required .target t, .list .arguments as]
  | newExpression t as i _ => [.required .target t, .list .arguments as, .optional .initializer i]
  | block ss | script ss => [.list .statements ss]
  | switchStatement d cs _ => [.required .discriminant d, .list .cases cs]
  | switchCase e ss => [.optional .expression e, .list .statements ss]
  | returnStatement v => [.optional .value v]
  | throwStatement e => [.required .expression e]
  | yieldExpression v => [.optional .value v]
  | whileLoop c b _ => [.required .condition c, .required .body b]
  | withStatement o s _ => [.required .object o, .required .statement s]
  | variableDeclaration _ ds _ => [.list .declarators ds]
  | variableInitializer t i => [.required .target t, .optional .initializer i]
  | unary _ o _ => [.required .operand o]
  | parenthesized i => [.required .inner i]
  | expressionStatement e => [.required .expression e]
  | objectLiteral ps => [.list .properties ps]
  | objectProperty k v => [.required .key k, .required .value v]
  | keywordLiteral _ | empty | name _ | numberLiteral .. | stringLiteral .. => []

/-- The payload taken apart for writing, slot by slot in the order of a walk.  The variant and the attributes stay. -/
def openSlots : Payload → OpenSlots Payload
  | assignment o =>
    .required .left o.left fun left => .required .right o.right fun right => .closed (assignment { o with left, right })
  | infixExpression o =>
    .required .left o.left fun left => .required .right o.right fun right =>
      .closed (infixExpression { o with left, right })
  | conditional t c a q k =>
    .required .test t fun t => .required .consequent c fun c => .required .alternate a fun a =>
      .closed (conditional t c a q k)
  | elementGet t e b => .required .target t fun t => .required .element e fun e => .closed (elementGet t e b)
  | function f =>
    .optional .name f.name fun name => .list .params f.params fun params => .required .body f.body fun body =>
      .optional .memberExpr f.memberExpr fun memberExpr => .closed (function { f with name, params, body, memberExpr })
  | functionCall t as p => .required .target t fun t => .list .arguments as fun as => .closed (functionCall t as p)
  | newExpression t as i p =>
    .required .target t fun t => .list .arguments as fun as => .optional .initializer i fun i =>
      .closed (newExpression t as i p)
  | block ss => .list .statements ss fun ss => .closed (block ss)
  | script ss => .list .statements ss fun ss => .closed (script ss)
  | switchStatement d cs p =>
    .required .discriminant d fun d => .list .cases cs fun cs => .closed (switchStatement d cs p)
  | switchCase e ss => .optional .expression e fun e => .list .statements ss fun ss => .closed (switchCase e ss)
  | returnStatement v => .optional .value v fun v => .closed (returnStatement v)
  | throwStatement e => .required .expression e fun e => .closed (throwStatement e)
  | yieldExpression v => .optional .value v fun v => .closed (yieldExpression v)
  | whileLoop c b p => .required .condition c fun c => .required .body b fun b => .closed (whileLoop c b p)
  | withStatement o s p => .required .object o fun o => .required .statement s fun s => .closed (withStatement o s p)
  | variableDeclaration k ds s => .list .declarators ds fun ds => .closed (variableDeclaration k ds s)
  | variableInitializer t i =>
    .required .target t fun t => .optional .initializer i fun i => .closed (variableInitializer t i)
  | unary t o a => .required .operand o fun o => .closed (unary t o a)
  | parenthesized i => .required .inner i fun i => .closed (parenthesized i)
  | expressionStatement e => .required .expression e fun e => .closed (expressionStatement e)
  | objectLiteral ps => .list .properties ps fun ps => .closed (objectLiteral ps)
  | objectProperty k v => .required .key k fun k => .required .value v fun v => .closed (objectProperty k v)
  | keywordLiteral k => .closed (keywordLiteral k)
  | empty => .closed empty
  | name i => .closed (name i)
  | numberLiteral v r => .closed (numberLiteral v r)
  | stringLiteral v q => .closed (stringLiteral v q)

/-- The payload with the content of every slot replaced. -/
def overwrite (single : Slot → Option Handle → Option Handle) (list : Slot → List Handle → List Handle) (p : Payload) :
    Payload :=
  p.openSlots.fill single list

/-! ### Reading -/

/-- All children of a payload in the order of a walk. -/
def handles (p : Payload) : List Handle := p.childSlots.flatMap ChildSlot.handles

/-- All children of a payload in the order of a walk, each with its slot. -/
def placedHandles (p : Payload) : List (Slot × Handle) :=
  p.childSlots.flatMap fun c => c.handles.map fun h => (c.slot, h)

def firstHole? (p : Payload) : Option Slot := (p.childSlots.find? ChildSlot.isHole).map ChildSlot.slot

/-- The slot of a given name, of whatever shape. -/
def childSlot? (p : Payload) (slot : Slot) : Option ChildSlot := p.childSlots.find? fun c => c.slot == slot

/-- The content of a slot for a single child. -/
def single? (p : Payload) (slot : Slot) : Option (Option Handle) := (p.childSlot? slot).bind ChildSlot.single?

/-- The content of a slot for a list. -/
def list? (p : Payload) (slot : Slot) : Option (List Handle) := (p.childSlot? slot).bind ChildSlot.list?

/-- Whether a slot for a single child is a required one. -/
def isRequired? (p : Payload) (slot : Slot) : Option Bool :=
  (p.childSlot? slot).bind fun
    | .required .. => some true
    | .optional .. => some false
    | .list .. => none

/-- The first slot that holds a given child. -/
def slotOf? (p : Payload) (child : Handle) : Option Slot :=
  (p.childSlots.find? fun c => c.handles.contains child).map ChildSlot.slot

/-! ### Writing -/

/-- The payload with another content of one single slot. -/
def setSingle (p : Payload) (slot : Slot) (child : Option Handle) : Payload :=
  p.overwrite (fun s c => if s = slot then child else c) (fun _ cs => cs)

/-- The payload with another content of one list slot. -/
def setList (p : Payload) (slot : Slot) (children : List Handle) : Payload :=
  p.overwrite (fun _ c => c) (fun s cs => if s = slot then children else cs)

/-- The payload with the content of one slot of either shape set: a single slot to `child`, a list to `children`. -/
def setSlot (p : Payload) (slot : Slot) (child : Option Handle) (children : List Handle) : Payload :=
  p.overwrite (fun s c => if s = slot then child else c) (fun s cs => if s = slot then children else cs)

/-- The payload without a child in a given slot: a single slot becomes empty, a list loses the first entry that is the
child. -/
def eraseChild (p : Payload) (slot : Slot) (child : Handle) : Payload :=
  p.overwrite (fun s c => if s = slot then none else c) (fun s cs => if s = slot then cs.erase child else cs)

/-- The payload with the contents that a list of slots gives; slots that are not listed keep theirs. -/
def putSlots (p : Payload) (slots : List ChildSlot) : Payload :=
  let find (s : Slot) := slots.find? fun c => c.slot == s
  p.overwrite (fun s c => ((find s).bind ChildSlot.single?).getD c)
    (fun s cs => ((find s).bind ChildSlot.list?).getD cs)

def emptied (p : Payload) : Payload := p.overwrite (fun _ _ => none) (fun _ _ => [])

/-! ### Laws of the two views -/

theorem childSlots_overwrite (f : Slot → Option Handle → Option Handle) (g : Slot → List Handle → List Handle)
    (p : Payload) : (p.overwrite f g).childSlots = p.childSlots.map (ChildSlot.overwrite f g) := by
  cases p <;> rfl

@[simp] theorem variant_overwrite (f : Slot → Option Handle → Option Handle) (g : Slot → List Handle → List Handle)
    (p : Payload) : (p.overwrite f g).variant = p.variant := by
  cases p <;> rfl

theorem overwrite_self (p : Payload) : p.overwrite (fun _ c => c) (fun _ cs => cs) = p := by
  cases p <;> rfl

theorem overwrite_overwrite (f f' : Slot → Option Handle → Option Handle) (g g' : Slot → List Handle → List Handle)
    (p : Payload) :
    (p.overwrite f g).overwrite f' g' = p.overwrite (fun s c => f' s (f s c)) (fun s cs => g' s (g s cs)) := by
  cases p <;> rfl

@[simp] theorem emptied_overwrite (f : Slot → Option Handle → Option Handle) (g : Slot → List Handle → List Handle)
    (p : Payload) : (p.overwrite f g).emptied = p.emptied := by
  cases p <;> rfl

theorem nodup_slots (p : Payload) : (p.childSlots.map ChildSlot.slot).Nodup := by
  cases p <;> simp [childSlots, ChildSlot.slot]

end Payload

end ScriptTree
