import ScriptTree.Edit

/-!
# Attributes of nodes

Marks belong to every node: the change labels and the flag that fixes its extent.  Refinements belong to variants: each
applies to some payloads and is refused on the others.
-/

namespace ScriptTree

/-- A mark to be written on a node. -/
inductive Mark
  | change (label : Change)
  | ownChange (label : Change)
  | moved (value : Bool)
  | record (changes : ChangeRecord)
  | fixedPosition (value : Bool)
deriving DecidableEq, Repr

/-- The node with a mark written on it. -/
def Mark.apply : Mark → Node → Node
  | change label, node => { node with change := { node.change with change := label } }
  | ownChange label, node => { node with change := { node.change with ownChange := label } }
  | moved value, node => { node with change := { node.change with moved := value } }
  | record changes, node => { node with change := changes }
  | fixedPosition value, node => { node with fixedPosition := value }

/-- A change of the attributes of one variant. -/
inductive Refinement
  | operator (token : Token)
  | declarationKind (token : Token)
  | keyword (token : Token)
  | isStatement (value : Bool)
  | afterOperand (value : Bool)
  | functionType (type : FunctionType)
  | functionForm (form : FunctionForm)
  | isGenerator (value : Bool)
  | isExpressionClosure (value : Bool)
  | operatorOffset (offset : Int)
  | questionAndColon (questionMark colon : Int)
  | brackets (offsets : Brackets)
  | parens (offsets : Brackets)
deriving DecidableEq, Repr

namespace Payload

/-- The payload with another operator, which has to be one of its variant. -/
def withOperator (t : Token) : Payload → Except StateFault Payload
  | assignment o =>
    if t.isAssignmentOperator then .ok (assignment { o with operator := t }) else .error (.notAnOperatorHere t)
  | infixExpression o =>
    if t.isInfixOperator then .ok (infixExpression { o with operator := t }) else .error (.notAnOperatorHere t)
  | unary _ operand afterOperand =>
    if t.isUnaryOperator then .ok (unary t operand afterOperand) else .error (.notAnOperatorHere t)
  | _ => .error .noOperator

def withDeclarationKind (t : Token) : Payload → Except StateFault Payload
  | variableDeclaration _ ds s =>
    match DeclarationKind.ofToken? t with
    | some k => .ok (variableDeclaration k ds s)
    | none => .error (.notADeclarationKeyword t)
  | _ => .error .notAVariableDeclaration

def withKeyword (t : Token) : Payload → Except StateFault Payload
  | keywordLiteral _ =>
    match Keyword.ofToken? t with
    | some k => .ok (keywordLiteral k)
    | none => .error (.notAKeyword t)
  | _ => .error .notAKeywordLiteral

def withParts (f : FunctionParts → FunctionParts) : Payload → Except StateFault Payload
  | function parts => .ok (function (f parts))
  | _ => .error .notAFunction

/-- The payload with other offsets of its parentheses. -/
def withParens (offsets : Brackets) : Payload → Except StateFault Payload
  | function f => .ok (function { f with parens := offsets })
  | functionCall t as _ => .ok (functionCall t as offsets)
  | newExpression t as i _ => .ok (newExpression t as i offsets)
  | switchStatement d cs _ => .ok (switchStatement d cs offsets)
  | whileLoop c b _ => .ok (whileLoop c b offsets)
  | withStatement o s _ => .ok (withStatement o s offsets)
  | _ => .error .noParens

end Payload

/-- The refined payload, or the reason why the refinement does not apply. -/
def Refinement.apply : Refinement → Payload → Except StateFault Payload
  | operator t, p => p.withOperator t
  | declarationKind t, p => p.withDeclarationKind t
  | keyword t, p => p.withKeyword t
  | isStatement value, p =>
    match p with
    | .variableDeclaration k ds _ => .ok (.variableDeclaration k ds value)
    | _ => .error .notAVariableDeclaration
  | afterOperand value, p =>
    match p with
    | .unary t operand _ => .ok (.unary t operand value)
    | _ => .error .notAUnaryExpression
  | functionType type, p => p.withParts fun f => { f with type }
  | functionForm form, p => p.withParts fun f => { f with form }
  | isGenerator value, p => p.withParts fun f => { f with isGenerator := value }
  | isExpressionClosure value, p => p.withParts fun f => { f with isExpressionClosure := value }
  | operatorOffset offset, p =>
    match p with
    | .assignment o => .ok (.assignment { o with operatorOffset := offset })
    | .infixExpression o => .ok (.infixExpression { o with operatorOffset := offset })
    | _ => .error .noOperatorOffset
  | questionAndColon questionMark colon, p =>
    match p with
    | .conditional t c a _ _ => .ok (.conditional t c a questionMark colon)
    | _ => .error .notAConditional
  | brackets offsets, p =>
    match p with
    | .elementGet t e _ => .ok (.elementGet t e offsets)
    | _ => .error .noBrackets
  | parens offsets, p => p.withParens offsets

/-- A refinement touches neither the variant nor the children. -/
theorem Refinement.childSlots_apply {r : Refinement} {p q : Payload} (h : r.apply p = .ok q) :
    q.variant = p.variant ∧ q.childSlots = p.childSlots := by
  cases r <;> cases p <;>
    simp only [Refinement.apply, Payload.withOperator, Payload.withDeclarationKind, Payload.withKeyword,
      Payload.withParts, Payload.withParens, reduceCtorEq] at h <;>
    (try split at h) <;> simp only [Except.ok.injEq, reduceCtorEq] at h <;>
    subst h <;> exact ⟨rfl, rfl⟩

namespace Edit

def mark (h : Handle) (m : Mark) : Edit Unit := modifyNode h m.apply

/-- Gives a node an extent as it is; its position is taken as relative if the node has a parent. -/
def setSpan (h : Handle) (span : Span) : Edit Unit := modifyNode h fun node => { node with span }

/-- Changes the attributes of a node, if its variant has them. -/
def refine (h : Handle) (r : Refinement) : Edit Unit := do
  let p ← inspect (·.payload h)
  match r.apply p with
  | .ok q => modifyPayload h fun _ => q
  | .error fault => throw (.invalidState p.variant fault)

end Edit

end ScriptTree
