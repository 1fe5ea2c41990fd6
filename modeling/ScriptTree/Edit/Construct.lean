import ScriptTree.Edit.Bounds

/-!
# Constructing nodes

One constructor for each variant.  A tree is built from its leaves: the children of a new node exist already, and all
extents and offsets are given as places in the source.  Infix, assignment and unary nodes take their extent from their
operands, and a function reaches to the end of its body; the others are told theirs.  `Construction.plan` finds the
payload and the extent without touching the arena, so whatever it refuses leaves no trace.
-/

namespace ScriptTree

inductive Construction
  | name (identifier : String) (span : Span)
  | numberLiteral (value : Binary64) (raw : String) (span : Span)
  | stringLiteral (value : String) (quote : Char) (span : Span)
  | keywordLiteral (token : Token) (span : Span)
  | empty (span : Span)
  /-- The operator stands at `position`, which is negative if it is unknown. -/
  | infixExpression (operator : Token) (left right : Handle) (position : Int)
  | assignment (operator : Token) (left right : Handle) (position : Int)
  | unary (operator : Token) (operand : Handle) (position : Int) (afterOperand : Bool)
  | conditional (test consequent alternate : Handle) (span : Span)
  | elementGet (target element : Handle) (span : Span)
  | function (identifier : Option Handle) (params : List Handle) (body : Handle) (span : Span)
  | functionCall (target : Handle) (arguments : List Handle) (span : Span)
  | newExpression (target : Handle) (arguments : List Handle) (initializer : Option Handle) (span : Span)
  | block (statements : List Handle) (span : Span)
  | script (statements : List Handle) (span : Span)
  | switchStatement (discriminant : Handle) (cases : List Handle) (span : Span)
  | switchCase (expression : Option Handle) (statements : List Handle) (span : Span)
  | returnStatement (value : Option Handle) (span : Span)
  | throwStatement (expression : Handle) (span : Span)
  | yieldExpression (value : Option Handle) (span : Span)
  | whileLoop (condition body : Handle) (span : Span)
  | withStatement (object statement : Handle) (span : Span)
  | variableDeclaration (token : Token) (declarators : List Handle) (span : Span)
  | variableInitializer (target : Handle) (initializer : Option Handle) (span : Span)
  | parenthesized (inner : Handle) (span : Span)
  | expressionStatement (expression : Handle) (span : Span)
  | objectLiteral (properties : List Handle) (span : Span)
  | objectProperty (key value : Handle) (span : Span)
deriving DecidableEq, Repr

namespace Construction

/-- The bounds of an operand.  An unknown operand is an invalid child of the node to be built. -/
def operandBounds (a : Arena) (v : Variant) (slot : Slot) (operand : Handle) : Except TreeError (Int × Int) :=
  (a.absoluteBounds operand).mapError fun _ => .invalidChild v slot .notInArena

/-- The payload and the extent of an operator between two operands: it reaches from the start of the left one to the end
of the right one. -/
def planOperation (a : Arena) (operator : Token) (left right : Handle) (position : Int) :
    Except TreeError (Operation × Span) := do
  let (start, _) ← operandBounds a .infixExpression .left left
  let (_, stop) ← operandBounds a .infixExpression .right right
  let operatorOffset := if position < 0 then unknownOffset else position - start
  return ({ operator, left := some left, right := some right, operatorOffset }, .between start stop)

/-- The payload and the extent of the node to be built. -/
def plan (a : Arena) : Construction → Except TreeError (Payload × Span)
  | name identifier span => return (.name identifier, span)
  | numberLiteral value raw span => return (.numberLiteral value raw, span)
  | stringLiteral value quote span => return (.stringLiteral value quote, span)
  | keywordLiteral token span =>
    match Keyword.ofToken? token with
    | some k => return (.keywordLiteral k, span)
    | none => throw (.invalidState .keywordLiteral (.notAKeyword token))
  | empty span => return (.empty, span)
  | infixExpression operator left right position => do
    if !operator.isInfixOperator then
      throw (.invalidState .infixExpression (.notAnInfixOperator operator))
    let (operation, span) ← planOperation a operator left right position
    return (.infixExpression operation, span)
  | assignment operator left right position => do
    if !operator.isAssignmentOperator then
      throw (.invalidState .assignment (.notAnAssignmentOperator operator))
    let (operation, span) ← planOperation a operator left right position
    return (.assignment operation, span)
  | unary operator operand position afterOperand => do
    if !operator.isUnaryOperator then
      throw (.invalidState .unary (.notAUnaryOperator operator))
    let (start, stop) ← operandBounds a .unary .operand operand
    -- an operator behind its operand is two characters long
    let span := if afterOperand then .between start (position + 2) else .between position stop
    return (.unary operator (some operand) afterOperand, span)
  | conditional test consequent alternate span =>
    return (.conditional (some test) (some consequent) (some alternate) unknownOffset unknownOffset, span)
  | elementGet target element span => return (.elementGet (some target) (some element) {}, span)
  | function identifier params body span =>
    return (.function { name := identifier, params, body := some body }, span)
  | functionCall target arguments span => return (.functionCall (some target) arguments {}, span)
  | newExpression target arguments initializer span =>
    return (.newExpression (some target) arguments initializer {}, span)
  | block statements span => return (.block statements, span)
  | script statements span => return (.script statements, span)
  | switchStatement discriminant cases span => return (.switchStatement (some discriminant) cases {}, span)
  | switchCase expression statements span => return (.switchCase expression statements, span)
  | returnStatement value span => return (.returnStatement value, span)
  | throwStatement expression span => return (.throwStatement (some expression), span)
  | yieldExpression value span => return (.yieldExpression value, span)
  | whileLoop condition body span => return (.whileLoop (some condition) (some body) {}, span)
  | withStatement object statement span => return (.withStatement (some object) (some statement) {}, span)
  | variableDeclaration token declarators span =>
    match DeclarationKind.ofToken? token with
    | some k => return (.variableDeclaration k declarators false, span)
    | none => throw (.invalidState .variableDeclaration (.notADeclarationKeyword token))
  | variableInitializer target initializer span => return (.variableInitializer (some target) initializer, span)
  | parenthesized inner span => return (.parenthesized (some inner), span)
  | expressionStatement expression span => return (.expressionStatement (some expression), span)
  | objectLiteral properties span => return (.objectLiteral properties, span)
  | objectProperty key value span => return (.objectProperty (some key) (some value), span)

/-- The constructions whose extent is still to be brought in line with a child. -/
def isOpenEnded : Construction → Bool
  | function .. => true
  | _ => false

end Construction

namespace Edit

def construct (c : Construction) : Edit Handle := do
  let (payload, span) ← inspect c.plan
  let node ← alloc payload span
  if c.isOpenEnded then
    recomputeBounds node
  return node

end Edit

end ScriptTree
