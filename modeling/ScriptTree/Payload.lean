import ScriptTree.Keyword
import ScriptTree.Number.Binary64
import ScriptTree.Slot

/-!
# Payloads

What a node holds besides its place in the tree: its variant, its children and the attributes of the variant.  Offsets
of punctuation are relative to the node, and `-1` stands for an unknown one.
-/

namespace ScriptTree

inductive Variant
  | assignment | infixExpression | conditional | elementGet | function | functionCall | newExpression | block | script
  | switchStatement | switchCase | returnStatement | throwStatement | yieldExpression | whileLoop | withStatement
  | variableDeclaration | variableInitializer | unary | keywordLiteral | parenthesized | empty | name | numberLiteral
  | stringLiteral | expressionStatement | objectLiteral | objectProperty
deriving DecidableEq, Repr

namespace Variant

def label : Variant → String
  | assignment => "Assignment"
  | infixExpression => "InfixExpression"
  | conditional => "ConditionalExpression"
  | elementGet => "ElementGet"
  | function => "FunctionNode"
  | functionCall => "FunctionCall"
  | newExpression => "NewExpression"
  | block => "Block"
  | script => "Script"
  | switchStatement => "SwitchStatement"
  | switchCase => "SwitchCase"
  | returnStatement => "ReturnStatement"
  | throwStatement => "ThrowStatement"
  | yieldExpression => "Yield"
  | whileLoop => "WhileLoop"
  | withStatement => "WithStatement"
  | variableDeclaration => "VariableDeclaration"
  | variableInitializer => "VariableInitializer"
  | unary => "UnaryExpression"
  | keywordLiteral => "KeywordLiteral"
  | parenthesized => "ParenthesizedExpression"
  | empty => "EmptyExpression"
  | name => "Name"
  | numberLiteral => "NumberLiteral"
  | stringLiteral => "StringLiteral"
  | expressionStatement => "ExpressionStatement"
  | objectLiteral => "ObjectLiteral"
  | objectProperty => "ObjectProperty"

end Variant

def unknownOffset : Int := -1

/-- The offsets of an opening and a closing bracket. -/
structure Brackets where
  opening : Int := unknownOffset
  closing : Int := unknownOffset
deriving DecidableEq, Repr

/-- The payload of infix nodes and of assignments. -/
structure Operation where
  operator : Token
  left : Option Handle := none
  right : Option Handle := none
  operatorOffset : Int := unknownOffset
deriving DecidableEq, Repr

/-- The payload of a function.  `memberExpr` is a member expression written in the place of the name, as in
`function a.b.c() ...`. -/
structure FunctionParts where
  name : Option Handle := none
  params : List Handle := []
  body : Option Handle := none
  memberExpr : Option Handle := none
  type : FunctionType := .statement
  form : FunctionForm := .function
  isGenerator : Bool := false
  isExpressionClosure : Bool := false
  parens : Brackets := {}
deriving DecidableEq, Repr

/-- The variant of a node with its children and attributes. -/
inductive Payload
  | assignment (operation : Operation)
  | infixExpression (operation : Operation)
  | conditional (test consequent alternate : Option Handle) (questionMark colon : Int)
  | elementGet (target element : Option Handle) (brackets : Brackets)
  | function (parts : FunctionParts)
  | functionCall (target : Option Handle) (arguments : List Handle) (parens : Brackets)
  /-- The initializer is the object literal behind `new e(...)`. -/
  | newExpression (target : Option Handle) (arguments : List Handle) (initializer : Option Handle) (parens : Brackets)
  | block (statements : List Handle)
  /-- The root of a file. -/
  | script (statements : List Handle)
  | switchStatement (discriminant : Option Handle) (cases : List Handle) (parens : Brackets)
  /-- Without an expression it is the default case. -/
  | switchCase (expression : Option Handle) (statements : List Handle)
  | returnStatement (value : Option Handle)
  | throwStatement (expression : Option Handle)
  | yieldExpression (value : Option Handle)
  | whileLoop (condition body : Option Handle) (parens : Brackets)
  | withStatement (object statement : Option Handle) (parens : Brackets)
  | variableDeclaration (kind : DeclarationKind) (declarators : List Handle) (isStatement : Bool)
  | variableInitializer (target initializer : Option Handle)
  | unary (operator : Token) (operand : Option Handle) (afterOperand : Bool)
  | keywordLiteral (keyword : Keyword)
  | parenthesized (inner : Option Handle)
  | empty
  | name (identifier : String)
  | numberLiteral (value : Binary64) (raw : String)
  | stringLiteral (value : String) (quote : Char)
  | expressionStatement (expression : Option Handle)
  | objectLiteral (properties : List Handle)
  | objectProperty (key value : Option Handle)
deriving DecidableEq, Repr

namespace Payload

def variant : Payload → Variant
  | assignment .. => .assignment
  | infixExpression .. => .infixExpression
  | conditional .. => .conditional
  | elementGet .. => .elementGet
  | function .. => .function
  | functionCall .. => .functionCall
  | newExpression .. => .newExpression
  | block .. => .block
  | script .. => .script
  | switchStatement .. => .switchStatement
  | switchCase .. => .switchCase
  | returnStatement .. => .returnStatement
  | throwStatement .. => .throwStatement
  | yieldExpression .. => .yieldExpression
  | whileLoop .. => .whileLoop
  | withStatement .. => .withStatement
  | variableDeclaration .. => .variableDeclaration
  | variableInitializer .. => .variableInitializer
  | unary .. => .unary
  | keywordLiteral .. => .keywordLiteral
  | parenthesized .. => .parenthesized
  | empty => .empty
  | name .. => .name
  | numberLiteral .. => .numberLiteral
  | stringLiteral .. => .stringLiteral
  | expressionStatement .. => .expressionStatement
  | objectLiteral .. => .objectLiteral
  | objectProperty .. => .objectProperty

/-- The operator of an infix, assignment or unary payload. -/
def operator? : Payload → Option Token
  | assignment o | infixExpression o => some o.operator
  | unary t _ _ => some t
  | _ => none

/-- The node stands where a statement may stand. -/
def isStatement : Payload → Bool
  | block .. | script .. | switchStatement .. | switchCase .. | returnStatement .. | throwStatement ..
  | yieldExpression .. | whileLoop .. | withStatement .. | expressionStatement .. => true
  | variableDeclaration _ _ isStatement => isStatement
  | function f => f.type == .statement
  | _ => false

/-- The operator is one that may stand in a node of this variant. -/
def hasOwnOperator : Payload → Bool
  | assignment o => o.operator.isAssignmentOperator
  | infixExpression o => o.operator.isInfixOperator
  | unary t _ _ => t.isUnaryOperator
  | _ => true

end Payload

end ScriptTree
