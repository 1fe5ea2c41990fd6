import ScriptTree.Json
import ScriptTree.Operator
import ScriptTree.Payload

/-!
# Shapes of external objects

The external form of a tree has an object for each node.  `Payload.shape` is the table of these objects: for each
variant the fields in their order, and which of the two marks stands at the end.
-/

namespace ScriptTree

/-- A field of an external object, or an action in its place. -/
inductive ExternalField
  /-- A value that the payload fixes. -/
  | constant (key : String) (value : Json)
  /-- The form of the child in a required slot. -/
  | required (key : String) (slot : Slot)
  /-- The form of the child in an optional slot, or `null`. -/
  | optional (key : String) (slot : Slot)
  /-- The forms of the children in a list. -/
  | list (key : String) (slot : Slot)
  /-- The name of a function: an identifier with the labels of the function in place of its own, or `null`. -/
  | functionName (key : String) (slot : Slot)
  /-- The form of the child in an optional slot is left out. -/
  | omitted (slot : Slot)
  /-- The two results of analyses. -/
  | analysis

/-- The mark behind the change label: whether the node was moved, or its own label. -/
inductive Trailer
  | moved
  | ownChange
deriving DecidableEq, Repr

inductive ExternalShape
  /-- The form of the child in a slot stands for the node. -/
  | transparent (slot : Slot)
  /-- An object of its own. -/
  | object (fields : List ExternalField) (trailer : Trailer)

namespace Keyword

def externalFields : Keyword → List ExternalField
  | this => [.constant "type" (.string "ThisExpression")]
  | debugger => [.constant "type" (.string "DebuggerStatement")]
  | null => literal .null "null"
  | true => literal (.bool .true) "true"
  | false => literal (.bool .false) "false"
where
  literal (value : Json) (raw : String) : List ExternalField :=
    [.constant "type" (.string "Literal"), .constant "value" value, .constant "raw" (.string raw)]

end Keyword

namespace Payload

def shape : Payload → ExternalShape
  | assignment o =>
    .object
      [type "AssignmentExpression", .constant "operator" (.ofString? o.operator.infixForm.symbol),
        .required "left" .left, .required "right" .right]
      .moved
  | infixExpression o =>
    .object
      [type o.operator.infixForm.nodeType, .constant "operator" (.ofString? o.operator.infixForm.symbol),
        .required "left" .left, .required "right" .right]
      .ownChange
  | conditional .. =>
    .object
      [type "ConditionalExpression", .required "test" .test, .required "consequent" .consequent,
        .required "alternate" .alternate]
      .ownChange
  | elementGet .. =>
    .object
      [type "MemberExpression", .constant "computed" (.bool true), .required "object" .target,
        .required "property" .element]
      .moved
  | function f =>
    .object
      [type "FunctionDeclaration", .functionName "id" .name, .list "params" .params, .required "body" .body,
        .constant "generator" (.bool f.isGenerator), .constant "expression" (.bool f.isExpressionClosure),
        .constant "async" (.bool false), .omitted .memberExpr, .analysis]
      .ownChange
  | functionCall .. =>
    .object [type "CallExpression", .required "callee" .target, .list "arguments" .arguments] .ownChange
  | newExpression .. =>
    .object [type "NewExpression", .required "callee" .target, .list "arguments" .arguments, .analysis] .ownChange
  | block .. => .object [type "BlockStatement", .list "body" .statements, .analysis] .ownChange
  | script .. =>
    .object [type "Program", .list "body" .statements, .constant "sourceType" (.string "script")] .ownChange
  | switchStatement .. =>
    .object [type "SwitchStatement", .required "discriminant" .discriminant, .list "cases" .cases] .moved
  | switchCase .. =>
    .object [type "SwitchCase", .optional "test" .expression, .list "consequent" .statements] .moved
  | returnStatement .. => .object [type "ReturnStatement", .optional "argument" .value] .moved
  | throwStatement .. => .object [type "ThrowStatement", .required "argument" .expression] .ownChange
  | yieldExpression .. =>
    .object [type "YieldExpression", .optional "expression" .value, .constant "delegate" (.bool false)] .moved
  | whileLoop .. =>
    .object [type "WhileStatement", .required "test" .condition, .required "body" .body, .analysis] .ownChange
  | withStatement .. =>
    .object [type "WithStatement", .required "object" .object, .required "body" .statement] .ownChange
  | variableDeclaration kind .. =>
    .object
      [type "VariableDeclaration", .list "declarations" .declarators, .constant "kind" (.string kind.label), .analysis]
      .ownChange
  | variableInitializer .. =>
    .object [type "VariableDeclarator", .required "id" .target, .optional "init" .initializer] .ownChange
  | unary operator .. =>
    .object
      [type operator.unaryForm.nodeType, .constant "operator" (.string operator.unaryForm.symbol),
        .required "argument" .operand, .constant "prefix" (.bool operator.unaryForm.leading)]
      .ownChange
  | keywordLiteral keyword => .object keyword.externalFields .moved
  | parenthesized .. => .transparent .inner
  | empty => .object [type "EmptyStatement"] .moved
  | name identifier => .object [type "Identifier", .constant "name" (.string identifier)] .moved
  | numberLiteral value raw =>
    .object [type "Literal", .constant "value" (.ofBinary64 value), .constant "raw" (.string raw)] .moved
  | stringLiteral value quote =>
    .object
      [type "Literal", .constant "value" (.string value),
        .constant "raw" (.string (quote.toString ++ value ++ quote.toString))]
      .moved
  | expressionStatement .. =>
    .object [type "ExpressionStatement", .required "expression" .expression] .ownChange
  | objectLiteral .. => .object [type "ObjectExpression", .list "properties" .properties] .moved
  | objectProperty .. =>
    .object
      [type "Property", .required "key" .key, .required "value" .value, .constant "kind" (.string "init"),
        .constant "computed" (.bool false), .constant "method" (.bool false), .constant "shorthand" (.bool false)]
      .moved
where
  type (name : String) : ExternalField := .constant "type" (.string name)

end Payload

end ScriptTree
