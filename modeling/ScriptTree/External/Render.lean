import ScriptTree.Analysis
import ScriptTree.Operator

/-!
# External forms by recursion

The external form of a subtree said by recursion on the tree, with the object of each variant written out around the forms
of the children.  For trees without holes it is what the export with its list of tasks finds.
-/

namespace ScriptTree

namespace Arena

/-- The identifier of a function: its name with the labels of the function, or `null`. -/
def functionId (a : Arena) (function : Node) (name : Option Handle) : Json :=
  match (name.bind fun h => (a.nodes[h.index]? : Option Node)).map Node.payload with
  | some (.name identifier) =>
    if identifier.isEmpty then
      .null
    else
      .object
        [("type", .string "Identifier"), ("name", .string identifier),
          ("change", .string function.change.change.label), ("change-noprop", .string function.change.ownChange.label)]
  | _ => .null

/-- The external form of a node around the forms of its children. -/
def nodeForm (a : Arena) (provider : AnalysisProvider) (form : Handle → Json) (h : Handle) (node : Node) : Json :=
  match node.payload with
  | .assignment o =>
    moved
      [("type", .string "AssignmentExpression"), ("operator", .ofString? o.operator.infixForm.symbol),
        ("left", child o.left), ("right", child o.right)]
  | .infixExpression o =>
    ownChange
      [("type", .string o.operator.infixForm.nodeType), ("operator", .ofString? o.operator.infixForm.symbol),
        ("left", child o.left), ("right", child o.right)]
  | .conditional test consequent alternate _ _ =>
    ownChange
      [("type", .string "ConditionalExpression"), ("test", child test), ("consequent", child consequent),
        ("alternate", child alternate)]
  | .elementGet target element _ =>
    moved
      [("type", .string "MemberExpression"), ("computed", .bool true), ("object", child target),
        ("property", child element)]
  | .function f =>
    ownChange
      ([("type", .string "FunctionDeclaration"), ("id", a.functionId node f.name), ("params", list f.params),
        ("body", child f.body), ("generator", .bool f.isGenerator), ("expression", .bool f.isExpressionClosure),
        ("async", .bool false)] ++ analysis)
  | .functionCall target arguments _ =>
    ownChange [("type", .string "CallExpression"), ("callee", child target), ("arguments", list arguments)]
  | .newExpression target arguments _ _ =>
    ownChange
      ([("type", .string "NewExpression"), ("callee", child target), ("arguments", list arguments)] ++ analysis)
  | .block statements => ownChange ([("type", .string "BlockStatement"), ("body", list statements)] ++ analysis)
  | .script statements =>
    ownChange [("type", .string "Program"), ("body", list statements), ("sourceType", .string "script")]
  | .switchStatement discriminant cases _ =>
    moved [("type", .string "SwitchStatement"), ("discriminant", child discriminant), ("cases", list cases)]
  | .switchCase expression statements =>
    moved [("type", .string "SwitchCase"), ("test", child expression), ("consequent", list statements)]
  | .returnStatement value => moved [("type", .string "ReturnStatement"), ("argument", child value)]
  | .throwStatement expression => ownChange [("type", .string "ThrowStatement"), ("argument", child expression)]
  | .yieldExpression value =>
    moved [("type", .string "YieldExpression"), ("expression", child value), ("delegate", .bool false)]
  | .whileLoop condition body _ =>
    ownChange ([("type", .string "WhileStatement"), ("test", child condition), ("body", child body)] ++ analysis)
  | .withStatement object statement _ =>
    ownChange [("type", .string "WithStatement"), ("object", child object), ("body", child statement)]
  | .variableDeclaration kind declarators _ =>
    ownChange
      ([("type", .string "VariableDeclaration"), ("declarations", list declarators), ("kind", .string kind.label)] ++
        analysis)
  | .variableInitializer target initializer =>
    ownChange [("type", .string "VariableDeclarator"), ("id", child target), ("init", child initializer)]
  | .unary operator operand _ =>
    ownChange
      [("type", .string operator.unaryForm.nodeType), ("operator", .string operator.unaryForm.symbol),
        ("argument", child operand), ("prefix", .bool operator.unaryForm.leading)]
  | .keywordLiteral .this => moved [("type", .string "ThisExpression")]
  | .keywordLiteral .debugger => moved [("type", .string "DebuggerStatement")]
  | .keywordLiteral .null => moved [("type", .string "Literal"), ("value", .null), ("raw", .string "null")]
  | .keywordLiteral .true => moved [("type", .string "Literal"), ("value", .bool true), ("raw", .string "true")]
  | .keywordLiteral .false => moved [("type", .string "Literal"), ("value", .bool false), ("raw", .string "false")]
  | .parenthesized inner => child inner
  | .empty => moved [("type", .string "EmptyStatement")]
  | .name identifier => moved [("type", .string "Identifier"), ("name", .string identifier)]
  | .numberLiteral value raw =>
    moved [("type", .string "Literal"), ("value", .ofBinary64 value), ("raw", .string raw)]
  | .stringLiteral value quote =>
    moved
      [("type", .string "Literal"), ("value", .string value),
        ("raw", .string (quote.toString ++ value ++ quote.toString))]
  | .expressionStatement expression =>
    ownChange [("type", .string "ExpressionStatement"), ("expression", child expression)]
  | .objectLiteral properties => moved [("type", .string "ObjectExpression"), ("properties", list properties)]
  | .objectProperty key value =>
    moved
      [("type", .string "Property"), ("key", child key), ("value", child value), ("kind", .string "init"),
        ("computed", .bool false), ("method", .bool false), ("shorthand", .bool false)]
where
  child (c : Option Handle) : Json := (c.map form).getD .null
  list (cs : List Handle) : Json := .array (cs.map form)
  analysis : List (String × Json) :=
    [("criteria", (provider.criteria a h).orEmptyArray), ("dependencies", (provider.dependencies a h).orEmptyArray)]
  moved (fields : List (String × Json)) : Json :=
    .object
      (fields ++
        [("change", .string node.change.change.label), ("moved", .string (if node.change.moved then "true" else "false"))])
  ownChange (fields : List (String × Json)) : Json :=
    .object
      (fields ++
        [("change", .string node.change.change.label), ("change-noprop", .string node.change.ownChange.label)])

/-- The external form of a subtree that is at most `depth` nodes high. -/
def renderWithin (a : Arena) (provider : AnalysisProvider) : Nat → Handle → Json
  | 0, _ => .null
  | depth + 1, h =>
    match a.nodes[h.index]? with
    | some node => a.nodeForm provider (a.renderWithin provider depth) h node
    | none => .null

/-- The external form of the subtree of a node. -/
def render (a : Arena) (provider : AnalysisProvider) (root : Handle) : Json := a.renderWithin provider (a.size + 1) root

end Arena

end ScriptTree
