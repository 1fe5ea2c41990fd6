import ScriptTree.Payload

/-!
# Errors

Everything that can be wrong with an operation on a tree, as causes.  `TreeError.message` gives the text of each.
-/

namespace ScriptTree

/-- Why a node cannot be a child of a slot. -/
inductive ChildFault
  /-- The handle addresses no node of the arena. -/
  | notInArena
  /-- The node is listed twice. -/
  | repeated
  /-- A required slot would be emptied. -/
  | absent
  /-- The node is the owner or lies above it. -/
  | cycle
deriving DecidableEq, Repr

/-- Why an operation does not apply to a node of a variant. -/
inductive StateFault
  | noSuchSlot (slot : Slot)
  | notAnAssignmentOperator (token : Token)
  | notAnInfixOperator (token : Token)
  | notAUnaryOperator (token : Token)
  /-- The token is an operator, but not of this variant. -/
  | notAnOperatorHere (token : Token)
  | notADeclarationKeyword (token : Token)
  | notAKeyword (token : Token)
  | noOperator
  | noOperatorOffset
  | noBrackets
  | noParens
  | notAVariableDeclaration
  | notAKeywordLiteral
  | notAUnaryExpression
  | notAFunction
  | notAConditional
deriving DecidableEq, Repr

inductive TreeError
  /-- A node cannot stand in a slot of a variant. -/
  | invalidChild (variant : Variant) (slot : Slot) (fault : ChildFault)
  /-- An operation does not apply to a variant. -/
  | invalidState (variant : Variant) (fault : StateFault)
  /-- A required slot of a node is empty where the whole subtree is needed. -/
  | malformed (variant : Variant) (node : Handle) (slot : Slot)
  /-- A handle addresses no node of the arena. -/
  | unknownNode (node : Handle)
  /-- Links lead round in a circle; this takes payloads that were overwritten without checks. -/
  | cyclic (node : Handle)
deriving DecidableEq, Repr

/-! ### Texts -/

private def quoted (s : String) : String := "`" ++ s ++ "`"

def ChildFault.message : ChildFault → String
  | notInArena => "child is not a node of this arena"
  | repeated => "the same node appears twice among the children"
  | absent => "required child is absent"
  | cycle => "attaching the node would create a cycle"

def StateFault.message : StateFault → String
  | noSuchSlot slot => "no " ++ quoted slot.label ++ " slot of that shape"
  | notAnAssignmentOperator t => quoted t.name ++ " is not an assignment operator"
  | notAnInfixOperator t => quoted t.name ++ " is not an infix operator"
  | notAUnaryOperator t => quoted t.name ++ " is not a unary operator"
  | notAnOperatorHere t => quoted t.name ++ " is not a valid operator here"
  | notADeclarationKeyword t => quoted t.name ++ " is not a declaration keyword"
  | notAKeyword t => quoted t.name ++ " is not a keyword literal"
  | noOperator => "node has no operator"
  | noOperatorOffset => "node has no operator position"
  | noBrackets => "node has no brackets"
  | noParens => "node has no parentheses"
  | notAVariableDeclaration => "not a variable declaration"
  | notAKeywordLiteral => "not a keyword literal"
  | notAUnaryExpression => "not a unary expression"
  | notAFunction => "not a function"
  | notAConditional => "not a conditional expression"

def TreeError.message : TreeError → String
  | invalidChild v slot fault =>
    "invalid child for " ++ quoted v.label ++ " slot " ++ quoted slot.label ++ ": " ++ fault.message
  | invalidState v fault => "invalid operation on " ++ quoted v.label ++ ": " ++ fault.message
  | malformed v node slot =>
    "malformed tree: " ++ quoted v.label ++ " node " ++ node.text ++ " has no " ++ quoted slot.label
  | unknownNode node => "unknown node " ++ node.text
  | cyclic node => "cyclic links at node " ++ node.text

end ScriptTree
