import ScriptTree.Token

/-!
# External forms of operators

How an operator token appears in the external tree: the node type it selects and the symbol it is written with.  Both
tables are total.  A token without a symbol gets a fallback: no symbol for an infix operator, the symbol `unk` for a
unary one.
-/

namespace ScriptTree

/-- External form of an infix or assignment operator.  Without a symbol the form is a fallback. -/
structure InfixForm where
  nodeType : String
  symbol : Option String
  isFallback : Bool := false
deriving DecidableEq, Repr

/-- External form of a unary operator.  `leading` is the exported flag: it is off for `++` and `--`, on whichever side
of the operand they are written. -/
structure UnaryForm where
  nodeType : String
  symbol : String
  leading : Bool
  isFallback : Bool := false
deriving DecidableEq, Repr

/-- The symbol of unary operators that have none of their own. -/
def unknownUnarySymbol : String := "unk"

namespace Token

def assignmentSymbol : Token → Option String
  | assign => some "="
  | assignAdd => some "+="
  | assignSub => some "-="
  | assignMul => some "*="
  | assignDiv => some "/="
  | assignMod => some "%="
  | assignLsh => some "<<="
  | assignRsh => some ">>="
  | assignUrsh => some ">>>="
  | assignBitAnd => some "&="
  | assignBitXor => some "^="
  | assignBitOr => some "|="
  | _ => none

/-- Symbol of a binary operator that computes a value from both operands. -/
def binarySymbol : Token → Option String
  | eq => some "=="
  | ne => some "!="
  | sheq => some "==="
  | shne => some "!=="
  | gt => some ">"
  | ge => some ">="
  | lt => some "<"
  | le => some "<="
  | isIn => some "in"
  | instanceOf => some "instanceof"
  | add => some "+"
  | sub => some "-"
  | mul => some "*"
  | div => some "/"
  | mod => some "%"
  | bitAnd => some "&"
  | bitOr => some "|"
  | bitXor => some "^"
  | lsh => some "<<"
  | rsh => some ">>"
  | ursh => some ">>>"
  | _ => none

def logicalSymbol : Token → Option String
  | logicalAnd => some "&&"
  | logicalOr => some "||"
  | _ => none

/-- The external form of a token in infix position.  The three symbol tables share no token, so their order does not
matter. -/
def infixForm (t : Token) : InfixForm :=
  match t.assignmentSymbol, t.binarySymbol, t.logicalSymbol with
  | some s, _, _ => { nodeType := "AssignmentExpression", symbol := some s }
  | none, some s, _ => { nodeType := "BinaryExpression", symbol := some s }
  | none, none, some s => { nodeType := "LogicalExpression", symbol := some s }
  | none, none, none => { nodeType := "BinaryExpression", symbol := none, isFallback := true }

/-- Symbol of an operator that computes a value from its one operand. -/
def unarySymbol : Token → Option String
  | pos => some "+"
  | neg => some "-"
  | logicalNot => some "!"
  | bitNot => some "~"
  | typeof | typeofName => some "typeof"
  | deleteProperty => some "delete"
  | void => some "void"
  | _ => none

/-- Symbol of an operator that changes its operand. -/
def updateSymbol : Token → Option String
  | inc => some "++"
  | dec => some "--"
  | _ => none

/-- The external form of a token in unary position. -/
def unaryForm (t : Token) : UnaryForm :=
  match t.updateSymbol, t.unarySymbol with
  | some s, _ => { nodeType := "UpdateExpression", symbol := s, leading := false }
  | none, some s => { nodeType := "UnaryExpression", symbol := s, leading := true }
  | none, none =>
    { nodeType := "UnaryExpression", symbol := unknownUnarySymbol, leading := true, isFallback := true }

/-! ### Basic facts -/

theorem isSome_assignmentSymbol (t : Token) : t.assignmentSymbol.isSome = t.isAssignmentOperator := by
  cases t <;> rfl

theorem symbol_infixForm_of_isAssignmentOperator {t : Token} (h : t.isAssignmentOperator = true) :
    t.infixForm.symbol = t.assignmentSymbol := by
  cases t <;> first | rfl | simp [isAssignmentOperator] at h

/-- Among the infix operators the comma alone has no symbol. -/
theorem symbol_infixForm_eq_none_iff {t : Token} (h : t.isInfixOperator = true) :
    t.infixForm.symbol = none ↔ t = comma := by
  cases t <;> first | decide | simp [isInfixOperator, isAssignmentOperator] at h

/-- Among the unary operators `defaultNamespace` alone has no symbol of its own. -/
theorem isFallback_unaryForm_iff {t : Token} (h : t.isUnaryOperator = true) :
    t.unaryForm.isFallback = true ↔ t = defaultNamespace := by
  cases t <;> first | decide | simp [isUnaryOperator] at h

/-- No operator is written with the symbol of those that have none. -/
theorem symbol_unaryForm_eq_unknown_iff (t : Token) :
    t.unaryForm.symbol = unknownUnarySymbol ↔ t.unaryForm.isFallback = true := by
  cases t <;> decide

end Token

end ScriptTree
