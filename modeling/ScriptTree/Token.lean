/-!
# Grammar tokens

The vocabulary that a script tree needs from its grammar: operators, keyword literals and declaration keywords.  A
token has two spellings: `name` is the upper-case one used in messages, `tag` the one used in interchange.  The three
predicates say in which kind of node a token may stand as the operator.
-/

namespace ScriptTree

/-- A grammar token.  `deleteProperty` is the operator `delete`, `typeofName` is `typeof` applied to a bare name, and
`defaultNamespace` is the operator of `default xml namespace = e`. -/
inductive Token
  | assign | assignAdd | assignSub | assignMul | assignDiv | assignMod
  | assignLsh | assignRsh | assignUrsh | assignBitAnd | assignBitXor | assignBitOr
  | eq | ne | sheq | shne | gt | ge | lt | le | isIn | instanceOf
  | add | sub | mul | div | mod
  | bitAnd | bitOr | bitXor | lsh | rsh | ursh
  | logicalAnd | logicalOr | comma
  | pos | neg | logicalNot | bitNot | typeof | typeofName | deleteProperty | void | inc | dec
  | defaultNamespace
  | kwThis | kwNull | kwTrue | kwFalse | kwDebugger
  | kwVar | kwConst | kwLet
deriving DecidableEq, Repr

namespace Token

/-- Every token, in the order of the vocabulary. -/
def all : List Token :=
  [assign, assignAdd, assignSub, assignMul, assignDiv, assignMod, assignLsh, assignRsh, assignUrsh, assignBitAnd,
    assignBitXor, assignBitOr, eq, ne, sheq, shne, gt, ge, lt, le, isIn, instanceOf, add, sub, mul, div, mod, bitAnd,
    bitOr, bitXor, lsh, rsh, ursh, logicalAnd, logicalOr, comma, pos, neg, logicalNot, bitNot, typeof, typeofName,
    deleteProperty, void, inc, dec, defaultNamespace, kwThis, kwNull, kwTrue, kwFalse, kwDebugger, kwVar, kwConst,
    kwLet]

/-- The two spellings of a token: its name and its tag. -/
def spellings : Token → String × String
  | assign => ("ASSIGN", "Assign")
  | assignAdd => ("ASSIGN_ADD", "AssignAdd")
  | assignSub => ("ASSIGN_SUB", "AssignSub")
  | assignMul => ("ASSIGN_MUL", "AssignMul")
  | assignDiv => ("ASSIGN_DIV", "AssignDiv")
  | assignMod => ("ASSIGN_MOD", "AssignMod")
  | assignLsh => ("ASSIGN_LSH", "AssignLsh")
  | assignRsh => ("ASSIGN_RSH", "AssignRsh")
  | assignUrsh => ("ASSIGN_URSH", "AssignUrsh")
  | assignBitAnd => ("ASSIGN_BITAND", "AssignBitAnd")
  | assignBitXor => ("ASSIGN_BITXOR", "AssignBitXor")
  | assignBitOr => ("ASSIGN_BITOR", "AssignBitOr")
  | eq => ("EQ", "Eq")
  | ne => ("NE", "Ne")
  | sheq => ("SHEQ", "Sheq")
  | shne => ("SHNE", "Shne")
  | gt => ("GT", "Gt")
  | ge => ("GE", "Ge")
  | lt => ("LT", "Lt")
  | le => ("LE", "Le")
  | isIn => ("IN", "In")
  | instanceOf => ("INSTANCEOF", "InstanceOf")
  | add => ("ADD", "Add")
  | sub => ("SUB", "Sub")
  | mul => ("MUL", "Mul")
  | div => ("DIV", "Div")
  | mod => ("MOD", "Mod")
  | bitAnd => ("BITAND", "BitAnd")
  | bitOr => ("BITOR", "BitOr")
  | bitXor => ("BITXOR", "BitXor")
  | lsh => ("LSH", "Lsh")
  | rsh => ("RSH", "Rsh")
  | ursh => ("URSH", "Ursh")
  | logicalAnd => ("AND", "And")
  | logicalOr => ("OR", "Or")
  | comma => ("COMMA", "Comma")
  | pos => ("POS", "Pos")
  | neg => ("NEG", "Neg")
  | logicalNot => ("NOT", "Not")
  | bitNot => ("BITNOT", "BitNot")
  | typeof => ("TYPEOF", "Typeof")
  | typeofName => ("TYPEOFNAME", "TypeofName")
  | deleteProperty => ("DELPROP", "DelProp")
  | void => ("VOID", "Void")
  | inc => ("INC", "Inc")
  | dec => ("DEC", "Dec")
  | defaultNamespace => ("DEFAULTNAMESPACE", "DefaultNamespace")
  | kwThis => ("THIS", "This")
  | kwNull => ("NULL", "Null")
  | kwTrue => ("TRUE", "True")
  | kwFalse => ("FALSE", "False")
  | kwDebugger => ("DEBUGGER", "Debugger")
  | kwVar => ("VAR", "Var")
  | kwConst => ("CONST", "Const")
  | kwLet => ("LET", "Let")

def name (t : Token) : String := t.spellings.1

def tag (t : Token) : String := t.spellings.2

def ofTag? (s : String) : Option Token := all.find? fun t => t.tag == s

/-! ### The three operator vocabularies -/

def isAssignmentOperator : Token → Bool
  | assign | assignAdd | assignSub | assignMul | assignDiv | assignMod | assignLsh | assignRsh | assignUrsh
  | assignBitAnd | assignBitXor | assignBitOr => true
  | _ => false

/-- Operators of an infix node.  The assignment operators are among them, since a grammar may deliver an assignment as
an infix node. -/
def isInfixOperator (t : Token) : Bool :=
  t.isAssignmentOperator ||
    match t with
    | eq | ne | sheq | shne | gt | ge | lt | le | isIn | instanceOf | add | sub | mul | div | mod | bitAnd | bitOr
    | bitXor | lsh | rsh | ursh | logicalAnd | logicalOr | comma => true
    | _ => false

def isUnaryOperator : Token → Bool
  | pos | neg | logicalNot | bitNot | typeof | typeofName | deleteProperty | void | inc | dec | defaultNamespace => true
  | _ => false

/-! ### Basic facts -/

theorem mem_all (t : Token) : t ∈ all := by
  cases t <;> decide

theorem ofTag?_tag (t : Token) : ofTag? t.tag = some t := by
  cases t <;> rfl

theorem ofTag?_eq_some_iff {s : String} {t : Token} : ofTag? s = some t ↔ t.tag = s := by
  constructor
  · intro h
    have := List.find?_some h
    simpa using this
  · rintro rfl
    exact ofTag?_tag t

theorem isInfixOperator_of_isAssignmentOperator {t : Token} (h : t.isAssignmentOperator = true) :
    t.isInfixOperator = true := by
  simp [isInfixOperator, h]

end Token

end ScriptTree
