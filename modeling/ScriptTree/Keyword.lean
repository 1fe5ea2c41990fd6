import ScriptTree.Token

/-!
# Closed vocabularies of node attributes

Declaration keywords, keyword literals, and the two classifications of functions.  The first two are subsets of the
tokens, given as types of their own with the inclusion `token` and its partial inverse `ofToken?`.
-/

namespace ScriptTree

inductive DeclarationKind
  | varDeclaration | constDeclaration | letDeclaration
deriving DecidableEq, Repr

namespace DeclarationKind

def all : List DeclarationKind := [varDeclaration, constDeclaration, letDeclaration]

def token : DeclarationKind → Token
  | varDeclaration => .kwVar
  | constDeclaration => .kwConst
  | letDeclaration => .kwLet

/-- The kind that a token introduces, if it is a declaration keyword. -/
def ofToken? : Token → Option DeclarationKind
  | .kwVar => some varDeclaration
  | .kwConst => some constDeclaration
  | .kwLet => some letDeclaration
  | _ => none

def label : DeclarationKind → String
  | varDeclaration => "var"
  | constDeclaration => "const"
  | letDeclaration => "let"

theorem ofToken?_eq_some_iff {t : Token} {k : DeclarationKind} : ofToken? t = some k ↔ t = k.token := by
  cases k <;> cases t <;> decide

end DeclarationKind

inductive Keyword
  | this | null | true | false | debugger
deriving DecidableEq, Repr

namespace Keyword

def all : List Keyword := [this, null, true, false, debugger]

def token : Keyword → Token
  | this => .kwThis
  | null => .kwNull
  | true => .kwTrue
  | false => .kwFalse
  | debugger => .kwDebugger

/-- The literal that a token stands for, if it is a keyword literal. -/
def ofToken? : Token → Option Keyword
  | .kwThis => some this
  | .kwNull => some null
  | .kwTrue => some true
  | .kwFalse => some false
  | .kwDebugger => some debugger
  | _ => none

def label : Keyword → String
  | this => "this"
  | null => "null"
  | true => "true"
  | false => "false"
  | debugger => "debugger"

def isBoolean : Keyword → Bool
  | true | false => .true
  | _ => .false

theorem ofToken?_eq_some_iff {t : Token} {k : Keyword} : ofToken? t = some k ↔ t = k.token := by
  cases k <;> cases t <;> decide

end Keyword

inductive FunctionType
  /-- A statement of a script or of a function body. -/
  | statement
  /-- An expression. -/
  | expression
  /-- An expression that is itself the expression of a statement. -/
  | expressionStatement
deriving DecidableEq, Repr

namespace FunctionType

def all : List FunctionType := [statement, expression, expressionStatement]

def label : FunctionType → String
  | statement => "Statement"
  | expression => "Expression"
  | expressionStatement => "ExpressionStatement"

end FunctionType

inductive FunctionForm
  | function | getter | setter
deriving DecidableEq, Repr

namespace FunctionForm

def all : List FunctionForm := [function, getter, setter]

def label : FunctionForm → String
  | function => "Function"
  | getter => "Getter"
  | setter => "Setter"

end FunctionForm

end ScriptTree
