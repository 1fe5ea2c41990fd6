import ScriptTree.Handle

/-!
# Slots

A slot is a named place for children in a node.  It comes in three shapes: a single child that must be there, a single
child that may be missing, and a list.  While a tree is being assembled a required slot may be empty too; such a hole is
an error only when the tree is walked, cloned or exported.

A slot to be read is a `ChildSlot`; a row of slots to be written is a value of `OpenSlots`.
-/

namespace ScriptTree

inductive Slot
  | left | right | test | consequent | alternate | target | element | name | params | body | memberExpr | arguments
  | initializer | statements | discriminant | cases | value | expression | condition | object | statement
  | declarators | operand | inner | properties | key
deriving DecidableEq, Repr

namespace Slot

def all : List Slot :=
  [left, right, test, consequent, alternate, target, element, name, params, body, memberExpr, arguments, initializer,
    statements, discriminant, cases, value, expression, condition, object, statement, declarators, operand, inner,
    properties, key]

def label : Slot → String
  | left => "left"
  | right => "right"
  | test => "test"
  | consequent => "consequent"
  | alternate => "alternate"
  | target => "target"
  | element => "element"
  | name => "name"
  | params => "params"
  | body => "body"
  | memberExpr => "memberExprNode"
  | arguments => "arguments"
  | initializer => "initializer"
  | statements => "statements"
  | discriminant => "discriminant"
  | cases => "cases"
  | value => "value"
  | expression => "expression"
  | condition => "condition"
  | object => "object"
  | statement => "statement"
  | declarators => "declarators"
  | operand => "operand"
  | inner => "inner"
  | properties => "properties"
  | key => "key"

def ofLabel? (s : String) : Option Slot := all.find? fun slot => slot.label == s

end Slot

/-- One slot of a node together with what it holds. -/
inductive ChildSlot
  | required (slot : Slot) (child : Option Handle)
  | optional (slot : Slot) (child : Option Handle)
  | list (slot : Slot) (children : List Handle)
deriving DecidableEq, Repr

namespace ChildSlot

def slot : ChildSlot → Slot
  | required s _ | optional s _ | list s _ => s

def handles : ChildSlot → List Handle
  | required _ c | optional _ c => c.toList
  | list _ cs => cs

def isHole : ChildSlot → Bool
  | required _ none => true
  | _ => false

/-- The content of a slot for a single child. -/
def single? : ChildSlot → Option (Option Handle)
  | required _ c | optional _ c => some c
  | list _ _ => none

/-- The content of a slot for a list. -/
def list? : ChildSlot → Option (List Handle)
  | list _ cs => some cs
  | _ => none

/-- The slot with other contents; its name and shape stay. -/
def overwrite (single : Slot → Option Handle → Option Handle) (list : Slot → List Handle → List Handle) :
    ChildSlot → ChildSlot
  | .required s c => .required s (single s c)
  | .optional s c => .optional s (single s c)
  | .list s cs => .list s (list s cs)

@[simp] theorem slot_overwrite (f : Slot → Option Handle → Option Handle) (g : Slot → List Handle → List Handle)
    (c : ChildSlot) : (c.overwrite f g).slot = c.slot := by
  cases c <;> rfl

end ChildSlot

/-- A value whose slots are open for writing, one after the other.  A slot shows its name, its shape and what it holds,
and takes what it is to hold from now on; the value is there when the last slot has taken its content. -/
inductive OpenSlots (α : Type)
  | closed (value : α)
  | required (slot : Slot) (child : Option Handle) (put : Option Handle → OpenSlots α)
  | optional (slot : Slot) (child : Option Handle) (put : Option Handle → OpenSlots α)
  | list (slot : Slot) (children : List Handle) (put : List Handle → OpenSlots α)

namespace OpenSlots

variable {α : Type}

/-- What the slots show while every one keeps its content. -/
def slots : OpenSlots α → List ChildSlot
  | closed _ => []
  | required s c put => .required s c :: (put c).slots
  | optional s c put => .optional s c :: (put c).slots
  | list s cs put => .list s cs :: (put cs).slots

/-- Every slot takes what `single` or `list` makes of its name and its content. -/
def fill (single : Slot → Option Handle → Option Handle) (list : Slot → List Handle → List Handle) : OpenSlots α → α
  | .closed value => value
  | .required s c put | .optional s c put => (put (single s c)).fill single list
  | .list s cs put => (put (list s cs)).fill single list

end OpenSlots

end ScriptTree
