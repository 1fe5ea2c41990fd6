import ScriptTree.Number.Binary64

/-!
# JSON values

The values of the external form.  Whole numbers and floating-point numbers are told apart, and the fields of an object
keep their order.
-/

namespace ScriptTree

inductive Json
  | null
  | bool (value : Bool)
  | integer (value : Int)
  | real (value : Binary64)
  | string (value : String)
  | array (items : List Json)
  | object (fields : List (String × Json))
deriving Inhabited

namespace Json

/-- The value of the first field with a given name. -/
def field? (name : String) : Json → Option Json
  | object fields => (fields.find? fun f => f.1 == name).map (·.2)
  | _ => none

def isNull : Json → Bool
  | null => true
  | _ => false

/-- The same value, but an empty array in place of `null`. -/
def orEmptyArray : Json → Json
  | null => array []
  | v => v

/-- The value of a number of the tree: a whole number below `2 ^ 53` in magnitude is written as an integer, another
finite number as a floating-point number, and all else as `null`. -/
def ofBinary64 (x : Binary64) : Json :=
  match x.toInt? with
  | some n => if n.natAbs < Nat.pow 2 53 then integer n else real x
  | none => if x.isFinite then real x else null

def ofString? : Option String → Json
  | some s => string s
  | none => null

@[simp] theorem orEmptyArray_array (items : List Json) : (array items).orEmptyArray = array items := rfl

@[simp] theorem orEmptyArray_orEmptyArray (v : Json) : v.orEmptyArray.orEmptyArray = v.orEmptyArray := by
  cases v <;> rfl

end Json

end ScriptTree
