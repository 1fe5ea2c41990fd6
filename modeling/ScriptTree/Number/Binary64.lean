/-!
# Binary floating-point values

A value of the 64-bit format, held as its bit pattern.  There is one NaN: every pattern that is not a number is stored
as the same one, so equality of values is equality of patterns.  A finite value is `± m · 2 ^ q` with the whole numbers
`m` and `q` read off the pattern.
-/

namespace ScriptTree

structure Binary64 where
  bits : UInt64
deriving DecidableEq, Repr

namespace Binary64

/-- The one pattern that stands for "not a number". -/
def nan : Binary64 := ⟨0x7ff8000000000000⟩

def exponentField (x : Binary64) : Nat := x.bits.toNat / Nat.pow 2 52 % Nat.pow 2 11

def fractionField (x : Binary64) : Nat := x.bits.toNat % Nat.pow 2 52

def isNegative (x : Binary64) : Bool := Nat.pow 2 63 ≤ x.bits.toNat

def isFinite (x : Binary64) : Bool := x.exponentField != 2047

def ofBits (bits : UInt64) : Binary64 :=
  let x : Binary64 := ⟨bits⟩
  if x.exponentField = 2047 ∧ x.fractionField ≠ 0 then nan else x

/-- The `m` of `± m · 2 ^ q`. -/
def significand (x : Binary64) : Nat :=
  if x.exponentField = 0 then x.fractionField else Nat.pow 2 52 + x.fractionField

/-- The `q` of `± m · 2 ^ q`. -/
def exponent (x : Binary64) : Int :=
  if x.exponentField = 0 then -1074 else (x.exponentField : Int) - 1075

/-- The whole number that a finite value is equal to, if there is one. -/
def toInt? (x : Binary64) : Option Int :=
  let signed (n : Nat) : Int := if x.isNegative then -(n : Int) else n
  if !x.isFinite then
    none
  else if 0 ≤ x.exponent then
    some (signed (x.significand * Nat.pow 2 x.exponent.toNat))
  else if x.significand % Nat.pow 2 (-x.exponent).toNat = 0 then
    some (signed (x.significand / Nat.pow 2 (-x.exponent).toNat))
  else
    none

end Binary64

end ScriptTree
