import ScriptTree.Number.Binary64

/-!
# Reading decimals

A decimal text is read in two steps: its digits, as a 64-bit whole number, become the nearest binary value, and that
value is scaled by one power of ten.  For texts of up to fifteen digits and small exponents this is the binary value
nearest to the decimal.
-/

namespace ScriptTree

namespace Binary64

/-- The power of ten with a given exponent from 0 to 308. -/
private def tenTo (n : Nat) : Float := Float.ofScientific 1 false n

/-- The value of `± digits · 10 ^ exponent`, or `none` when it is too large.  Below `10 ^ -308` the scaling takes two
steps, since the power itself would be too large. -/
def ofDecimal? (isNegative : Bool) (digits : UInt64) (exponent : Int) : Option Binary64 :=
  let whole := digits.toFloat
  let magnitude : Float :=
    if digits = 0 ∨ exponent < -616 then 0
    else if exponent < -308 then whole / tenTo 308 / tenTo (-exponent - 308).toNat
    else if exponent < 0 then whole / tenTo (-exponent).toNat
    else if exponent ≤ 308 then whole * tenTo exponent.toNat
    else 1 / 0
  if magnitude.isInf then none
  else some (ofBits (if isNegative then -magnitude else magnitude).toBits)

end Binary64

end ScriptTree
