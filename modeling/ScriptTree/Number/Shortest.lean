import ScriptTree.Number.Binary64

/-!
# Shortest decimal digits

Every binary value is the nearest one to a whole interval of numbers.  Its shortest decimal is the one with the fewest
digits inside that interval and, of those, the one nearest to the value; an exact tie goes to the even last digit.  All
comparisons are between whole numbers, so nothing is rounded on the way.
-/

namespace ScriptTree

structure Decimal where
  digits : Nat
  exponent : Int
deriving DecidableEq, Repr

namespace Decimal

/-- The same number without zeros at the end of its digits; at most `fuel` zeros are taken off. -/
def stripZeros : Nat → Decimal → Decimal
  | 0, d => d
  | fuel + 1, d =>
    if d.digits ≠ 0 ∧ d.digits % 10 = 0 then
      stripZeros fuel { digits := d.digits / 10, exponent := d.exponent + 1 }
    else
      d

end Decimal

namespace Binary64

/-- The numbers that read back as the value `± m · 2 ^ q` lie between `lower · 2 ^ (q - 2)` and `upper · 2 ^ (q - 2)`;
the value itself is `middle · 2 ^ (q - 2)`.  The ends belong to the interval when `closed` is set. -/
structure Interval where
  lower : Nat
  middle : Nat
  upper : Nat
  closed : Bool

/-- The interval of a finite value.  Below a power of two the neighbour is only half as far away as above it; the ends
are rounded to the value when its significand is even. -/
def interval (x : Binary64) : Interval :=
  let m := x.significand
  let atPower := x.fractionField = 0 ∧ 1 < x.exponentField
  { lower := if atPower then 4 * m - 1 else 4 * m - 2
    middle := 4 * m
    upper := 4 * m + 2
    closed := m % 2 = 0 }

/-- The better one of the two multiples of `10 ^ k` next to the value, if one of them reads back as it. -/
def onGrid? (x : Binary64) (k : Int) : Option Decimal :=
  let i := x.interval
  let p := x.exponent - 2
  -- a multiple `c · 10 ^ k` and an end `e · 2 ^ p` compare as `c * ten` and `e * two`
  let ten := Nat.pow 10 k.toNat * Nat.pow 2 (-p).toNat
  let two := Nat.pow 2 p.toNat * Nat.pow 10 (-k).toNat
  let value := i.middle * two
  let inside (c : Nat) : Bool :=
    c != 0 &&
      (if i.closed then
        decide (i.lower * two ≤ c * ten) && decide (c * ten ≤ i.upper * two)
      else
        decide (i.lower * two < c * ten) && decide (c * ten < i.upper * two))
  let below := value / ten
  let above := below + 1
  let belowIsNearer : Bool :=
    let d₁ := value - below * ten
    let d₂ := above * ten - value
    decide (d₁ < d₂) || (d₁ == d₂ && below % 2 == 0)
  match inside below, inside above with
  | true, true => some ⟨if belowIsNearer then below else above, k⟩
  | true, false => some ⟨below, k⟩
  | false, true => some ⟨above, k⟩
  | false, false => none

/-- The shortest decimal of the magnitude of a finite value other than zero.  The first grid tried is at least as
coarse as the leading digit; seventeen digits always suffice, and they are among the grids tried. -/
def shortest (x : Binary64) : Decimal :=
  let bitLength : Int := x.significand.log2 + x.exponent + 1
  let top : Int := bitLength * 30103 / 100000 + 1
  let found := (List.range 24).findSome? fun (n : Nat) => x.onGrid? (top - n)
  (found.getD ⟨0, 0⟩).stripZeros 24

end Binary64

end ScriptTree
