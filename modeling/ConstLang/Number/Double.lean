/-!
Double precision numbers as data. A finite number is a sign and a whole count of
units, one unit being 2 ^ (-1074); the count is written as an exponent and a
fraction, so that every number has one form and only zero has two signs. All
arithmetic is done exactly on units and rounded once, to the nearest number with
ties to the even fraction. NaN is no number of this type: an operation without a
result has none.
-/

namespace ConstLang

/-- The number of fractions, 2 to the power 52. -/
abbrev Double.fractionCount : Nat := 4503599627370496

abbrev Double.Exponent := Fin 2047

abbrev Double.Fraction := Fin Double.fractionCount

inductive Double
  | infinity (negative : Bool)
  | finite (negative : Bool) (exponent : Double.Exponent) (fraction : Double.Fraction)
  deriving DecidableEq

namespace Double

/-- The number of units in one. -/
def scale : Nat := Nat.pow 2 1074

/-- The magnitude of a finite number in units. The smallest exponent has no leading one. -/
def units (exponent : Exponent) (fraction : Fraction) : Nat :=
  if exponent.val = 0 then fraction.val
  else (fractionCount + fraction.val) * Nat.pow 2 (exponent.val - 1)

def signed (negative : Bool) (n : Nat) : Int :=
  if negative then -(n : Int) else n

def zero (negative : Bool) : Double :=
  .finite negative ⟨0, by decide⟩ ⟨0, by decide⟩

/-- The whole number nearest to a quotient; a tie goes to the even one. -/
def nearest (num den : Nat) : Nat :=
  let q := num / den
  let r := num % den
  if 2 * r < den then q
  else if den < 2 * r then q + 1
  else q + q % 2

/-- The number of a magnitude in units that needs no rounding; beyond the finite range, infinity. -/
def ofUnits (negative : Bool) (n : Nat) : Double :=
  if h : n < fractionCount then .finite negative ⟨0, by decide⟩ ⟨n, h⟩
  else
    let k := n.log2 - 52
    if hk : k + 1 < 2047 then
      .finite negative ⟨k + 1, hk⟩ ⟨n / Nat.pow 2 k % fractionCount, Nat.mod_lt _ (by decide)⟩
    else .infinity negative

/-- The number nearest to `num / den` units. -/
def round (negative : Bool) (num den : Nat) : Double :=
  let k := (num / den).log2 - 52
  ofUnits negative (nearest num (den * Nat.pow 2 k) * Nat.pow 2 k)

def neg : Double → Double
  | .infinity s => .infinity (!s)
  | .finite s e f => .finite (!s) e f

/-- A sum of zero is negative only when both terms are. Opposite infinities have no sum. -/
def add? : Double → Double → Option Double
  | .infinity s, .infinity t => if s = t then some (.infinity s) else none
  | .infinity s, .finite _ _ _ => some (.infinity s)
  | .finite _ _ _, .infinity t => some (.infinity t)
  | .finite s e f, .finite t e' f' =>
      let n := signed s (units e f) + signed t (units e' f')
      some (if n = 0 then zero (s && t) else round (n < 0) n.natAbs 1)

def sub? (x y : Double) : Option Double := x.add? y.neg

/-- An infinity and a zero have no product. -/
def mul? : Double → Double → Option Double
  | .infinity s, .infinity t => some (.infinity (s != t))
  | .infinity s, .finite t e f | .finite t e f, .infinity s =>
      if units e f = 0 then none else some (.infinity (s != t))
  | .finite s e f, .finite t e' f' => some (round (s != t) (units e f * units e' f') scale)

/-- Two infinities have no quotient, nor have two zeros. -/
def div? : Double → Double → Option Double
  | .infinity _, .infinity _ => none
  | .infinity s, .finite t _ _ => some (.infinity (s != t))
  | .finite s _ _, .infinity t => some (zero (s != t))
  | .finite s e f, .finite t e' f' =>
      if units e' f' = 0 then
        if units e f = 0 then none else some (.infinity (s != t))
      else some (round (s != t) (units e f * scale) (units e' f'))

/-- The remainder of the truncated quotient, exact and with the sign of the dividend. An infinite
dividend or a zero divisor leaves none. -/
def rem? : Double → Double → Option Double
  | .infinity _, _ => none
  | x@(.finite _ _ _), .infinity _ => some x
  | .finite s e f, .finite _ e' f' =>
      if units e' f' = 0 then none else some (ofUnits s (units e f % units e' f'))

/-- The integer that the number equals, if there is one. -/
def toInt? : Double → Option Int
  | .finite s e f =>
      if units e f % scale = 0 then some (signed s (units e f / scale)) else none
  | .infinity _ => none

/-- The nearest number to an integer; none when it lies beyond the finite range. -/
def ofInt? (i : Int) : Option Double :=
  match round (i < 0) (i.natAbs * scale) 1 with
  | .finite s e f => some (.finite s e f)
  | .infinity _ => none

/-- The nearest number to a quotient of integers; none when it lies beyond the finite range. A zero
quotient takes the sign of the divisor. -/
def ofQuotient? (i j : Int) : Option Double :=
  match round ((i < 0) != (j < 0)) (i.natAbs * scale) j.natAbs with
  | .finite s e f => some (.finite s e f)
  | .infinity _ => none

end Double
end ConstLang
