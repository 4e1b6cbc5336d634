import ConstLang.Number.Double

/-!
Decimal text of doubles. The text has the fewest digits that still determine the
number; among equally short ones the nearest to it is taken. Reading rounds a
decimal of any length to the nearest double.
-/

namespace ConstLang

/-- The decimal `digits * 10 ^ exponent`. -/
structure Decimal where
  digits : Nat
  exponent : Int
  deriving DecidableEq

namespace Decimal

/-- The decimal as a fraction of two whole numbers, multiplied by `factor`. -/
def ratio (d : Decimal) (factor : Nat) : Nat × Nat :=
  if 0 ≤ d.exponent then (d.digits * Nat.pow 10 d.exponent.toNat * factor, 1)
  else (d.digits * factor, Nat.pow 10 (-d.exponent).toNat)

/-- The nearest double. A decimal far outside the range of doubles is settled by its number of
digits alone. -/
def toDouble (negative : Bool) (d : Decimal) : Double :=
  let point := (Nat.repr d.digits).length + d.exponent
  if d.digits = 0 ∨ point < -400 then .zero negative
  else if 400 < point then .infinity negative
  else
    let (num, den) := d.ratio Double.scale
    Double.round negative num den

end Decimal

namespace Double

/-- The power of ten of the leading digit of a positive magnitude. -/
def leadingPower (units : Nat) : Int :=
  (Nat.repr (units * Nat.pow 10 324 / scale)).length - 325

/-- The largest decimal on the grid of `10 ^ power` that is not above the magnitude. -/
def floorOn (units : Nat) (power : Int) : Decimal :=
  let q :=
    if 0 ≤ power then units / (scale * Nat.pow 10 power.toNat)
    else units * Nat.pow 10 (-power).toNat / scale
  { digits := q, exponent := power }

/-- The next decimal on the same grid. -/
def next (d : Decimal) : Decimal := { d with digits := d.digits + 1 }

/-- The one of a decimal and the next that is nearer to the magnitude; a tie goes to the even one. -/
def nearer (units : Nat) (below : Decimal) : Decimal :=
  let (num, den) := Decimal.ratio ⟨2 * below.digits + 1, below.exponent⟩ scale
  match compare (2 * units * den) num with
  | .lt => below
  | .gt => next below
  | .eq => if below.digits % 2 = 0 then below else next below

/-- Whether a decimal is read as the given magnitude. -/
def readsBack (exponent : Exponent) (fraction : Fraction) (d : Decimal) : Bool :=
  d.toDouble false = .finite false exponent fraction

/-- A decimal of `count` digits that reads back, if one of the two neighbours does. -/
def withDigits? (exponent : Exponent) (fraction : Fraction) (count : Nat) : Option Decimal :=
  let u := units exponent fraction
  let below := floorOn u (leadingPower u + 1 - count)
  match readsBack exponent fraction below, readsBack exponent fraction (next below) with
  | true, true => some (nearer u below)
  | true, false => some below
  | false, true => some (next below)
  | false, false => none

/-- The shortest decimal that reads back. Seventeen digits always suffice; the exact expansion stands
last, so that the result reads back by construction. -/
def shortest (exponent : Exponent) (fraction : Fraction) : Decimal :=
  let u := units exponent fraction
  if u = 0 then ⟨0, 0⟩
  else
    ((List.range 17).findSome? fun n => withDigits? exponent fraction (n + 1)).getD
      ⟨u * Nat.pow 5 1074, -1074⟩

end Double

/-- Where positional writing begins and ends, by the position of the point before the first digit,
and the least number of digits of an exponent. -/
structure DecimalStyle where
  leastPoint : Int
  greatestPoint : Int
  exponentDigits : Nat

/-- Positional from 0.0001 up to sixteen whole digits, and otherwise as in 1e-05. -/
def DecimalStyle.plain : DecimalStyle := ⟨-3, 16, 2⟩

namespace Decimal

def dropFinalZeros (cs : List Char) : List Char :=
  (cs.reverse.dropWhile (· == '0')).reverse

def zeros (n : Nat) : List Char := List.replicate n '0'

/-- A signed exponent, filled with zeros to the least width. -/
def exponentText (style : DecimalStyle) (power : Int) : List Char :=
  let ds := (Nat.repr power.natAbs).toList
  (if power < 0 then '-' else '+') :: (zeros (style.exponentDigits - ds.length) ++ ds)

/-- Written without superfluous zeros, yet always with a point or an exponent. -/
def write (style : DecimalStyle) (d : Decimal) : List Char :=
  let all := (Nat.repr d.digits).toList
  let point : Int := all.length + d.exponent
  let ds := if d.digits = 0 then all else dropFinalZeros all
  if style.leastPoint ≤ point ∧ point ≤ style.greatestPoint then
    if point ≤ 0 then '0' :: '.' :: (zeros (-point).toNat ++ ds)
    else if ds.length ≤ point.toNat then ds ++ zeros (point.toNat - ds.length) ++ ['.', '0']
    else ds.take point.toNat ++ '.' :: ds.drop point.toNat
  else
    let mantissa := match ds with
      | [] => []
      | [c] => [c]
      | c :: rest => c :: '.' :: rest
    mantissa ++ 'e' :: exponentText style (point - 1)

end Decimal

namespace Double

/-- The text that determines the number. -/
def text : Double → String
  | .infinity s => if s then "-inf" else "inf"
  | .finite s e f =>
      let body := String.ofList ((shortest e f).write DecimalStyle.plain)
      if s then "-" ++ body else body

end Double
end ConstLang
