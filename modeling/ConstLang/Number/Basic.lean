import ConstLang.Mishap
import ConstLang.Number.Double

/-!
Numbers of the language: unbounded integers, doubles, and NaN, which is what an
operation on doubles without a result gives. Two integers combine exactly;
otherwise an integer is first rounded to the nearest double, which fails beyond the
finite range. Comparison never rounds.
-/

namespace ConstLang

inductive Number
  | int (i : Int)
  | float (d : Double)
  | nan
  deriving DecidableEq

/-- A place on the number line, in units of 2 ^ (-1074). -/
inductive Place
  | bottom
  | at (units : Int)
  | top

namespace Place

def compare : Place → Place → Ordering
  | .bottom, .bottom | .top, .top => .eq
  | .bottom, _ | _, .top => .lt
  | .top, _ | _, .bottom => .gt
  | .at m, .at n => Ord.compare m n

end Place

namespace Number

/-- Every number but NaN has a place. -/
def place? : Number → Option Place
  | .int i => some (.at (i * Double.scale))
  | .float (.infinity s) => some (if s then .bottom else .top)
  | .float (.finite s e f) => some (.at (Double.signed s (Double.units e f)))
  | .nan => none

/-- The exact order of two numbers; none when one of them is NaN. -/
def compare? : Number → Number → Option Ordering
  | .int i, .int j => some (Ord.compare i j)
  | x, y =>
      match x.place?, y.place? with
      | some p, some q => some (p.compare q)
      | _, _ => none

def equal (x y : Number) : Bool := x.compare? y == some .eq

def less (x y : Number) : Bool := x.compare? y == some .lt

def isNaN : Number → Bool
  | .nan => true
  | _ => false

def isZero (x : Number) : Bool := x.equal (.int 0)

/-- The double of a number, none for NaN. An integer is rounded, and out of range beyond the finite
doubles. -/
def toDouble : Number → Except Mishap (Option Double)
  | .int i =>
      match Double.ofInt? i with
      | some d => .ok (some d)
      | none => .error .range
  | .float d => .ok (some d)
  | .nan => .ok none

def ofDouble? : Option Double → Number
  | some d => .float d
  | none => .nan

/-- An operation on the doubles of two numbers. Both are rounded before NaN is looked at. -/
def onDoubles (op : Double → Double → Option Double) (x y : Number) : Except Mishap Number := do
  let a ← x.toDouble
  let b ← y.toDouble
  return ofDouble? (a.bind fun a => b.bind (op a))

/-- Integers by `exact`, anything else on doubles. -/
def combine (exact : Int → Int → Int) (rounded : Double → Double → Option Double) :
    Number → Number → Except Mishap Number
  | .int i, .int j => .ok (.int (exact i j))
  | x, y => onDoubles rounded x y

def add : Number → Number → Except Mishap Number := combine (· + ·) Double.add?

def sub : Number → Number → Except Mishap Number := combine (· - ·) Double.sub?

def mul : Number → Number → Except Mishap Number := combine (· * ·) Double.mul?

def neg : Number → Number
  | .int i => .int (-i)
  | .float d => .float d.neg
  | .nan => .nan

/-- The quotient is a double also for two integers, where it is rounded once. -/
def div : Number → Number → Except Mishap Number
  | .int i, .int j =>
      match Double.ofQuotient? i j with
      | some d => .ok (.float d)
      | none => .error .range
  | x, y => onDoubles Double.div? x y

end Number
end ConstLang
