import ConstLang.Fault
import ConstLang.Value.Equality

/-!
What the operations compute. Sums join texts, lists and tuples as well as add
numbers, and products repeat them; a zero divisor gives an infinity or NaN. An
operation given operands it has no rule for, or the wrong number of them, is a
mishap. An operation may make one value with an identity, which it is given
beforehand. A repetition that would not fit into memory is refused at a size that
is assumed for it.
-/

namespace ConstLang
namespace Arithmetic

def add (id : Nat) : Value → Value → Except Mishap Value
  | .text s, .text t => .ok (.text (s ++ t))
  | .list xs, .list ys => .ok (.list (xs ++ ys))
  | .tuple xs, .tuple ys => .ok (.tuple (xs ++ ys))
  | x, y =>
      match x.number?, y.number? with
      | some a, some b => return .ofNumber id (← a.add b)
      | _, _ => .error .kind

/-- Negation of a number; a truth value is negated as an integer. -/
def negate (id : Nat) (x : Value) : Except Mishap Value :=
  match x.number? with
  | some a => .ok (.ofNumber id a.neg)
  | none => .error .kind

/-- Subtraction of two strict numbers; otherwise the second operand is left aside and the first
negated. -/
def subtract (id : Nat) (x y : Value) : Except Mishap Value :=
  match x.strictNumber?, y.strictNumber? with
  | some a, some b => return .ofNumber id (← a.sub b)
  | _, _ => negate id x

/-- The greatest count of repetitions and the greatest length of a text made by them. -/
def greatestCount : Int := 9223372036854775807

/-- A count of repetitions; none at all for a negative one. -/
def repetitions (i : Int) : Except Mishap Nat :=
  if -greatestCount - 1 ≤ i ∧ i ≤ greatestCount then .ok i.toNat else .error .range

/-- The greatest number of characters or items that can be held. The language sets no such bound, the
memory of the host does. This one is assumed in its place: so many items take half a terabyte for
their references alone, and what stays below is taken to fit. -/
def greatestSize : Nat := Nat.pow 2 36

/-- Refuses to repeat something of a length so often that the whole cannot be held. -/
def holdable (length count : Nat) : Except Mishap Unit :=
  if length * count ≤ greatestSize then .ok () else .error .size

def repeatText (s : String) (i : Int) : Except Mishap Value := do
  let n ← repetitions i
  if greatestCount.toNat < s.length * n then .error .range
  else
    holdable s.length n
    return .text (if s.isEmpty then "" else String.join (List.replicate n s))

def repeatItems (xs : List Value) (i : Int) : Except Mishap (List Value) := do
  let n ← repetitions i
  holdable xs.length n
  return if xs.isEmpty then [] else (List.replicate n xs).flatten

def multiply (id : Nat) (x y : Value) : Except Mishap Value :=
  match x.number?, y.number? with
  | some a, some b => return .ofNumber id (← a.mul b)
  | _, _ =>
      match x, y, x.integer?, y.integer? with
      | .text s, _, _, some i | _, .text s, some i, _ => repeatText s i
      | .list xs, _, _, some i | _, .list xs, some i, _ => return .list (← repeatItems xs i)
      | .tuple xs, _, _, some i | _, .tuple xs, some i, _ => return .tuple (← repeatItems xs i)
      | _, _, _, _ => .error .kind

/-- Whether a zero is negative, as only that of a double can be. -/
def negativeZero : Number → Bool
  | .float (.finite s _ _) => s
  | _ => false

/-- Division by a zero: NaN for zero and NaN, otherwise an infinity of the product of the signs. -/
def divideByZero (x : Value) (zero : Number) : Except Mishap Value :=
  match x.number? with
  | none => .error .kind
  | some a =>
      .ok (if a.isNaN || a.isZero then .nan none
        else .float (.infinity (a.less (.int 0) != negativeZero zero)))

def divide (id : Nat) (x y : Value) : Except Mishap Value :=
  match y.number? with
  | none => .error .kind
  | some b =>
      if b.isZero then divideByZero x b
      else
        match x.number? with
        | none => .error .kind
        | some a => return .ofNumber id (← a.div b)

/-- A number as the nearest double, none for NaN. -/
def toDouble (x : Value) : Except Mishap (Option Double) :=
  match x.number? with
  | none => .error .kind
  | some a => a.toDouble

/-- The remainder has the sign of the dividend. A zero divisor gives NaN, whatever the dividend. -/
def remainder (id : Nat) (x y : Value) : Except Mishap Value :=
  if y.number?.any Number.isZero then .ok (.nan none)
  else
    match x.integer?, y.integer? with
    | some i, some j => .ok (.int (i.tmod j))
    | _, _ => do
        let a ← toDouble x
        let b ← toDouble y
        match a, b with
        | some a, some b =>
            match a.rem? b with
            | some r => return .float r
            | none => .error .domain
        | _, _ => return .nan (some id)

/-- The four order relations, on numbers and on anything with a three-way order. -/
inductive Relation
  | less
  | lessEq
  | greater
  | greaterEq
  deriving DecidableEq, Repr

namespace Relation

def holds : Relation → Ordering → Bool
  | .less, o => o.isLT
  | .lessEq, o => o.isLE
  | .greater, o => o.isGT
  | .greaterEq, o => o.isGE

end Relation

mutual

/-- Numbers by value, texts by code points, lists and tuples by their first difference. -/
def order (r : Relation) : Value → Value → Except Mishap Bool
  | .text s, .text t => .ok (r.holds (compare s t))
  | .list xs, .list ys | .tuple xs, .tuple ys => orderItems r xs ys
  | x, y =>
      match x.number?, y.number? with
      | some a, some b => .ok ((a.compare? b).any r.holds)
      | _, _ => .error .kind
termination_by structural x => x

def orderItems (r : Relation) : List Value → List Value → Except Mishap Bool
  | x :: xs, y :: ys => if x.same y then orderItems r xs ys else order r x y
  | xs, ys => .ok (r.holds (compare xs.length ys.length))
termination_by structural xs => xs

end

end Arithmetic

/-- What an operation makes of its operands: a value, and for `display` a text to write. -/
structure Effect where
  value : Value
  written : Option String := none

namespace Operation

/-- The text with which a program gives up; a message that is not null stands in front. -/
def errorText (value message : Value) : Except Mishap String :=
  match message with
  | .null => value.display
  | _ => do return (← message.label) ++ " " ++ (← value.display)

/-- The value of an operation, whose identity is `id` if it is a new NaN or a new primitive. -/
def compute (id : Nat) : Operation → List Value → Except Mishap Value
  | .add, [x, y] => Arithmetic.add id x y
  | .subtract, [x] => Arithmetic.subtract id x .null
  | .subtract, [x, y] => Arithmetic.subtract id x y
  | .multiply, [x, y] => Arithmetic.multiply id x y
  | .divide, [x, y] => Arithmetic.divide id x y
  | .remainder, [x, y] => Arithmetic.remainder id x y
  | .equal, [x, y] => .ok (.bool (x.strictEqual y))
  | .unequal, [x, y] => .ok (.bool (!x.strictEqual y))
  | .less, [x, y] => return .bool (← Arithmetic.order .less x y)
  | .lessEq, [x, y] => return .bool (← Arithmetic.order .lessEq x y)
  | .greater, [x, y] => return .bool (← Arithmetic.order .greater x y)
  | .greaterEq, [x, y] => return .bool (← Arithmetic.order .greaterEq x y)
  | .not, [x] => .ok (.bool !x.truthy)
  | .render, [x] => return .text (← x.display)
  | .isNumber, [x] => .ok (.bool x.strictNumber?.isSome)
  | .bindTo, [name, x] => .ok (x.bindTo id name)
  | _, _ => .error .kind

/-- Performs an operation. Only `display` writes, and only `error` fails by intent. -/
def perform (id : Nat) : Operation → List Value → Except Fault Effect
  | .display, [x] => do return { value := x, written := some (← liftMishap x.display) }
  | .error, [x] => do .error (.program (← liftMishap (errorText x .null)))
  | .error, [x, message] => do .error (.program (← liftMishap (errorText x message)))
  | op, args => do return { value := ← liftMishap (op.compute id args) }

end Operation
end ConstLang
