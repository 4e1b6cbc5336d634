import ConstLang.Mishap
import ConstLang.Number.Basic
import ConstLang.Operation

/-!
Values and trees of the language. Trees are values too, and the children of a
node may be any value: whether they are nodes is found out by analysis.

Functions, primitives and markers carry an identity, and so does every NaN, since
none of them equals another by value. What a function does when called is kept in
memory under its identity.
-/

namespace ConstLang

mutual

inductive Value
  | null
  | undefined
  /-- Stands for the missing value of a name whose declaration has not run. -/
  | uninitialized
  | bool (b : Bool)
  | int (i : Int)
  | float (d : Double)
  /-- Division by zero always gives the one NaN without an identity. -/
  | nan (id : Option Nat)
  | text (s : String)
  | list (items : List Value)
  | tuple (items : List Value)
  /-- The keys may be any values, also trees and what spells trees; whether a host would take them for
  keys is left open. -/
  | dict (entries : List (Value × Value))
  | node (n : Node)
  | operation (op : Operation)
  | primitive (id : Nat) (name : Value) (op : Operation)
  | function (id : Nat) (params locals : List Value)
  | marker (id : Nat) (content : Value)

/-- The statement and operand lists are tuples unless a tree was put together by hand; the declared
names and parameters are texts unless it was. -/
inductive Node
  | literal (value : Value)
  | name (x : String)
  | declaration (name value : Value)
  | conditional (predicate consequent alternative : Value)
  | function (params body : Value)
  | sequence (statements : Value)
  | block (body : Value)
  | returning (expr : Value)
  | application (operator operands : Value)

end

instance : Inhabited Value := ⟨.undefined⟩

namespace Value

/-- The number that a value stands for in arithmetic; truth values count as one and zero. -/
def number? : Value → Option Number
  | .bool b => some (.int (if b then 1 else 0))
  | .int i => some (.int i)
  | .float d => some (.float d)
  | .nan _ => some .nan
  | _ => none

/-- A number in the strict sense, which truth values are not. -/
def strictNumber? : Value → Option Number
  | .int i => some (.int i)
  | .float d => some (.float d)
  | .nan _ => some .nan
  | _ => none

/-- An integer or a truth value taken as one. -/
def integer? : Value → Option Int
  | .bool b => some (if b then 1 else 0)
  | .int i => some i
  | _ => none

/-- A number as a value; a NaN gets the given identity. -/
def ofNumber (id : Nat) : Number → Value
  | .int i => .int i
  | .float d => .float d
  | .nan => .nan (some id)

def isNode : Value → Bool
  | .node _ => true
  | _ => false

def isMarker : Value → Bool
  | .marker _ _ => true
  | _ => false

/-- Zero, the empty text or collection, null, undefined and false are not truthy. -/
def truthy : Value → Bool
  | .null | .undefined => false
  | .text s => s != ""
  | .list xs | .tuple xs => !xs.isEmpty
  | .dict es => !es.isEmpty
  | .bool b => b
  | .int i => i != 0
  | .float d => !(Number.float d).isZero
  | _ => true

/-- What iteration over a value yields: the items of a collection, the characters of a text, the keys
of a dictionary. Other values cannot be iterated. -/
def iterate : Value → Except Mishap (List Value)
  | .list xs | .tuple xs => .ok xs
  | .text s => .ok (s.toList.map fun c => .text (String.singleton c))
  | .dict es => .ok (es.map (·.1))
  | _ => .error .kind

/-- The primitive of an operation; a name that is empty or missing falls back on the operation's own. -/
def bindOperation (id : Nat) (name : Value) (op : Operation) : Value :=
  .primitive id (if name.truthy then name else .text op.ownName) op

/-- The value bound to a name: an operation as a primitive, any other value as it is. -/
def bindTo (v : Value) (id : Nat) (name : Value) : Value :=
  match v with
  | .operation op => bindOperation id name op
  | _ => v

/-- What a value puts into the slot of a name. -/
def slot : Value → Option Value
  | .uninitialized => none
  | v => some v

end Value
end ConstLang
