import ConstLang.Value.Basic

/-!
Plain data, in which answers are given. It has no identities, and any of it can be
taken up as a value again.
-/

namespace ConstLang

inductive Data
  | null
  | bool (b : Bool)
  | int (i : Int)
  | text (s : String)
  | list (items : List Data)
  | object (fields : List (String × Data))

namespace Data

/-- An object of one field. -/
def single (key : String) (d : Data) : Data := .object [(key, d)]

/-- An object that only states its key. -/
def flag (key : String) : Data := single key (.bool true)

end Data

mutual

/-- Plain data as a value; an object is a dictionary. -/
def Data.value : Data → Value
  | .null => .null
  | .bool b => .bool b
  | .int i => .int i
  | .text s => .text s
  | .list ds => .list (dataValues ds)
  | .object fs => .dict (fieldValues fs)

def dataValues : List Data → List Value
  | [] => []
  | d :: ds => d.value :: dataValues ds

def fieldValues : List (String × Data) → List (Value × Value)
  | [] => []
  | (key, d) :: fs => (.text key, d.value) :: fieldValues fs

end

end ConstLang
