import ConstLang.Data
import ConstLang.Number.Decimal
import ConstLang.Text.Digit

/-!
Values as plain data. What plain data has no form for becomes an object whose one
key tells the kind; identities are left out.
-/

namespace ConstLang

/-- From this magnitude on an integer is given by its text. -/
def wideInteger : Nat := Nat.pow 2 53

def encodeInt (i : Int) : Data :=
  if i.natAbs < wideInteger then .int i else .single "int" (.text (Text.writeInt i))

/-- A tuple that is a field of a node is given as a list. -/
def Data.bare : Data → Data
  | .object [("tuple", d)] => d
  | d => d

/-- A node by its kind and fields. -/
def encodeFields (kind : String) (fields : List Data) : Data :=
  .single kind (.list (fields.map Data.bare))

mutual

def Value.encode : Value → Data
  | .null => .null
  | .undefined => .flag "undefined"
  | .uninitialized => .flag "uninitialized"
  | .bool b => .bool b
  | .int i => encodeInt i
  | .float d => .single "float" (.text d.text)
  | .nan _ => .single "float" (.text "nan")
  | .text s => .text s
  | .list xs => .list (encodeItems xs)
  | .tuple xs => .single "tuple" (.list (encodeItems xs))
  | .dict es => .single "dict" (.list (encodeEntries es))
  | .node n => n.encode
  | .operation op => .single "operation" (.text op.ownName)
  | .primitive _ name _ => .single "primitive" name.encode
  | .function _ params locals =>
      .single "function"
        (.object [("params", .list (encodeItems params)), ("locals", .list (encodeItems locals))])
  | .marker _ content => .single "return_value" content.encode

def encodeItems : List Value → List Data
  | [] => []
  | x :: xs => x.encode :: encodeItems xs

def encodeEntries : List (Value × Value) → List Data
  | [] => []
  | (key, x) :: es => .list [key.encode, x.encode] :: encodeEntries es

def Node.encode : Node → Data
  | .literal v => encodeFields "Literal" [v.encode]
  | .name x => encodeFields "NameRef" [.text x]
  | .declaration x v => encodeFields "ConstDecl" [x.encode, v.encode]
  | .conditional p c a => encodeFields "Conditional" [p.encode, c.encode, a.encode]
  | .function ps b => encodeFields "FunctionDef" [ps.encode, b.encode]
  | .sequence ss => encodeFields "Sequence" [ss.encode]
  | .block b => encodeFields "Block" [b.encode]
  | .returning e => encodeFields "Return" [e.encode]
  | .application f xs => encodeFields "Application" [f.encode, xs.encode]

end

/-- A slot of a frame: its name and its content. -/
def encodeSlot : Value × Option Value → Data
  | (name, none) => .list [name.encode, .flag "uninitialized"]
  | (name, some v) => .list [name.encode, .single "initialized" v.encode]

end ConstLang
