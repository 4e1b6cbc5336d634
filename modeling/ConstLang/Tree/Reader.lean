import ConstLang.Fault

/-!
Reading trees from tagged lists. A scalar reads as a literal, and a list or tuple
whose head is a tag reads as the node of that tag. The first part that reads as
nothing, in source order, is reported. Trees are read however deep they nest: that
a host may run out of stack on a very deep one is left out here.
-/

namespace ConstLang

inductive Tag
  | name
  | declaration
  | conditional
  | function
  | sequence
  | block
  | returning
  | application
  deriving DecidableEq, Repr

namespace Tag

def text : Tag → String
  | .name => "name"
  | .declaration => "constant_declaration"
  | .conditional => "conditional_expression"
  | .function => "function_definition"
  | .sequence => "sequence"
  | .block => "block"
  | .returning => "return_statement"
  | .application => "application"

def all : List Tag :=
  [.name, .declaration, .conditional, .function, .sequence, .block, .returning, .application]

def ofText? (s : String) : Option Tag := all.find? (·.text == s)

end Tag

/-- A declared name or parameter: a text, or a tagged name. -/
def Value.readName : Value → Except Fault String
  | .text x => .ok x
  | v@(.list [.text t, .text x]) | v@(.tuple [.text t, .text x]) =>
      if t = Tag.name.text then .ok x else .error (.unknownNode v)
  | v => .error (.unknownNode v)

/-- The parameters of a function. -/
def Value.readNames (v : Value) : Except Fault (List String) := do
  (← liftMishap v.iterate).mapM Value.readName

mutual

def Value.read : Value → Except Fault Node
  | .null => .ok (.literal .null)
  | .bool b => .ok (.literal (.bool b))
  | .int i => .ok (.literal (.int i))
  | .float d => .ok (.literal (.float d))
  | .nan id => .ok (.literal (.nan id))
  | .text s => .ok (.literal (.text s))
  | .list xs => readParts (.list xs) xs
  | .tuple xs => readParts (.tuple xs) xs
  | v => .error (.unknownNode v)

/-- The node of a tagged list, which is reported as a whole if its tag or number of fields is wrong. -/
def readParts (whole : Value) : List Value → Except Fault Node
  | .text t :: fields => readFields whole (Tag.ofText? t) fields
  | _ => .error (.unknownNode whole)

def readFields (whole : Value) : Option Tag → List Value → Except Fault Node
  | some .name, [.text x] => .ok (.name x)
  | some .declaration, [x, v] => do
      let x ← x.readName
      return .declaration (.text x) (.node (← v.read))
  | some .conditional, [p, c, a] => do
      let p ← p.read
      let c ← c.read
      return .conditional (.node p) (.node c) (.node (← a.read))
  | some .function, [ps, b] => do
      let ps ← ps.readNames
      return .function (.tuple (ps.map .text)) (.node (← b.read))
  | some .sequence, [ss] => do return .sequence (.tuple (← ss.readItems))
  | some .block, [b] => do return .block (.node (← b.read))
  | some .returning, [e] => do return .returning (.node (← e.read))
  | some .application, [f, xs] => do
      let f ← f.read
      return .application (.node f) (.tuple (← xs.readItems))
  | _, _ => .error (.unknownNode whole)

/-- The statements of a sequence or the operands of an application. -/
def Value.readItems : Value → Except Fault (List Value)
  | .list xs | .tuple xs => readAll xs
  | .text s => .ok (s.toList.map fun c => .node (.literal (.text (String.singleton c))))
  | .dict es => readKeys es
  | _ => .error (.mishap .kind)

def readAll : List Value → Except Fault (List Value)
  | [] => .ok []
  | x :: xs => do
      let n ← x.read
      return .node n :: (← readAll xs)

def readKeys : List (Value × Value) → Except Fault (List Value)
  | [] => .ok []
  | (key, _) :: es => do
      let n ← key.read
      return .node n :: (← readKeys es)

end

theorem readKeys_eq (es : List (Value × Value)) : readKeys es = readAll (es.map (·.1)) := by
  induction es with
  | nil => rfl
  | cons e es ih => simp only [readKeys, readAll, List.map_cons, ih]

-- A key may itself be a tagged tree.
example :
    (Value.tuple [.text "sequence", .dict [(.tuple [.text "name", .text "x"], .null)]]).read =
      .ok (.sequence (.tuple [.node (.name "x")])) := by
  rfl

end ConstLang
