import ConstLang.Number.Reading
import ConstLang.Primitives
import ConstLang.Tree.Build
import ConstLang.Tree.Reader

/-!
Descriptions of values. A form says how a value is made: from its parts, by reading
a number or a tagged tree, by a constructor, or by taking one that was stored. Every
use of a standard primitive, a marker or a NaN makes a new one.
-/

namespace ConstLang

/-- The values that have no parts and no identity and need no reading. -/
inductive Scalar
  | null
  | undefined
  | uninitialized
  | bool (b : Bool)
  | int (i : Int)
  | text (s : String)
  | operation (op : Operation)

def Scalar.value : Scalar → Value
  | .null => .null
  | .undefined => .undefined
  | .uninitialized => .uninitialized
  | .bool b => .bool b
  | .int i => .int i
  | .text s => .text s
  | .operation op => .operation op

inductive Form
  | scalar (s : Scalar)
  | integer (text : String)
  | float (text : String)
  | list (items : List Form)
  | tuple (items : List Form)
  | dict (entries : List (String × Form))
  | stored (key : String)
  | standard (name : String)
  | primitive (op : Operation) (name : Form)
  | marker (content : Form)
  | tagged (tree : Form)
  | node (kind : NodeKind) (fields : List Form)
  | made (maker : Constructor) (args : List Form)

/-- A number read from text; a text that is none lies outside the domain of numbers. -/
def readNumber {β : Type} (n : Option Number) : Eval β Value := do
  match n with
  | some n => return .ofNumber (← Eval.fresh) n
  | none => throw (.mishap .domain)

/-- An entry of a key that is there replaces its value in place. -/
def putEntry (key : String) (v : Value) : List (String × Value) → List (String × Value)
  | [] => [(key, v)]
  | e :: es => if e.1 = key then (key, v) :: es else e :: putEntry key v es

/-- A dictionary of entries with texts for keys. -/
def Value.ofEntries (es : List (String × Value)) : Value :=
  .dict (es.map fun e => (.text e.1, e.2))

mutual

def Form.build {β : Type} (stored : String → Except Mishap Value) : Form → Eval β Value
  | .scalar s => return s.value
  | .integer text => readNumber ((Text.readInt? (Text.strip text.toList)).map .int)
  | .float text => readNumber (Number.readFloat? text)
  | .list fs => return .list (← buildAll stored fs)
  | .tuple fs => return .tuple (← buildAll stored fs)
  | .dict es => do
      let es ← buildEntries stored es
      return .ofEntries (es.foldl (fun d e => putEntry e.1 e.2 d) [])
  | .stored key => Eval.ofMishap (stored key)
  | .standard name => standardEntry name
  | .primitive op name => do bindNew (← name.build stored) (.operation op)
  | .marker f => do
      let content ← f.build stored
      return .marker (← Eval.fresh) content
  | .tagged f => do return .node (← Eval.ofExcept (← f.build stored).read)
  | .node kind fs => do return .node (← Eval.ofMishap (kind.build (← buildAll stored fs)))
  | .made c fs => do return .node (← Eval.ofMishap (c.make (← buildAll stored fs)))

def buildAll {β : Type} (stored : String → Except Mishap Value) : List Form → Eval β (List Value)
  | [] => return []
  | f :: fs => do
      let v ← f.build stored
      return v :: (← buildAll stored fs)

def buildEntries {β : Type} (stored : String → Except Mishap Value) :
    List (String × Form) → Eval β (List (String × Value))
  | [] => return []
  | (key, f) :: es => do
      let v ← f.build stored
      return (key, v) :: (← buildEntries stored es)

end

end ConstLang
