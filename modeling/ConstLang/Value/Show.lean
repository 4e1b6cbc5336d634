import ConstLang.Number.Decimal
import ConstLang.Text.Digit
import ConstLang.Text.Quoted
import ConstLang.Value.Basic

/-!
The texts of a value. `inspect` shows what a value is made of and is used in
messages about it; `label` is the same but leaves a text bare; `display` is what
programs print. An integer beyond the limit of digits has no text, and neither has
a function with a parameter that is not a text. Values are shown however deep they
nest, with no account of the stack that the host needs for it.

An operation that is not bound as a primitive has no text of its own in the language:
a host shows its function with the address it has in memory, to which nothing here
corresponds. The text given to it below is this library's choice.
-/

namespace ConstLang

def showInt (i : Int) : Except Mishap String :=
  match Text.writeInt? i with
  | some s => .ok s
  | none => .error .domain

/-- The text of a function lists its parameters. -/
def showFunction (params : List Value) : Except Mishap String := do
  let names ← params.mapM fun
    | .text x => pure x
    | _ => .error .kind
  return "<function(" ++ ", ".intercalate names ++ ")>"

/-- A tuple of one item keeps a comma behind it. -/
def showTuple : List String → String
  | [x] => "(" ++ x ++ ",)"
  | xs => "(" ++ ", ".intercalate xs ++ ")"

mutual

def Value.inspect : Value → Except Mishap String
  | .null => .ok "None"
  | .undefined => .ok "undefined"
  | .uninitialized => .ok "<uninitialized>"
  | .bool b => .ok (if b then "True" else "False")
  | .int i => showInt i
  | .float d => .ok d.text
  | .nan _ => .ok "nan"
  | .text s => .ok (Text.inspect s)
  | .list xs => do return "[" ++ ", ".intercalate (← inspectItems xs) ++ "]"
  | .tuple xs => do return showTuple (← inspectItems xs)
  | .dict es => do return "\x7b" ++ ", ".intercalate (← inspectEntries es) ++ "\x7d"
  | .node n => n.inspect
  | .operation op => .ok ("<operation " ++ op.ownName ++ ">")
  | .primitive _ (.text name) _ => .ok ("<primitive " ++ name ++ ">")
  | .primitive _ name _ => do return "<primitive " ++ (← name.inspect) ++ ">"
  | .function _ params _ => showFunction params
  | .marker _ content => do return "ReturnValue(" ++ (← content.inspect) ++ ")"

def inspectItems : List Value → Except Mishap (List String)
  | [] => .ok []
  | x :: xs => do return (← x.inspect) :: (← inspectItems xs)

def inspectEntries : List (Value × Value) → Except Mishap (List String)
  | [] => .ok []
  | (k, x) :: es => do
      return ((← k.inspect) ++ ": " ++ (← x.inspect)) :: (← inspectEntries es)

def Node.inspect : Node → Except Mishap String
  | .literal v => do return "Literal(value=" ++ (← v.inspect) ++ ")"
  | .name x => .ok ("NameRef(name=" ++ Text.inspect x ++ ")")
  | .declaration x v => do
      return "ConstDecl(name=" ++ (← x.inspect) ++ ", value=" ++ (← v.inspect) ++ ")"
  | .conditional p c a => do
      return "Conditional(predicate=" ++ (← p.inspect) ++ ", consequent=" ++ (← c.inspect) ++
        ", alternative=" ++ (← a.inspect) ++ ")"
  | .function ps b => do
      return "FunctionDef(params=" ++ (← ps.inspect) ++ ", body=" ++ (← b.inspect) ++ ")"
  | .sequence ss => do return "Sequence(statements=" ++ (← ss.inspect) ++ ")"
  | .block b => do return "Block(body=" ++ (← b.inspect) ++ ")"
  | .returning e => do return "Return(expr=" ++ (← e.inspect) ++ ")"
  | .application f xs => do
      return "Application(operator=" ++ (← f.inspect) ++ ", operands=" ++ (← xs.inspect) ++ ")"

end

namespace Value

def label : Value → Except Mishap String
  | .text s => .ok s
  | v => v.inspect

/-- A whole double is displayed as the integer it equals. -/
def displayDouble (d : Double) : Except Mishap String :=
  match d with
  | .infinity s => .ok (if s then "-Infinity" else "Infinity")
  | .finite _ _ _ =>
      match d.toInt? with
      | some i => showInt i
      | none => .ok d.text

def display : Value → Except Mishap String
  | .null => .ok "null"
  | .bool b => .ok (if b then "true" else "false")
  | .float d => displayDouble d
  | .nan _ => .ok "NaN"
  | .text s => .ok (Text.display s)
  | v => v.inspect

end Value
end ConstLang
