import ConstLang.Value.Basic

/-!
Making trees from parts. A node can be put together as it is, or by a constructor
that wraps plain values as literals and insists on names that are texts.
-/

namespace ConstLang

/-- A node stays itself and any other value becomes a literal. -/
def Value.asNode : Value → Node
  | .node n => n
  | v => .literal v

/-- The text that a name must be. -/
def Value.nameText : Value → Except Mishap String
  | .text x => .ok x
  | _ => .error .kind

inductive NodeKind
  | literal
  | name
  | declaration
  | conditional
  | function
  | sequence
  | block
  | returning
  | application
  deriving DecidableEq, Repr

/-- A list that becomes a field of a node is kept as a tuple. -/
def Value.asField : Value → Value
  | .list xs => .tuple xs
  | v => v

/-- The node of a kind with the given fields, of which only the name of a reference is checked. The
value of a literal is left as it is. -/
def NodeKind.build : NodeKind → List Value → Except Mishap Node
  | .literal, [v] => .ok (.literal v)
  | .name, [x] => do return .name (← x.nameText)
  | .declaration, [x, v] => .ok (.declaration x.asField v.asField)
  | .conditional, [p, c, a] => .ok (.conditional p.asField c.asField a.asField)
  | .function, [ps, b] => .ok (.function ps.asField b.asField)
  | .sequence, [ss] => .ok (.sequence ss.asField)
  | .block, [b] => .ok (.block b.asField)
  | .returning, [e] => .ok (.returning e.asField)
  | .application, [f, xs] => .ok (.application f.asField xs.asField)
  | _, _ => .error .kind

namespace Node

def makeDeclaration (name value : Value) : Except Mishap Node := do
  return .declaration (.text (← name.nameText)) (.node value.asNode)

def makeConditional (predicate consequent alternative : Value) : Node :=
  .conditional (.node predicate.asNode) (.node consequent.asNode) (.node alternative.asNode)

def makeFunction (params body : Value) : Except Mishap Node := do
  let names ← (← params.iterate).mapM Value.nameText
  return .function (.tuple (names.map .text)) (.node body.asNode)

def makeSequence (statements : List Value) : Node :=
  .sequence (.tuple (statements.map fun s => .node s.asNode))

def makeBlock (body : Value) : Node := .block (.node body.asNode)

def makeReturning (expr : Value) : Node := .returning (.node expr.asNode)

/-- A text in front names the function to call. -/
def makeApplication (operator : Value) (operands : List Value) : Node :=
  let called := match operator with
    | .text x => .node (.name x)
    | f => f
  .application called (.tuple (operands.map fun x => .node x.asNode))

end Node

inductive Constructor
  | name
  | declaration
  | conditional
  | function
  | sequence
  | block
  | returning
  | application
  | functionDeclaration
  | asNode
  deriving DecidableEq, Repr

/-- The node that a constructor makes of its arguments. -/
def Constructor.make : Constructor → List Value → Except Mishap Node
  | .name, [x] => do return .name (← x.nameText)
  | .declaration, [x, v] => Node.makeDeclaration x v
  | .conditional, [p, c, a] => .ok (Node.makeConditional p c a)
  | .function, [ps, b] => Node.makeFunction ps b
  | .sequence, ss => .ok (Node.makeSequence ss)
  | .block, [b] => .ok (Node.makeBlock b)
  | .returning, [e] => .ok (Node.makeReturning e)
  | .application, f :: xs => .ok (Node.makeApplication f xs)
  | .functionDeclaration, [x, ps, b] => do
      Node.makeDeclaration x (.node (← Node.makeFunction ps b))
  | .asNode, [v] => .ok v.asNode
  | _, _ => .error .kind

end ConstLang
