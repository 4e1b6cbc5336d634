import ConstLang.Memory

/-!
Primitives and the global environment. A table gives names to values; an operation
in it becomes a primitive of that name.
-/

namespace ConstLang

variable {β : Type}

/-- The ratio of a circle to its diameter, as the nearest double. -/
def Double.pi : Double := .finite false ⟨1024, by decide⟩ ⟨0x921fb54442d18, by decide⟩

/-- The value that a table binds to a name, a primitive being a new one. -/
def bindNew (name : Value) (v : Value) : Eval β Value := do return v.bindTo (← Eval.fresh) name

abbrev Table := List (String × Value)

/-- The standard table, its operations not yet bound. -/
def Table.standard : Table :=
  [("display", .operation .display), ("error", .operation .error), ("+", .operation .add),
    ("-", .operation .subtract), ("*", .operation .multiply), ("/", .operation .divide),
    ("%", .operation .remainder), ("===", .operation .equal), ("!==", .operation .unequal),
    ("<", .operation .less), ("<=", .operation .lessEq), (">", .operation .greater),
    (">=", .operation .greaterEq), ("!", .operation .not), ("undefined", .undefined),
    ("math_PI", .float .pi)]

/-- An entry of the standard table, newly bound. -/
def standardEntry (name : String) : Eval β Value :=
  match Table.standard.lookup name with
  | some v => bindNew (.text name) v
  | none => throw (.mishap .missing)

/-- The bound values of a table, in its order. -/
def Table.bind : Table → Eval β (List Value)
  | [] => return []
  | (name, v) :: rest => do
      let v ← bindNew (.text name) v
      return v :: (← Table.bind rest)

/-- An environment of one frame that holds a table. -/
def Table.environment (t : Table) : Eval β Env := do
  let values ← t.bind
  Eval.push (← Eval.ofMishap (Frame.ofValues (t.map fun e => .text e.1) values)) []

end ConstLang
