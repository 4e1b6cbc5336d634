import ConstLang.Arithmetic
import ConstLang.Memory

/-!
Application of functions to arguments, for any way of running their bodies. A
function gets one new frame on top of the environment it was defined in, with its
parameters assigned and its own names not yet.
-/

namespace ConstLang

variable {β : Type}

/-- The value of a return statement. A marker is handed on, so markers never nest. -/
def mark (v : Value) : Eval β Value := do
  match v with
  | .marker _ _ => return v
  | _ => return .marker (← Eval.fresh) v

/-- What a call yields: the content of a marker, and otherwise undefined. -/
def Value.returned : Value → Value
  | .marker _ content => content
  | _ => .undefined

def performOperation (op : Operation) (args : List Value) : Eval β Value := do
  let effect ← Eval.ofExcept (op.perform (← Eval.fresh) args)
  match effect.written with
  | some text => Eval.write text
  | none => pure ()
  return effect.value

/-- The slots of a call: the parameters with the arguments, then the names of the body. -/
def callSlots (params locals args : List Value) : List (Value × Option Value) :=
  params.zip (args.map Value.slot) ++ locals.map (·, none)

/-- The closure of a function and the environment of its call. -/
def enterCall (f : Value) (id : Nat) (params locals args : List Value) : Eval β (β × Env) := do
  if args.length ≠ params.length then throw (.arity params.length args.length)
  match (← get).closures[id]? with
  | none => throw (.unknownFunction f)
  | some c =>
      let frame ← Eval.ofMishap (Frame.ofSlots (callSlots params locals args))
      return (c.body, ← Eval.push frame c.env)

@[inline] def call (exec : β → Env → Eval β Value) (f : Value) (args : List Value) :
    Eval β Value := do
  match f with
  | .primitive _ _ op => performOperation op args
  | .function id params locals =>
      let (body, env) ← enterCall f id params locals args
      return (← exec body env).returned
  | v => throw (.unknownFunction v)

end ConstLang
