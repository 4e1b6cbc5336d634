import ConstLang.Memory

/-!
Environments made by hand, and their texts.
-/

namespace ConstLang

namespace Frame

/-- A slot without a value has a text of its own. -/
def showSlot : Option Value → Except Mishap String
  | some v => v.inspect
  | none => .ok "<uninitialized>"

/-- The names and contents of a frame, in order. -/
def inspect (f : Frame) : Except Mishap String := do
  let shown ← f.slots.mapM fun s => do return (← s.1.label) ++ ": " ++ (← showSlot s.2)
  return "\x7b" ++ ", ".intercalate shown ++ "\x7d"

end Frame

namespace Memory

variable {β : Type}

/-- The text of a chain of frames, innermost first. -/
def inspectChain (m : Memory β) (env : Env) : Except Mishap String := do
  let shown ← env.mapM fun i => (m.frame i).inspect
  return "<Environment chain: " ++ " -> ".intercalate shown ++ ">"

/-- The text of an environment; the one without frames is nothing. -/
def inspectEnv (m : Memory β) (env : Env) : Except Mishap String :=
  if env.isEmpty then .ok "None" else m.inspectChain env

end Memory

namespace Eval

variable {β : Type}

/-- Chains a frame of names and values, cut to the shorter of the two lists. -/
def extendZip (names values : List Value) (base : Env) : Eval β Env := do
  push (← ofMishap (Frame.ofValues names values)) base

/-- Chains a frame of names and values, of which there must be equally many. -/
def extend (names values : List Value) (base : Env) : Eval β Env := do
  if names.length ≠ values.length then throw (.arity names.length values.length)
  extendZip names values base

/-- Chains a frame of names that have no values. -/
def extendUnassigned (names : List Value) (base : Env) : Eval β Env := do
  push (← ofMishap (Frame.unassigned names)) base

end Eval
end ConstLang
