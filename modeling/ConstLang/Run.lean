import ConstLang.Call
import ConstLang.Code

/-!
Running code in an environment. The depth bounds how far evaluation nests; when it
is used up the run stops with a mishap of the stack.
-/

namespace ConstLang

/-- Operands are evaluated from the first to the last. -/
@[specialize] def runAll {α β : Type} (exec : α → Env → Eval β Value) :
    List α → Env → Eval β (List Value)
  | [], _ => return []
  | c :: cs, env => do
      let v ← exec c env
      return v :: (← runAll exec cs env)

/-- Statements run until one yields a marker; the last value is the result. -/
@[specialize] def runStatements {α β : Type} (exec : α → Env → Eval β Value) :
    Value → List α → Env → Eval β Value
  | result, [], _ => return result
  | _, c :: cs, env => do
      let v ← exec c env
      if v.isMarker then return v else runStatements exec v cs env

/-- Only the truth value itself selects the consequent. -/
def Value.isTrue : Value → Bool
  | .bool b => b
  | _ => false

/-- Enters a scope whose names have no values yet. -/
def enterScope {β : Type} (locals : List Value) (env : Env) : Eval β Env := do
  Eval.push (← Eval.ofMishap (Frame.unassigned locals)) env

/-- One step of evaluation, with `exec` for the parts. -/
@[inline] def Code.step (exec : Code → Env → Eval Code Value) (code : Code) (env : Env) :
    Eval Code Value := do
  match code with
  | .literal v => return v
  | .name x => Eval.lookup (.text x) env
  | .declare x c =>
      Eval.assign x (← exec c env) env
      return .undefined
  | .select p c a => if (← exec p env).isTrue then exec c env else exec a env
  | .close params locals body => Eval.close params locals ⟨body, env⟩
  | .sequence cs => runStatements exec .undefined cs env
  | .enter locals body => exec body (← enterScope locals env)
  | .returning c => mark (← exec c env)
  | .apply f xs =>
      let f ← exec f env
      call exec f (← runAll exec xs env)

def run : Nat → Code → Env → Eval Code Value
  | 0, _, _ => throw (.mishap .stack)
  | depth + 1, code, env => Code.step (run depth) code env

@[simp] theorem run_zero (code : Code) (env : Env) : run 0 code env = throw (.mishap .stack) := rfl

theorem run_succ (depth : Nat) (code : Code) (env : Env) :
    run (depth + 1) code env = code.step (run depth) env := rfl

/-- Analyses a tree and runs it. -/
def evaluate (depth : Nat) (node : Value) (env : Env) : Eval Code Value := do
  run depth (← Eval.ofExcept node.analyze) env

/-- Applies a function to arguments. -/
def applyFunction (depth : Nat) (f : Value) (args : List Value) : Eval Code Value :=
  call (run depth) f args

end ConstLang
