import ConstLang.Primitives
import ConstLang.Run
import ConstLang.Setting
import ConstLang.Tree.Build
import ConstLang.Tree.Reader

/-!
Programs over a global environment. A program runs as a block of its own, so its
declarations never reach the global frame, and a return may not leave it. The
depth of evaluation is limited; a program that exceeds the limit is told so.
-/

namespace ConstLang

/-- The limit on depth that is always granted. -/
def baseLimit : Nat := 1000

/-- The greatest limit on depth that can be asked for. -/
def greatestLimit : Int := 2147483647

/-- The limit in force when one of `maxDepth` is asked for. -/
def limitInForce (maxDepth : Int) : Except Mishap Nat :=
  if maxDepth ≤ baseLimit then .ok baseLimit
  else if maxDepth ≤ greatestLimit then .ok maxDepth.toNat
  else .error .range

/-- Reports exhausted depth as a fault of the program. -/
def guardDepth {β α : Type} (limit : Nat) (act : Eval β α) : Eval β α := fun m =>
  match act m with
  | .error (.mishap .stack) m' => .error (.tooDeep limit) m'
  | r => r

/-- Runs a program as a block over an environment. -/
def runProgram (limit : Nat) (program : Value) (env : Env) : Eval Code Value := do
  let v ← guardDepth limit (evaluate limit (.node (Node.makeBlock program)) env)
  if v.isMarker then throw .strayReturn else return v

structure Interpreter where
  globalEnv : Env
  maxDepth : Int

namespace Interpreter

/-- Builds the global environment. The setting of the depth is read only if none is given. -/
def create (table : Table) (maxDepth : Option Int) (setting : Option String) :
    Eval Code Interpreter := do
  let globalEnv ← table.environment
  match maxDepth with
  | some maxDepth => return { globalEnv, maxDepth }
  | none => return { globalEnv, maxDepth := ← Eval.ofExcept (Setting.depthLimit setting) }

def runProgram (i : Interpreter) (program : Value) : Eval Code Value := do
  let limit ← Eval.ofMishap (limitInForce i.maxDepth)
  ConstLang.runProgram limit program i.globalEnv

/-- Evaluates one tree, in the global environment unless another is given. -/
def evaluate (i : Interpreter) (node : Value) (env : Env) : Eval Code Value := do
  let limit ← Eval.ofMishap (limitInForce i.maxDepth)
  guardDepth limit (ConstLang.evaluate limit node (if env.isEmpty then i.globalEnv else env))

/-- Reads a tagged tree and runs it as a program. -/
def runTagged (i : Interpreter) (tree : Value) : Eval Code Value := do
  i.runProgram (.node (← Eval.ofExcept tree.read))

end Interpreter
end ConstLang
