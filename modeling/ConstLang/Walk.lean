import ConstLang.Run
import ConstLang.Tree.Build

/-!
Evaluation of trees as they stand. Nothing is settled beforehand: the kind of each
node is looked at whenever it is evaluated, the names of a scope are collected when
it is entered, and every sequence runs by the same loop. Running the code that
analysis makes of a tree means the same.
-/

namespace ConstLang

/-- One step of evaluation, with `exec` for the parts. -/
def Node.walkStep (exec : Value → Env → Eval Value Value) (n : Node) (env : Env) :
    Eval Value Value := do
  match n with
  | .literal v => return v
  | .name x => Eval.lookup (.text x) env
  | .declaration x v =>
      Eval.assign x (← exec v env) env
      return .undefined
  | .conditional p c a => if (← exec p env).isTrue then exec c env else exec a env
  | .function ps b =>
      let params ← Eval.ofExcept ps.paramNames
      let locals ← Eval.ofExcept b.localNames
      let _ ← Eval.ofExcept (insertAll params locals)
      Eval.close params locals ⟨b, env⟩
  | .sequence ss => runStatements exec .undefined (← Eval.ofMishap ss.iterate) env
  | .block b => exec b (← enterScope (← Eval.ofExcept b.localNames) env)
  | .returning e => mark (← exec e env)
  | .application f xs =>
      let f ← exec f env
      call exec f (← runAll exec (← Eval.ofMishap xs.iterate) env)

def walk : Nat → Value → Env → Eval Value Value
  | 0, _, _ => throw (.mishap .stack)
  | depth + 1, .node n, env => n.walkStep (walk depth) env
  | _ + 1, v, _ => throw (.unknownNode v)

end ConstLang
