import ConstLang.Proofs.Isolation
import ConstLang.Session

/-!
What a session keeps. Every step of a session, whether it succeeds or fails, only makes
memory grow and leaves the interpreter as it is. A frame without unassigned slots is
therefore the same after any history.
-/

namespace ConstLang

namespace Eval

variable (may : Nat → Value → Prop)

theorem grows_readNumber (n : Option Number) : (readNumber n : Eval Code Value).Grows may := by
  cases n with
  | none => exact grows_throw may _
  | some n => exact (grows_fresh may).bind fun _ => grows_pure may _

theorem grows_bindNew (name v : Value) : (bindNew name v : Eval Code Value).Grows may :=
  (grows_fresh may).bind fun _ => grows_pure may _

theorem grows_standardEntry (name : String) : (standardEntry name : Eval Code Value).Grows may := by
  unfold standardEntry
  split
  · exact grows_bindNew may _ _
  · exact grows_throw may _

section Build

variable (stored : String → Except Mishap Value)

mutual

theorem grows_build : ∀ f : Form, (f.build stored : Eval Code Value).Grows may
  | .scalar _ => grows_pure may _
  | .integer _ | .float _ => grows_readNumber may _
  | .list fs | .tuple fs => (grows_buildAll fs).bind fun _ => grows_pure may _
  | .dict es => (grows_buildEntries es).bind fun _ => grows_pure may _
  | .stored _ => grows_ofMishap may _
  | .standard name => grows_standardEntry may name
  | .primitive _ f => (grows_build f).bind fun name => grows_bindNew may name _
  | .marker f =>
      (grows_build f).bind fun _ => (grows_fresh may).bind fun _ => grows_pure may _
  | .tagged f =>
      (grows_build f).bind fun _ => (grows_ofExcept may _).bind fun _ => grows_pure may _
  | .node _ fs | .made _ fs =>
      (grows_buildAll fs).bind fun _ => (grows_ofMishap may _).bind fun _ => grows_pure may _

theorem grows_buildAll : ∀ fs : List Form, (buildAll stored fs : Eval Code (List Value)).Grows may
  | [] => grows_pure may _
  | f :: fs => (grows_build f).bind fun _ => (grows_buildAll fs).bind fun _ => grows_pure may _

theorem grows_buildEntries : ∀ es : List (String × Form),
    (buildEntries stored es : Eval Code (List (String × Value))).Grows may
  | [] => grows_pure may _
  | (_, f) :: es =>
      (grows_build f).bind fun _ => (grows_buildEntries es).bind fun _ => grows_pure may _

end

end Build

theorem grows_bindTable (t : Table) : (Table.bind t : Eval Code (List Value)).Grows may := by
  induction t with
  | nil => exact grows_pure may _
  | cons e t ih => exact (grows_bindNew may _ _).bind fun _ => ih.bind fun _ => grows_pure may _

theorem grows_environment (t : Table) : (Table.environment t : Eval Code Env).Grows may :=
  (grows_bindTable may t).bind fun _ =>
    (grows_ofMishap may _).bind fun f => grows_push may f []

theorem grows_extendZip (names values : List Value) (base : Env) :
    (extendZip names values base : Eval Code Env).Grows may :=
  (grows_ofMishap may _).bind fun f => grows_push may f base

theorem grows_extend (names values : List Value) (base : Env) :
    (extend names values base : Eval Code Env).Grows may := by
  unfold extend
  split
  · exact (grows_throw may _).bind fun _ => grows_extendZip may names values base
  · exact grows_extendZip may names values base

theorem grows_extendUnassigned (names : List Value) (base : Env) :
    (extendUnassigned names base : Eval Code Env).Grows may :=
  (grows_ofMishap may _).bind fun f => grows_push may f base

end Eval

namespace Interpreter

open Eval

variable (may : Nat → Value → Prop) (i : Interpreter)

theorem grows_runProgram (program : Value) : (i.runProgram program).Grows may :=
  (grows_ofMishap may _).bind fun limit => Eval.grows_runProgram may limit program i.globalEnv

theorem grows_runTagged (tree : Value) : (i.runTagged tree).Grows may :=
  (grows_ofExcept may _).bind fun _ => i.grows_runProgram may _

theorem grows_evaluate (node : Value) (env : Env) :
    (i.evaluate node env).Grows fun _ _ => True := by
  refine (grows_ofMishap _ _).bind fun limit => grows_guardDepth ?_ limit
  exact (Eval.grows_evaluate limit node _).any

end Interpreter

namespace Session

open Eval

theorem grows_envOf (may : Nat → Value → Prop) (s : Session) (key : Option String) :
    (s.envOf key).Grows may := by
  cases key with
  | none => exact grows_pure may _
  | some key => exact grows_ofMishap may _

theorem grows_apply (may : Nat → Value → Prop) (f args : Value) :
    (Session.apply f args).Grows may := by
  unfold Session.apply
  split
  · exact (grows_ofMishap may _).bind fun _ => grows_applyFunction may baseLimit _ _
  · exact (grows_ofMishap may _).bind fun _ => grows_applyFunction may baseLimit _ _
  · exact grows_throw may _

section Act

variable {may : Nat → Value → Prop} {s : Session}

theorem grows_value {act : Eval Code Value} (h : act.Grows may) :
    (do return value (← act) : Eval Code Outcome).Grows may :=
  h.bind fun _ => grows_pure may _

theorem grows_madeEnv {act : Eval Code Env} (h : act.Grows may) (key : String) :
    (act >>= madeEnv key).Grows may :=
  h.bind fun _ => (grows_get may).bind fun _ => grows_pure may _

/-- The steps that evaluate something they build in an environment. -/
theorem grows_evaluation {next : Value → Env → Eval Code Value}
    (h : ∀ v env, (next v env).Grows may) (f : Form) (key : Option String) :
    (do return value (← next (← s.build f) (← s.envOf key)) : Eval Code Outcome).Grows may :=
  (grows_build may _ f).bind fun v => (grows_envOf may s key).bind fun env => grows_value (h v env)

/-- The steps that extend an environment by names and values. -/
theorem grows_extension {next : List Value → List Value → Env → Eval Code Env}
    (h : ∀ names values base, (next names values base).Grows may) (key : String)
    (names values : Form) (base : Option String) :
    (do
      let names ← s.build names
      let values ← s.build values
      let base ← s.envOf base
      madeEnv key (← next (← items names) (← items values) base) : Eval Code Outcome).Grows may := by
  refine (grows_build may _ names).bind fun ns => (grows_build may _ values).bind fun vs => ?_
  refine (grows_envOf may s base).bind fun env => (grows_ofMishap may _).bind fun ns => ?_
  exact (grows_ofMishap may _).bind fun vs => grows_madeEnv (h ns vs env) key

theorem grows_unassigned (key : String) (names : Form) (base : Option String) :
    (s.act (.extendUnassigned key names base)).Grows may := by
  refine (grows_build may _ names).bind fun ns => (grows_envOf may s base).bind fun env => ?_
  exact (grows_ofMishap may _).bind fun ns =>
    grows_madeEnv (grows_extendUnassigned may ns env) key

theorem grows_execution (code : String) (key : Option String) :
    (s.act (.execute code key)).Grows fun _ _ => True := by
  refine (grows_ofMishap _ _).bind fun c => (grows_envOf _ s key).bind fun env => ?_
  exact grows_value (grows_run baseLimit c env).any

theorem grows_assignment (name v : Form) (key : Option String) :
    (s.act (.assign name v key)).Grows fun _ _ => True := by
  refine (grows_build _ _ name).bind fun x => (grows_build _ _ v).bind fun w => ?_
  refine (grows_envOf _ s key).bind fun env => ?_
  refine (grows_assign x w env).any.bind fun _ => ?_
  exact (grows_get _).bind fun m => (grows_ofMishap _ _).bind fun text => grows_pure _ _

end Act

/-- Whatever a step asks for, it only makes memory grow. -/
theorem grows_act (s : Session) (what : Step) : (s.act what).Grows fun _ _ => True := by
  have build (f : Form) : (s.build f).Grows fun _ _ => True := grows_build _ _ f
  cases what with
  | runTagged tree => exact (build tree).bind fun v => grows_value (s.interpreter.grows_runTagged _ v)
  | runProgram program =>
      exact (build program).bind fun v => grows_value (s.interpreter.grows_runProgram _ v)
  | evaluate node key => exact grows_evaluation s.interpreter.grows_evaluate node key
  | coreEvaluate node key =>
      exact grows_evaluation (fun v env => (grows_evaluate baseLimit v env).any) node key
  | coreProgram program key => exact grows_evaluation (grows_runProgram _ baseLimit) program key
  | lookup name key => exact grows_evaluation (grows_lookup _) name key
  | execute code key => exact grows_execution code key
  | analyze node key =>
      exact (build node).bind fun _ => (grows_ofExcept _ _).bind fun _ => grows_pure _ _
  | apply f args =>
      exact (build f).bind fun g => (build args).bind fun xs => grows_value (grows_apply _ g xs)
  | extend key names values base => exact grows_extension (grows_extend _) key names values base
  | extendZip key names values base =>
      exact grows_extension (grows_extendZip _) key names values base
  | extendUnassigned key names base => exact grows_unassigned key names base
  | extendEmpty key base =>
      exact (grows_envOf _ s base).bind fun env => grows_madeEnv (grows_push _ Frame.empty env) key
  | globalFrame key table =>
      exact (grows_buildEntries _ _ table).bind fun t => grows_madeEnv (grows_environment _ t) key
  | assign name v key => exact grows_assignment name v key
  | viewEnv key probe =>
      refine (grows_buildAll _ _ probe).bind fun _ => (grows_envOf _ s key).bind fun _ => ?_
      exact (grows_get _).bind fun _ => grows_pure _ _
  | viewFunction f => exact (build f).bind fun _ => (grows_get _).bind fun _ => grows_pure _ _
  | display v => exact (build v).bind fun _ => (grows_ofMishap _ _).bind fun _ => grows_pure _ _
  | limits limit => exact (grows_ofMishap _ _).bind fun _ => grows_pure _ _
  | maxDepth => exact grows_pure _ _

/-- One step leaves the interpreter alone and makes memory grow, whether it succeeds or fails. -/
theorem step_grows (s : Session) (what : Step) (key : Option String) :
    (s.step what key).2.interpreter = s.interpreter ∧
      s.memory.Grows (fun _ _ => True) (s.step what key).2.memory := by
  have grown := s.grows_act what { s.memory with output := #[] }
  unfold Ends at grown
  unfold step
  split at grown
  · rename_i outcome m ended
    have grown' : s.memory.Grows (fun _ _ => True) m :=
      ⟨grown.frames, grown.closures, grown.serial⟩
    simp only [ended]
    split <;> exact ⟨rfl, grown'⟩
  · rename_i fault m ended
    simp only [ended]
    exact ⟨trivial, grown.frames, grown.closures, grown.serial⟩

/-- The session after some steps. -/
def after (s : Session) : List (Step × Option String) → Session
  | [] => s
  | (what, key) :: rest => (s.step what key).2.after rest

theorem after_grows (s : Session) (history : List (Step × Option String)) :
    (s.after history).interpreter = s.interpreter ∧
      s.memory.Grows (fun _ _ => True) (s.after history).memory := by
  induction history generalizing s with
  | nil => exact ⟨rfl, .refl _ _⟩
  | cons what rest ih =>
      have first := s.step_grows what.1 what.2
      have others := ih (s.step what.1 what.2).2
      exact ⟨others.1.trans first.1, first.2.trans others.2 fun _ _ _ => id⟩

theorem steps_append (s : Session) (history rest : List (Step × Option String)) :
    s.steps (history ++ rest) = s.steps history ++ (s.after history).steps rest := by
  induction history generalizing s with
  | nil => rfl
  | cons what history ih => simp [steps, after, ih]

end Session

end ConstLang
