import ConstLang.Interpreter
import ConstLang.Proofs.Renaming.Memory

/-!
Runs under a renaming. Renamed code in a renamed environment does what the code does,
renamed, and so does a program.
-/

namespace ConstLang

namespace Eval

variable {ρ : Renaming}

theorem mirrors_mark (v : Value) : Mirrors ρ (Value.rename ρ) (mark v) (mark (v.rename ρ)) := by
  cases v with
  | marker _ _ => exact mirrors_pure rfl
  | _ => exact mirrors_fresh.bind fun _ => mirrors_pure rfl

theorem mirrors_performOperation (op : Operation) (args : List Value) :
    Mirrors ρ (Value.rename ρ) (performOperation op args)
      (performOperation op (args.map (Value.rename ρ))) := by
  refine mirrors_fresh.bind fun id => ?_
  refine Mirrors.bind (mirrors_ofExcept (op.perform_rename ρ id args)) fun effect => ?_
  cases effect with
  | mk value written =>
      cases written with
      | none => exact mirrors_pure rfl
      | some text => exact (mirrors_write text).bind fun _ => mirrors_pure rfl

theorem mirrors_enterCall (f : Value) (id : Nat) (params locals args : List Value) :
    Mirrors ρ (fun entered => (entered.1.rename ρ, entered.2.map ρ.frame))
      (enterCall f id params locals args)
      (enterCall (f.rename ρ) (ρ.closure id) (params.map (Value.rename ρ))
        (locals.map (Value.rename ρ)) (args.map (Value.rename ρ))) := by
  intro m m' hm
  rw [enterCall_apply, enterCall_apply]
  simp only [List.length_map, hm.closures, callSlots_rename, Frame.ofSlots_rename]
  split
  · cases m.closures[id]? with
    | none => exact .error rfl hm
    | some c =>
        cases Frame.ofSlots (callSlots params locals args) with
        | error e => exact .error rfl hm
        | ok frame =>
            refine .ok ?_ (hm.push frame c.env)
            simpa [Closure.rename] using (hm.nextFrame 0).symm
  · exact .error rfl hm

theorem mirrors_enterScope (locals : List Value) (env : Env) :
    Mirrors ρ (List.map ρ.frame) (enterScope locals env)
      (enterScope (locals.map (Value.rename ρ)) (env.map ρ.frame)) :=
  (mirrors_ofMishap (Frame.unassigned_rename ρ locals)).bind fun f => mirrors_push f env

section Parts

variable {exec : Code → Env → Eval Code Value}
  (hexec : ∀ c env, Mirrors ρ (Value.rename ρ) (exec c env) (exec (c.rename ρ) (env.map ρ.frame)))

include hexec

theorem mirrors_call (f : Value) (args : List Value) :
    Mirrors ρ (Value.rename ρ) (call exec f args)
      (call exec (f.rename ρ) (args.map (Value.rename ρ))) := by
  cases f with
  | primitive _ _ op => exact mirrors_performOperation op args
  | function id params locals =>
      simp only [call, Value.rename, renameItems_eq_map]
      have entered : Mirrors ρ _ _ _ :=
        mirrors_enterCall (.function id params locals) id params locals args
      simp only [Value.rename, renameItems_eq_map] at entered
      refine entered.bind fun called => ?_
      refine (hexec called.1 called.2).bind fun v => mirrors_pure ?_
      cases v <;> rfl
  | _ => exact mirrors_throw rfl

theorem mirrors_runAll (cs : List Code) (env : Env) :
    Mirrors ρ (List.map (Value.rename ρ)) (runAll exec cs env)
      (runAll exec (cs.map (Code.rename ρ)) (env.map ρ.frame)) := by
  induction cs with
  | nil => exact mirrors_pure rfl
  | cons c cs ih => exact (hexec c env).bind fun v => ih.bind fun vs => mirrors_pure rfl

theorem mirrors_runStatements (v : Value) (cs : List Code) (env : Env) :
    Mirrors ρ (Value.rename ρ) (runStatements exec v cs env)
      (runStatements exec (v.rename ρ) (cs.map (Code.rename ρ)) (env.map ρ.frame)) := by
  induction cs generalizing v with
  | nil => exact mirrors_pure rfl
  | cons c cs ih =>
      refine (hexec c env).bind fun w => ?_
      simp only [Value.isMarker_rename]
      split
      · exact mirrors_pure rfl
      · exact ih w

theorem mirrors_step (c : Code) (env : Env) :
    Mirrors ρ (Value.rename ρ) (c.step exec env) ((c.rename ρ).step exec (env.map ρ.frame)) := by
  cases c with
  | literal v => exact mirrors_pure rfl
  | name x => exact mirrors_lookup (.text x) env
  | declare x c =>
      refine (hexec c env).bind fun v => ?_
      exact (mirrors_assign x v env).bind fun _ => mirrors_pure rfl
  | select p c a =>
      refine (hexec p env).bind fun v => ?_
      have same : (v.rename ρ).isTrue = v.isTrue := by cases v <;> rfl
      rw [same]
      split
      · exact hexec c env
      · exact hexec a env
  | close params locals body => exact mirrors_close params locals ⟨body, env⟩
  | sequence cs =>
      simp only [Code.rename, renameAll_eq_map]
      exact mirrors_runStatements hexec .undefined cs env
  | enter locals body =>
      exact (mirrors_enterScope locals env).bind fun inner => hexec body inner
  | returning c => exact (hexec c env).bind fun v => mirrors_mark v
  | apply f xs =>
      simp only [Code.rename, renameAll_eq_map]
      refine (hexec f env).bind fun g => ?_
      exact (mirrors_runAll hexec xs env).bind fun args => mirrors_call hexec g args

end Parts

theorem mirrors_run (depth : Nat) (c : Code) (env : Env) :
    Mirrors ρ (Value.rename ρ) (run depth c env) (run depth (c.rename ρ) (env.map ρ.frame)) := by
  induction depth generalizing c env with
  | zero => exact mirrors_throw rfl
  | succ depth ih => exact mirrors_step ih c env

theorem Mirrors.guardDepth {α α' : Type} {on : α → α'} {act : Eval Code α} {act' : Eval Code α'}
    (h : Mirrors ρ on act act') (limit : Nat) :
    Mirrors ρ on (guardDepth limit act) (guardDepth limit act') := by
  intro m m' hm
  have ends := h m m' hm
  simp only [ConstLang.guardDepth]
  generalize act m = r, act' m' = r' at ends
  cases ends with
  | ok ha hm' => exact .ok ha hm'
  | @error e _ _ _ he hm' =>
      subst he
      cases e with
      | mishap e => cases e <;> exact .error rfl hm'
      | _ => exact .error rfl hm'

theorem mirrors_evaluate (depth : Nat) (node : Value) (env : Env) :
    Mirrors ρ (Value.rename ρ) (evaluate depth node env)
      (evaluate depth (node.rename ρ) (env.map ρ.frame)) :=
  (mirrors_ofExcept (node.analyze_rename ρ)).bind fun c => mirrors_run depth c env

theorem mirrors_runProgram (limit : Nat) (program : Value) (env : Env) :
    Mirrors ρ (Value.rename ρ) (runProgram limit program env)
      (runProgram limit (program.rename ρ) (env.map ρ.frame)) := by
  have block : Value.node (Node.makeBlock (program.rename ρ)) =
      (Value.node (Node.makeBlock program)).rename ρ := by
    simp [Node.makeBlock]
  simp only [runProgram, block]
  refine ((mirrors_evaluate limit _ env).guardDepth limit).bind fun v => ?_
  simp only [Value.isMarker_rename]
  split
  · exact mirrors_throw rfl
  · exact mirrors_pure rfl

/-- The program of a renamed tree, over a global environment that the renaming keeps. -/
theorem mirrors_runTagged {i : Interpreter} (kept : i.globalEnv.map ρ.frame = i.globalEnv)
    (tree : Value) :
    Mirrors ρ (Value.rename ρ) (i.runTagged tree) (i.runTagged (tree.rename ρ)) := by
  refine (mirrors_ofExcept (tree.read_rename ρ)).bind fun program => ?_
  have granted : Mirrors ρ id (ofMishap (limitInForce i.maxDepth))
      (ofMishap (limitInForce i.maxDepth)) :=
    mirrors_ofMishap (by cases limitInForce i.maxDepth <;> rfl)
  refine granted.bind fun limit => ?_
  have run : Mirrors ρ _ _ _ := mirrors_runProgram limit (.node program) i.globalEnv
  rwa [kept] at run

end Eval

end ConstLang
