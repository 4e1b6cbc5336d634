import ConstLang.Interpreter
import ConstLang.Proofs.Growth

/-!
Isolation of writes. Running code fills slots only in the innermost frame of its
environment, and there only those of names that it declares itself. A call and a
block have an innermost frame of their own, which is new, so that a program and a
call leave every frame alone that was there before, also when they fail.
-/

namespace ConstLang

mutual

/-- The names that code declares in its own environment, in whatever position. Functions and blocks
declare in theirs. -/
def Code.writes : Code → List Value
  | .declare x c => c.writes ++ [x]
  | .select p c a => p.writes ++ c.writes ++ a.writes
  | .sequence cs => writesAll cs
  | .returning c => c.writes
  | .apply f xs => f.writes ++ writesAll xs
  | .literal _ | .name _ | .close _ _ _ | .enter _ _ => []

def writesAll : List Code → List Value
  | [] => []
  | c :: cs => c.writes ++ writesAll cs

end

theorem subset_writesAll {c : Code} {cs : List Code} (h : c ∈ cs) : c.writes ⊆ writesAll cs := by
  induction cs with
  | nil => cases h
  | cons d cs ih =>
      rcases List.mem_cons.mp h with rfl | h
      · exact List.subset_append_left _ _
      · exact List.Subset.trans (ih h) (List.subset_append_right _ _)

/-- The slots of some names in the innermost frame of an environment. -/
def Innermost (env : Env) (names : List Value) (i : Nat) (x : Value) : Prop :=
  env.head? = some i ∧ ∃ y ∈ names, x.same y

theorem Innermost.mono {env : Env} {names names' : List Value} (h : names ⊆ names') (i : Nat)
    (x : Value) (hx : Innermost env names i x) : Innermost env names' i x :=
  ⟨hx.1, hx.2.imp fun _ hy => ⟨h hy.1, hy.2⟩⟩

namespace Eval

theorem grows_mark {β : Type} (may : Nat → Value → Prop) (v : Value) :
    (mark v : Eval β Value).Grows may := by
  unfold mark
  split
  · exact grows_pure may _
  · exact (grows_fresh may).bind fun _ => grows_pure may _

theorem grows_performOperation {β : Type} (may : Nat → Value → Prop) (op : Operation)
    (args : List Value) : (performOperation op args : Eval β Value).Grows may := by
  refine (grows_fresh may).bind fun id => (grows_ofExcept may _).bind fun effect => ?_
  dsimp only
  split
  · exact (grows_write may _).bind fun _ => grows_pure may _
  · exact grows_pure may _

section Parts

variable {exec : Code → Env → Eval Code Value}

/-- A call fills slots of its own frame only. -/
theorem grows_call (may : Nat → Value → Prop)
    (hexec : ∀ c env, (exec c env).Grows (Innermost env c.writes)) (f : Value)
    (args : List Value) : (call exec f args).Grows may := by
  unfold call
  split
  · exact grows_performOperation may _ args
  · intro m
    rw [ends_bind]
    refine ends_enterCall (fun _ => .refl may m) (fun _ => .refl may m) (fun _ => .refl may m) ?_
    intro c frame _ _ _
    have body : (exec c.body (m.frames.size :: c.env) >>= fun v => pure v.returned).Grows
        fun i _ => i = m.frames.size := by
      refine ((hexec c.body _).imp ?_).bind fun _ => grows_pure _ _
      rintro i x ⟨head, -⟩
      simpa [eq_comm] using head
    have old : ∀ i < m.frames.size, ∀ x : Value, i = m.frames.size → may i x := by
      intro i hi _ e
      omega
    have pushed := m.grows_push may frame c.env
    exact (body _).imp (fun _ _ g => pushed.trans g old) (fun _ _ g => pushed.trans g old)
  · exact grows_throw may _

theorem grows_enterScope_bind (may : Nat → Value → Prop)
    (hexec : ∀ c env, (exec c env).Grows (Innermost env c.writes)) (locals : List Value)
    (body : Code) (env : Env) :
    (enterScope locals env >>= fun inner => exec body inner).Grows may := by
  intro m
  simp only [enterScope, ends_bind, ends_ofMishap]
  split
  · rename_i frame _
    rw [← ends_bind]
    refine grows_push_bind may frame env (fun i => ?_) m
    refine (hexec body (i :: env)).imp ?_
    rintro j x ⟨head, -⟩
    simpa [eq_comm] using head
  · exact .refl may m

theorem grows_runAll (hexec : ∀ c env, (exec c env).Grows (Innermost env c.writes)) (cs : List Code)
    (env : Env) : (runAll exec cs env).Grows (Innermost env (writesAll cs)) := by
  induction cs with
  | nil => exact grows_pure _ _
  | cons c cs ih =>
      refine ((hexec c env).imp (Innermost.mono ?_)).bind fun v => ?_
      · exact List.subset_append_left _ _
      · refine (ih.imp (Innermost.mono ?_)).bind fun _ => grows_pure _ _
        exact List.subset_append_right _ _

theorem grows_runStatements (hexec : ∀ c env, (exec c env).Grows (Innermost env c.writes))
    (result : Value) (cs : List Code) (env : Env) :
    (runStatements exec result cs env).Grows (Innermost env (writesAll cs)) := by
  induction cs generalizing result with
  | nil => exact grows_pure _ _
  | cons c cs ih =>
      refine ((hexec c env).imp (Innermost.mono ?_)).bind fun v => ?_
      · exact List.subset_append_left _ _
      · split
        · exact grows_pure _ _
        · exact (ih v).imp (Innermost.mono (List.subset_append_right _ _))

/-- One step fills what its parts fill, and a declaration also the slot of its name. -/
theorem grows_step (hexec : ∀ c env, (exec c env).Grows (Innermost env c.writes)) (c : Code)
    (env : Env) : (c.step exec env).Grows (Innermost env c.writes) := by
  have part (c' : Code) (h : c'.writes ⊆ c.writes) :
      (exec c' env).Grows (Innermost env c.writes) :=
    (hexec c' env).imp (Innermost.mono h)
  cases c with
  | literal v => exact grows_pure _ v
  | name x => exact grows_lookup _ _ env
  | declare x c =>
      refine (part c (by simp [Code.writes])).bind fun v => ?_
      refine Grows.bind ((grows_assign x v env).imp ?_) fun _ => grows_pure _ _
      exact fun i y hy => ⟨hy.1, x, by simp [Code.writes], hy.2⟩
  | select p c a =>
      refine (part p (by simp [Code.writes])).bind fun v => ?_
      split
      · exact part c (by simp [Code.writes])
      · exact part a (by simp [Code.writes])
  | close params locals body => exact grows_close _ params locals _
  | sequence cs => exact grows_runStatements hexec .undefined cs env
  | enter locals body => exact grows_enterScope_bind _ hexec locals body env
  | returning c => exact (part c (by simp [Code.writes])).bind fun v => grows_mark _ v
  | apply f xs =>
      refine (part f (by simp [Code.writes])).bind fun g => ?_
      refine Grows.bind ((grows_runAll hexec xs env).imp (Innermost.mono ?_)) fun args => ?_
      · simp [Code.writes]
      · exact grows_call _ hexec g args

end Parts

theorem grows_run (depth : Nat) (c : Code) (env : Env) :
    (run depth c env).Grows (Innermost env c.writes) := by
  induction depth generalizing c env with
  | zero => exact grows_throw _ _
  | succ depth ih => exact grows_step ih c env

/-- A guarded computation ends like the computation, but for the fault of exhausted depth. -/
theorem Ends.guardDepth {β α : Type} {act : Eval β α} {m : Memory β}
    {returned : α → Memory β → Prop} {failed : Fault → Memory β → Prop}
    (h : act.Ends m returned failed) (limit : Nat)
    (deep : ∀ m', failed (.mishap .stack) m' → failed (.tooDeep limit) m') :
    (guardDepth limit act).Ends m returned failed := by
  unfold Ends ConstLang.guardDepth at *
  cases hr : act m with
  | ok a m' => simpa [hr] using h
  | error e m' =>
      by_cases he : e = .mishap .stack
      · subst he
        exact deep m' (by simpa [hr] using h)
      · simpa [hr, he] using h

theorem grows_guardDepth {β α : Type} {may : Nat → Value → Prop} {act : Eval β α}
    (h : act.Grows may) (limit : Nat) : (guardDepth limit act).Grows may :=
  fun m => (h m).guardDepth limit fun _ => id

theorem grows_applyFunction (may : Nat → Value → Prop) (depth : Nat) (f : Value)
    (args : List Value) : (applyFunction depth f args).Grows may :=
  grows_call may (grows_run depth) f args

theorem grows_evaluate (depth : Nat) (node : Value) (env : Env) :
    (evaluate depth node env).Grows fun i _ => env.head? = some i := by
  refine (grows_ofExcept _ _).bind fun c => (grows_run depth c env).imp ?_
  exact fun _ _ hx => hx.1

/-- The code of a block declares nothing outside the block. -/
theorem writes_of_analyze_block {body : Value} {c : Code}
    (h : (Value.node (.block body)).analyze = .ok c) : c.writes = [] := by
  simp only [Value.analyze, Node.analyze] at h
  cases hl : body.localNames with
  | error e => simp [hl, bind, Except.bind] at h
  | ok locals =>
      cases hb : body.analyze with
      | error e => simp [hl, hb, bind, Except.bind] at h
      | ok code =>
          simp only [hl, hb, bind, Except.bind, pure, Except.pure, Except.ok.injEq] at h
          rw [← h, Code.writes]

theorem grows_runProgram (may : Nat → Value → Prop) (limit : Nat) (program : Value) (env : Env) :
    (runProgram limit program env).Grows may := by
  refine Grows.bind (grows_guardDepth ?_ limit) fun v => ?_
  · intro m
    simp only [evaluate, ends_bind, ends_ofExcept]
    split
    · rename_i c analyzed
      have none := writes_of_analyze_block analyzed
      refine ((grows_run limit c env).imp ?_) m
      rintro i x ⟨-, y, hy, -⟩
      simp [none] at hy
    · exact .refl may m
  · split
    · exact grows_throw may _
    · exact grows_pure may _

end Eval

/-- Of the frames that were there, at most the innermost one of an environment has changed, and in
it only unassigned slots, which have got values. -/
def Memory.FilledAt {β : Type} (env : Env) (m m' : Memory β) : Prop :=
  ∀ (i : Nat) (f : Frame), m.frames[i]? = some f →
    ∃ f' : Frame, m'.frames[i]? = some f' ∧
      if env.head? = some i then f.Fills (fun _ => True) f' else f' = f

/-- A program and a call leave every frame as it was, and a tree evaluated in an environment fills
at most slots of the innermost frame, whether they return or fail. -/
theorem writes_stay_innermost (depth : Nat) (m : Memory Code) :
    (∀ program env,
      m.frames.toList <+: ((runProgram depth program env).after m).frames.toList) ∧
    (∀ f args, m.frames.toList <+: ((applyFunction depth f args).after m).frames.toList) ∧
    ∀ node env, m.FilledAt env ((evaluate depth node env).after m) := by
  refine ⟨?_, ?_, ?_⟩
  · intro program env
    have grown := Eval.ends_after (Eval.grows_runProgram (fun _ _ => False) depth program env m)
    exact grown.frames_prefix fun _ _ _ => id
  · intro f args
    have grown := Eval.ends_after (Eval.grows_applyFunction (fun _ _ => False) depth f args m)
    exact grown.frames_prefix fun _ _ _ => id
  · intro node env i f hf
    have grown := Eval.ends_after (Eval.grows_evaluate depth node env m)
    obtain ⟨f', hf', fills⟩ := grown.frames i f hf
    refine ⟨f', hf', ?_⟩
    split
    · exact fills.imp fun _ _ => trivial
    · rename_i other
      exact fills.eq_of_closed fun _ _ _ => other

end ConstLang
