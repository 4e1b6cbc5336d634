import ConstLang.Proofs.Outcome
import ConstLang.Run

/-!
Runs that are cut short. A run with less depth does what a run with more depth does, up to the
place where its depth is used up; if it does not get there, it comes to the same end. What is
displayed is never taken back, so what a run that is cut short has displayed is the beginning of
what the other one displays.
-/

namespace ConstLang

/-- What one memory displays comes first in what another one displays. -/
def Memory.Precedes {β : Type} (m n : Memory β) : Prop := m.output.toList <+: n.output.toList

theorem Memory.Precedes.refl {β : Type} (m : Memory β) : m.Precedes m := List.prefix_refl _

theorem Memory.Precedes.trans {β : Type} {m n k : Memory β} (h : m.Precedes n)
    (h' : n.Precedes k) : m.Precedes k :=
  List.IsPrefix.trans h h'

namespace Eval

variable {α γ : Type}

/-- A computation that takes nothing back of what is displayed. -/
def Extends (act : Eval Code α) : Prop :=
  ∀ m, act.Ends m (fun _ => m.Precedes) (fun _ => m.Precedes)

theorem extends_pure (a : α) : (pure a : Eval Code α).Extends := fun m => .refl m

theorem extends_throw (e : Fault) : (throw e : Eval Code α).Extends := fun m => .refl m

theorem Extends.bind {act : Eval Code γ} {next : γ → Eval Code α} (h : act.Extends)
    (hn : ∀ c, (next c).Extends) : (act >>= next).Extends := by
  intro m
  rw [ends_bind]
  refine (h m).imp ?_ (fun _ _ before => before)
  intro c n before
  exact (hn c n).imp (fun _ _ => before.trans) (fun _ _ => before.trans)

theorem extends_ofExcept (r : Except Fault α) : (ofExcept r : Eval Code α).Extends := by
  cases r with
  | ok a => exact extends_pure a
  | error e => exact extends_throw e

theorem extends_ofMishap (r : Except Mishap α) : (ofMishap r : Eval Code α).Extends := by
  cases r with
  | ok a => exact extends_pure a
  | error e => exact extends_throw (.mishap e)

theorem extends_lookup (x : Value) (env : Env) : (lookup x env).Extends := by
  intro m
  rw [Ends, lookup_apply]
  cases m.lookup x env <;> exact .refl m

theorem extends_assign (x v : Value) (env : Env) : (assign x v env).Extends := by
  intro m
  rw [Ends, assign_apply]
  cases m.target x env <;> exact .refl m

theorem extends_fresh : (fresh : Eval Code Nat).Extends := fun m => .refl m

theorem extends_push (f : Frame) (env : Env) : (push f env).Extends := fun m => .refl m

theorem extends_close (params locals : List Value) (c : Closure Code) :
    (close params locals c).Extends :=
  fun m => .refl m

theorem extends_write (text : String) : (write text).Extends := by
  intro m
  exact ⟨[text], by simp [Memory.write]⟩

theorem extends_mark (v : Value) : (mark v).Extends := by
  unfold mark
  split
  · exact extends_pure _
  · exact extends_fresh.bind fun id => extends_pure _

theorem extends_performOperation (op : Operation) (args : List Value) :
    (performOperation op args).Extends := by
  refine extends_fresh.bind fun id => (extends_ofExcept _).bind fun effect => ?_
  cases effect.written with
  | none => exact (extends_pure ()).bind fun _ => extends_pure _
  | some text => exact (extends_write text).bind fun _ => extends_pure _

theorem extends_enterScope (locals : List Value) (env : Env) :
    (enterScope locals env).Extends :=
  (extends_ofMishap _).bind fun frame => extends_push frame env

theorem extends_enterCall (f : Value) (id : Nat) (params locals args : List Value) :
    (enterCall f id params locals args : Eval Code (Code × Env)).Extends := by
  intro m
  refine ends_enterCall (fun _ => .refl m) (fun _ => .refl m) (fun _ => .refl m) ?_
  intro c frame _ _ _
  exact .refl m

/-- The first computation does what the second one does, or else its depth is used up at a time
when it has displayed no more than the beginning of what the second one displays. -/
structure Cuts (act act' : Eval Code α) : Prop where
  output : act'.Extends
  cut : ∀ m, act m = act' m ∨
    ∃ n, act m = .error (.mishap .stack) n ∧ n.Precedes (act'.after m)

theorem Extends.cuts {act : Eval Code α} (h : act.Extends) : act.Cuts act :=
  ⟨h, fun _ => .inl rfl⟩

theorem Extends.after {act : Eval Code α} (h : act.Extends) (m : Memory Code) :
    m.Precedes (act.after m) :=
  ends_after (h m)

theorem after_bind_of_ok {act : Eval Code γ} {m n : Memory Code} {c : γ} (h : act m = .ok c n)
    (next : γ → Eval Code α) : (act >>= next).after m = (next c).after n := by
  simp only [Eval.after, bind_of_ok h]

/-- What follows a computation takes nothing back of what it displayed. -/
theorem Extends.after_bind {next : γ → Eval Code α} (hn : ∀ c, (next c).Extends)
    (act : Eval Code γ) (m : Memory Code) : (act.after m).Precedes ((act >>= next).after m) := by
  cases ended : act m with
  | ok c n =>
      rw [after_bind_of_ok ended]
      simpa [Eval.after, ended] using (hn c).after n
  | error e n =>
      simp only [Eval.after, bind_of_error ended, ended]
      exact .refl n

theorem Cuts.bind {act act' : Eval Code γ} {next next' : γ → Eval Code α} (h : act.Cuts act')
    (hn : ∀ c, (next c).Cuts (next' c)) : (act >>= next).Cuts (act' >>= next') := by
  refine ⟨h.output.bind fun c => (hn c).output, ?_⟩
  intro m
  cases h.cut m with
  | inl same =>
      cases ended : act' m with
      | error e n =>
          exact .inl (by rw [bind_of_error (same.trans ended), bind_of_error ended])
      | ok c n =>
          rw [bind_of_ok (same.trans ended), bind_of_ok ended, after_bind_of_ok ended]
          exact (hn c).cut n
  | inr stopped =>
      obtain ⟨n, stopped, before⟩ := stopped
      refine .inr ⟨n, bind_of_error stopped next, before.trans ?_⟩
      exact Extends.after_bind (fun c => (hn c).output) act' m

section Parts

variable {exec exec' : Code → Env → Eval Code Value}
  (hexec : ∀ c env, (exec c env).Cuts (exec' c env))

include hexec

theorem cuts_runAll (cs : List Code) (env : Env) :
    (runAll exec cs env).Cuts (runAll exec' cs env) := by
  induction cs with
  | nil => exact (extends_pure []).cuts
  | cons c cs ih => exact (hexec c env).bind fun v => ih.bind fun vs => (extends_pure _).cuts

theorem cuts_runStatements (v : Value) (cs : List Code) (env : Env) :
    (runStatements exec v cs env).Cuts (runStatements exec' v cs env) := by
  induction cs generalizing v with
  | nil => exact (extends_pure v).cuts
  | cons c cs ih =>
      refine (hexec c env).bind fun w => ?_
      by_cases marked : w.isMarker = true
      · rw [if_pos marked, if_pos marked]
        exact (extends_pure w).cuts
      · rw [if_neg marked, if_neg marked]
        exact ih w

theorem cuts_call (f : Value) (args : List Value) :
    (call exec f args).Cuts (call exec' f args) := by
  cases f with
  | primitive _ _ op => exact (extends_performOperation op args).cuts
  | function id params locals =>
      refine (extends_enterCall _ id params locals args).cuts.bind fun entered => ?_
      exact (hexec entered.1 entered.2).bind fun v => (extends_pure _).cuts
  | _ => exact (extends_throw _).cuts

theorem cuts_step (c : Code) (env : Env) : (c.step exec env).Cuts (c.step exec' env) := by
  cases c with
  | literal v => exact (extends_pure v).cuts
  | name x => exact (extends_lookup (.text x) env).cuts
  | declare x c =>
      refine (hexec c env).bind fun v => ?_
      exact ((extends_assign x v env).bind fun _ => extends_pure _).cuts
  | select p c a =>
      refine (hexec p env).bind fun v => ?_
      by_cases truth : v.isTrue = true
      · rw [if_pos truth, if_pos truth]
        exact hexec c env
      · rw [if_neg truth, if_neg truth]
        exact hexec a env
  | close params locals body => exact (extends_close params locals ⟨body, env⟩).cuts
  | sequence cs => exact cuts_runStatements hexec .undefined cs env
  | enter locals body =>
      exact (extends_enterScope locals env).cuts.bind fun inner => hexec body inner
  | returning c => exact (hexec c env).bind fun v => (extends_mark v).cuts
  | apply f xs =>
      refine (hexec f env).bind fun g => (cuts_runAll hexec xs env).bind fun args => ?_
      exact cuts_call hexec g args

end Parts

theorem extends_run (depth : Nat) (c : Code) (env : Env) : (run depth c env).Extends := by
  induction depth generalizing c env with
  | zero => exact extends_throw _
  | succ depth ih => exact (cuts_step (fun c env => (ih c env).cuts) c env).output

/-- A run with less depth is cut short, or comes to the same end. -/
theorem cuts_run {low high : Nat} (h : low ≤ high) (c : Code) (env : Env) :
    (run low c env).Cuts (run high c env) := by
  induction low generalizing high c env with
  | zero =>
      refine ⟨extends_run high c env, ?_⟩
      intro m
      exact .inr ⟨m, rfl, (extends_run high c env).after m⟩
  | succ low ih =>
      cases high with
      | zero => omega
      | succ high =>
          refine cuts_step ?_ c env
          intro c env
          exact ih (by omega) c env

theorem cuts_evaluate {low high : Nat} (h : low ≤ high) (node : Value) (env : Env) :
    (evaluate low node env).Cuts (evaluate high node env) :=
  (extends_ofExcept _).cuts.bind fun c => cuts_run h c env

end Eval
end ConstLang
