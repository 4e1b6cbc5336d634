import Mathlib.Logic.Relation
import ConstLang.Interpreter
import ConstLang.Proofs.Isolation

/-!
Moments of a run. At a moment, code is about to run or a function is about to be called, with
some depth left and with memory as it then is. Running code starts runs of its parts, an
application starts a call, and the call of a function starts the run of its body; what frames
and closures there are changes only between a moment and the next, or its end.

What a moment comes to is what the one it starts comes to, carried on, so a fault inside a run
is the fault of the run. And a run depends on nothing but the moments that it reaches.
-/

namespace ConstLang

/-- What is about to be done. -/
inductive Task
  | run (code : Code) (env : Env)
  | call (function : Value) (args : List Value)

structure Moment where
  depth : Nat
  task : Task
  memory : Memory Code

namespace Moment

def act (a : Moment) : Eval Code Value :=
  match a.task with
  | .run code env => ConstLang.run a.depth code env
  | .call f args => applyFunction a.depth f args

/-- What the moment comes to. -/
def ending (a : Moment) : EStateM.Result Fault (Memory Code) Value := a.act a.memory

/-- The memory that is left in the end, whether by a return or by a failure. -/
def left (a : Moment) : Memory Code := a.act.after a.memory

/-- One moment starts another. Statements and operands start in the memory that those before them
left, the statements only if none of these yielded a marker. -/
inductive Starts : Moment → Moment → Prop
  | value {d x c env m} : Starts ⟨d + 1, .run (.declare x c) env, m⟩ ⟨d, .run c env, m⟩
  | predicate {d p c a env m} :
      Starts ⟨d + 1, .run (.select p c a) env, m⟩ ⟨d, .run p env, m⟩
  | branch {d p c a env m v n} (decided : ConstLang.run d p env m = .ok v n) :
      Starts ⟨d + 1, .run (.select p c a) env, m⟩ ⟨d, .run (if v.isTrue then c else a) env, n⟩
  | statement {d cs before c after env m v n} (split : cs = before ++ c :: after)
      (ran : runStatements (ConstLang.run d) .undefined before env m = .ok v n)
      (unmarked : v.isMarker = false) :
      Starts ⟨d + 1, .run (.sequence cs) env, m⟩ ⟨d, .run c env, n⟩
  | block {d locals body env m inner n} (entered : enterScope locals env m = .ok inner n) :
      Starts ⟨d + 1, .run (.enter locals body) env, m⟩ ⟨d, .run body inner, n⟩
  | returned {d c env m} : Starts ⟨d + 1, .run (.returning c) env, m⟩ ⟨d, .run c env, m⟩
  | operator {d f xs env m} : Starts ⟨d + 1, .run (.apply f xs) env, m⟩ ⟨d, .run f env, m⟩
  | operand {d f xs before x after env m g n vs k} (split : xs = before ++ x :: after)
      (operator : ConstLang.run d f env m = .ok g n)
      (ran : runAll (ConstLang.run d) before env n = .ok vs k) :
      Starts ⟨d + 1, .run (.apply f xs) env, m⟩ ⟨d, .run x env, k⟩
  | call {d f xs env m g n args k} (operator : ConstLang.run d f env m = .ok g n)
      (operands : runAll (ConstLang.run d) xs env n = .ok args k) :
      Starts ⟨d + 1, .run (.apply f xs) env, m⟩ ⟨d, .call g args, k⟩
  | body {d id params locals args m code inner n}
      (entered : enterCall (.function id params locals) id params locals args m =
        .ok (code, inner) n) :
      Starts ⟨d, .call (.function id params locals) args, m⟩ ⟨d, .run code inner, n⟩

/-- The moments of the run that begins with a moment. -/
abbrev Reaches : Moment → Moment → Prop := Relation.ReflTransGen Starts

end Moment

/-- The moments of the evaluation of a tree by an interpreter. -/
def Interpreter.Visits (i : Interpreter) (node : Value) (env : Env) (m : Memory Code)
    (a : Moment) : Prop :=
  ∃ limit code, limitInForce i.maxDepth = .ok limit ∧ node.analyze = .ok code ∧
    Moment.Reaches ⟨limit, .run code (if env.isEmpty then i.globalEnv else env), m⟩ a

section Lists

variable {exec exec' : Code → Env → Eval Code Value} {env : Env} {m n : Memory Code}

/-- Statements go on from where those before them have left off. -/
theorem runStatements_append {before : List Code} {v w : Value} (rest : List Code)
    (ran : runStatements exec v before env m = .ok w n) (unmarked : w.isMarker = false) :
    runStatements exec v (before ++ rest) env m = runStatements exec w rest env n := by
  induction before generalizing v m with
  | nil =>
      cases ran
      rfl
  | cons c before ih =>
      obtain ⟨u, k, first, ran⟩ := Eval.bind_eq_ok.mp ran
      rw [List.cons_append, runStatements, Eval.bind_of_ok first]
      by_cases marked : u.isMarker = true
      · rw [if_pos marked] at ran
        cases ran
        rw [marked] at unmarked
        cases unmarked
      · rw [if_neg marked] at ran ⊢
        exact ih ran

theorem runAll_append {before : List Code} {vs : List Value} (rest : List Code)
    (ran : runAll exec before env m = .ok vs n) :
    runAll exec (before ++ rest) env m =
      (runAll exec rest env >>= fun ws => pure (vs ++ ws)) n := by
  induction before generalizing vs m with
  | nil =>
      cases ran
      exact (congrFun (bind_pure (runAll exec rest env)) n).symm
  | cons c before ih =>
      obtain ⟨v, k, first, ran⟩ := Eval.bind_eq_ok.mp ran
      obtain ⟨us, l, others, ran⟩ := Eval.bind_eq_ok.mp ran
      cases ran
      rw [List.cons_append, runAll, Eval.bind_of_ok first]
      change (runAll exec (before ++ rest) env >>= fun ws => pure (v :: ws)) k = _
      simp only [bind, EStateM.bind, ih others]
      cases runAll exec rest env n <;> rfl

/-- With the first operands evaluated, the next one is due. -/
theorem runAll_bind_of_before {before after : List Code} {c : Code} {vs : List Value}
    (next : List Value → Eval Code Value) (ran : runAll exec before env m = .ok vs n) :
    (runAll exec (before ++ c :: after) env >>= next) m =
      (exec c env >>= fun v => runAll exec after env >>= fun ws => next (vs ++ v :: ws)) n := by
  simp only [bind, EStateM.bind, runAll_append _ ran, runAll]
  cases exec c env n with
  | error e k => rfl
  | ok v k =>
      cases ended : runAll exec after env k <;> simp [pure, EStateM.pure, ended]

theorem runStatements_congr {cs : List Code} {v : Value} (unmarked : v.isMarker = false)
    (same : ∀ before c after w n, cs = before ++ c :: after →
      runStatements exec' v before env m = .ok w n → w.isMarker = false →
      exec c env n = exec' c env n) :
    runStatements exec v cs env m = runStatements exec' v cs env m := by
  induction cs generalizing v m with
  | nil => rfl
  | cons c cs ih =>
      have first : exec c env m = exec' c env m := same [] c cs v m rfl rfl unmarked
      rw [runStatements, runStatements]
      cases ran : exec' c env m with
      | error e k => rw [Eval.bind_of_error (first.trans ran), Eval.bind_of_error ran]
      | ok w k =>
          rw [Eval.bind_of_ok (first.trans ran), Eval.bind_of_ok ran]
          by_cases marked : w.isMarker = true
          · rw [if_pos marked, if_pos marked]
          · rw [if_neg marked, if_neg marked]
            refine ih (by simpa using marked) ?_
            intro before d after u l split others unmarked
            refine same (c :: before) d after u l (by rw [split, List.cons_append]) ?_ unmarked
            rw [runStatements, Eval.bind_of_ok ran, if_neg marked]
            exact others

theorem runAll_congr {cs : List Code}
    (same : ∀ before c after vs n, cs = before ++ c :: after →
      runAll exec' before env m = .ok vs n → exec c env n = exec' c env n) :
    runAll exec cs env m = runAll exec' cs env m := by
  induction cs generalizing m with
  | nil => rfl
  | cons c cs ih =>
      have first : exec c env m = exec' c env m := same [] c cs [] m rfl rfl
      rw [runAll, runAll]
      cases ran : exec' c env m with
      | error e k => rw [Eval.bind_of_error (first.trans ran), Eval.bind_of_error ran]
      | ok v k =>
          rw [Eval.bind_of_ok (first.trans ran), Eval.bind_of_ok ran]
          have rest : runAll exec cs env k = runAll exec' cs env k := by
            refine ih ?_
            intro before d after vs l split others
            refine same (c :: before) d after (v :: vs) l (by rw [split, List.cons_append]) ?_
            rw [runAll, Eval.bind_of_ok ran, Eval.bind_of_ok others]
            rfl
          simp only [bind, EStateM.bind, rest]

end Lists

namespace Eval

variable (d : Nat)

theorem grows_run_any (c : Code) (env : Env) : (run d c env).Grows fun _ _ => True :=
  (grows_run d c env).any

theorem grows_runAll_any (cs : List Code) (env : Env) :
    (runAll (run d) cs env).Grows fun _ _ => True :=
  (grows_runAll (grows_run d) cs env).any

theorem grows_runStatements_any (v : Value) (cs : List Code) (env : Env) :
    (runStatements (run d) v cs env).Grows fun _ _ => True :=
  (grows_runStatements (grows_run d) v cs env).any

end Eval

namespace Moment

variable {a b : Moment}

/-- What is left to do when a part of an evaluation has ended. It only makes memory grow. -/
def Carries (next : Value → Eval Code Value) : Prop := ∀ v, (next v).Grows fun _ _ => True

theorem grows_act (a : Moment) : a.act.Grows fun _ _ => True := by
  obtain ⟨depth, task, m⟩ := a
  cases task with
  | run code env => exact Eval.grows_run_any depth code env
  | call f args => exact Eval.grows_applyFunction _ depth f args

/-- What a moment comes to is what the moment that it starts comes to, carried on. -/
theorem Starts.continues (h : a.Starts b) :
    ∃ next, Carries next ∧ a.ending = (b.act >>= next) b.memory := by
  have nothing : Carries pure := fun v => Eval.grows_pure _ v
  cases h with
  | @value d x c env m =>
      refine ⟨fun v => do Eval.assign x v env; return .undefined, ?_, rfl⟩
      intro v
      exact (Eval.grows_assign x v env).any.bind fun _ => nothing _
  | @predicate d p c a env m =>
      refine ⟨fun v => if v.isTrue then ConstLang.run d c env else ConstLang.run d a env, ?_, rfl⟩
      intro v
      beta_reduce
      split
      · exact Eval.grows_run_any d c env
      · exact Eval.grows_run_any d a env
  | @branch d p c a env m v n decided =>
      refine ⟨pure, nothing, ?_⟩
      rw [bind_pure]
      change (ConstLang.run d p env >>= fun v =>
        if v.isTrue then ConstLang.run d c env else ConstLang.run d a env) m = _
      rw [Eval.bind_of_ok decided]
      cases v.isTrue <;> rfl
  | @statement d cs before c after env m v n split ran unmarked =>
      refine ⟨fun w => if w.isMarker then pure w else
        runStatements (ConstLang.run d) w after env, ?_, ?_⟩
      · intro w
        beta_reduce
        by_cases marked : w.isMarker = true
        · rw [if_pos marked]
          exact nothing w
        · rw [if_neg marked]
          exact Eval.grows_runStatements_any d w after env
      · change runStatements (ConstLang.run d) .undefined cs env m = _
        rw [split, runStatements_append _ ran unmarked]
        rfl
  | @block d locals body env m inner n entered =>
      refine ⟨pure, nothing, ?_⟩
      rw [bind_pure]
      exact Eval.bind_of_ok entered (ConstLang.run d body)
  | @returned d c env m => exact ⟨mark, fun v => Eval.grows_mark _ v, rfl⟩
  | @operator d f xs env m =>
      refine ⟨fun g => runAll (ConstLang.run d) xs env >>= ConstLang.call (ConstLang.run d) g, ?_,
        rfl⟩
      intro g
      refine (Eval.grows_runAll_any d xs env).bind ?_
      intro args
      exact Eval.grows_applyFunction _ d g args
  | @operand d f xs before x after env m g n vs k split operator ran =>
      refine ⟨fun v => do
        let ws ← runAll (ConstLang.run d) after env
        ConstLang.call (ConstLang.run d) g (vs ++ v :: ws), ?_, ?_⟩
      · intro v
        refine (Eval.grows_runAll_any d after env).bind ?_
        intro ws
        exact Eval.grows_applyFunction _ d g (vs ++ v :: ws)
      · change (ConstLang.run d f env >>= fun g =>
          runAll (ConstLang.run d) xs env >>= ConstLang.call (ConstLang.run d) g) m = _
        rw [Eval.bind_of_ok operator, split]
        exact runAll_bind_of_before _ ran
  | @call d f xs env m g n args k operator operands =>
      refine ⟨pure, nothing, ?_⟩
      rw [bind_pure]
      change (ConstLang.run d f env >>= fun g =>
        runAll (ConstLang.run d) xs env >>= ConstLang.call (ConstLang.run d) g) m = _
      rw [Eval.bind_of_ok operator, Eval.bind_of_ok operands]
      rfl
  | @body d id params locals args m code inner n entered =>
      exact ⟨fun v => pure v.returned, fun v => nothing _, Eval.bind_of_ok entered _⟩

/-- Memory only grows from a moment to one that it starts. -/
theorem Starts.later (h : a.Starts b) : a.memory.Later b.memory := by
  cases h with
  | value | predicate | returned | operator => exact .refl _ _
  | @branch d p c a env m v n decided => exact (Eval.grows_run_any d p env m).of_ok decided
  | @statement d cs before c after env m v n split ran unmarked =>
      exact (Eval.grows_runStatements_any d .undefined before env m).of_ok ran
  | @block d locals body env m inner n entered =>
      have entering : (enterScope locals env : Eval Code Env).Grows fun _ _ => True :=
        (Eval.grows_ofMishap _ _).bind fun frame => Eval.grows_push _ frame env
      exact (entering m).of_ok entered
  | @operand d f xs before x after env m g n vs k split operator ran =>
      have first := (Eval.grows_run_any d f env m).of_ok operator
      exact Memory.Later.trans first ((Eval.grows_runAll_any d before env n).of_ok ran)
  | @call d f xs env m g n args k operator operands =>
      have first := (Eval.grows_run_any d f env m).of_ok operator
      exact Memory.Later.trans first ((Eval.grows_runAll_any d xs env n).of_ok operands)
  | @body d id params locals args m code inner n entered =>
      have entering : (enterCall (.function id params locals) id params locals args).Ends m
          (fun _ => m.Later) (fun _ => m.Later) :=
        Eval.ends_enterCall (fun _ => .refl _ m) (fun _ => .refl _ m) (fun _ => .refl _ m)
          fun c frame _ _ _ => m.grows_push _ frame c.env
      exact entering.of_ok entered

theorem later_left (a : Moment) : a.memory.Later a.left := Eval.ends_after (grows_act a a.memory)

/-- And it only grows from the end of a moment to the end of the one that started it. -/
theorem Starts.left_later (h : a.Starts b) : b.left.Later a.left := by
  obtain ⟨next, carries, carried⟩ := h.continues
  have whole : a.left = (b.act >>= next).after b.memory := by
    unfold left Eval.after
    rw [← carried]
    rfl
  rw [whole, left]
  unfold Eval.after
  cases ended : b.act b.memory with
  | error e n =>
      rw [Eval.bind_of_error ended]
      exact .refl _ n
  | ok v n =>
      rw [Eval.bind_of_ok ended]
      exact Eval.ends_after (carries v n)

/-- The moments of a run are in order: memory grows from the beginning of the run to the beginning
of each of them, to its end, and to the end of the run. -/
theorem Reaches.later (h : a.Reaches b) : a.memory.Later b.memory ∧ b.left.Later a.left := by
  induction h with
  | refl => exact ⟨.refl _ _, .refl _ _⟩
  | tail _ last ih => exact ⟨ih.1.trans last.later, last.left_later.trans ih.2⟩

/-- A fault that a part fails with is the fault of the whole. -/
theorem Starts.fails (h : a.Starts b) {e : Fault} {n : Memory Code}
    (failed : b.ending = .error e n) : a.ending = .error e n := by
  obtain ⟨next, -, carried⟩ := h.continues
  rw [carried]
  exact Eval.bind_of_error failed next

/-- No fault is caught on the way: one that is met at any moment is the fault of the run. -/
theorem Reaches.fails (h : a.Reaches b) {e : Fault} {n : Memory Code}
    (failed : b.ending = .error e n) : a.ending = .error e n := by
  induction h using Relation.ReflTransGen.head_induction_on with
  | refl => exact failed
  | head first _ ih => exact first.fails ih

section Locality

variable {d : Nat} {code : Code} {env : Env} {m : Memory Code}

theorem call_congr {exec : Code → Env → Eval Code Value} {f : Value} {args : List Value}
    (same : ∀ c inner n, Starts ⟨d, .call f args, m⟩ ⟨d, .run c inner, n⟩ →
      exec c inner n = ConstLang.run d c inner n) :
    ConstLang.call exec f args m = ConstLang.call (ConstLang.run d) f args m := by
  cases f with
  | function id params locals =>
      simp only [ConstLang.call]
      cases entered : enterCall (.function id params locals) id params locals args m with
      | error e k => rw [Eval.bind_of_error entered, Eval.bind_of_error entered]
      | ok body k =>
          rw [Eval.bind_of_ok entered, Eval.bind_of_ok entered]
          have ran := same body.1 body.2 k (.body entered)
          simp only [bind, EStateM.bind, ran]
  | _ => rfl

/-- A step of evaluation depends on the runs of parts only where it starts them. -/
theorem step_congr {exec : Code → Env → Eval Code Value}
    (parts : ∀ c inner n, Starts ⟨d + 1, .run code env, m⟩ ⟨d, .run c inner, n⟩ →
      exec c inner n = ConstLang.run d c inner n)
    (calls : ∀ f args n, Starts ⟨d + 1, .run code env, m⟩ ⟨d, .call f args, n⟩ →
      ConstLang.call exec f args n = ConstLang.call (ConstLang.run d) f args n) :
    code.step exec env m = ConstLang.run (d + 1) code env m := by
  rw [run_succ]
  cases code with
  | literal _ | name _ | close _ _ _ => rfl
  | declare x c =>
      simp only [Code.step, bind, EStateM.bind, parts c env m .value]
  | select p c a =>
      simp only [Code.step]
      cases decided : ConstLang.run d p env m with
      | error e n =>
          rw [Eval.bind_of_error decided,
            Eval.bind_of_error ((parts p env m .predicate).trans decided)]
      | ok v n =>
          rw [Eval.bind_of_ok decided, Eval.bind_of_ok ((parts p env m .predicate).trans decided)]
          have chosen := parts _ env n (.branch decided)
          by_cases truth : v.isTrue = true
          · rw [if_pos truth] at chosen ⊢
            rw [if_pos truth]
            exact chosen
          · rw [if_neg truth] at chosen ⊢
            rw [if_neg truth]
            exact chosen
  | sequence cs =>
      refine runStatements_congr rfl ?_
      intro before c after w n split ran unmarked
      exact parts c env n (.statement split ran unmarked)
  | enter locals body =>
      simp only [Code.step]
      cases entered : enterScope locals env m with
      | error e n => rw [Eval.bind_of_error entered, Eval.bind_of_error entered]
      | ok inner n =>
          rw [Eval.bind_of_ok entered, Eval.bind_of_ok entered]
          exact parts body inner n (.block entered)
  | returning c =>
      simp only [Code.step, bind, EStateM.bind, parts c env m .returned]
  | apply f xs =>
      simp only [Code.step]
      cases operator : ConstLang.run d f env m with
      | error e n =>
          rw [Eval.bind_of_error operator,
            Eval.bind_of_error ((parts f env m .operator).trans operator)]
      | ok g n =>
          rw [Eval.bind_of_ok operator,
            Eval.bind_of_ok ((parts f env m .operator).trans operator)]
          have operands : runAll exec xs env n = runAll (ConstLang.run d) xs env n := by
            refine runAll_congr ?_
            intro before x after vs k split ran
            exact parts x env k (.operand split operator ran)
          cases ran : runAll (ConstLang.run d) xs env n with
          | error e k => rw [Eval.bind_of_error (operands.trans ran), Eval.bind_of_error ran]
          | ok args k =>
              rw [Eval.bind_of_ok (operands.trans ran), Eval.bind_of_ok ran]
              exact calls g args k (.call operator ran)

/-- A run depends on nothing but the moments that it reaches: whatever evaluates code as `run` does
at each of them comes to the same. -/
theorem run_eq_of_reaches {exec : Nat → Code → Env → Eval Code Value}
    (exhausted : ∀ c inner n, Reaches ⟨d, .run code env, m⟩ ⟨0, .run c inner, n⟩ →
      exec 0 c inner n = .error (.mishap .stack) n)
    (steps : ∀ k c inner n, Reaches ⟨d, .run code env, m⟩ ⟨k + 1, .run c inner, n⟩ →
      exec (k + 1) c inner n = c.step (exec k) inner n) :
    exec d code env m = ConstLang.run d code env m := by
  induction d generalizing code env m with
  | zero => exact exhausted code env m .refl
  | succ d ih =>
      have below {c : Code} {inner : Env} {n : Memory Code}
          (h : Reaches ⟨d + 1, .run code env, m⟩ ⟨d, .run c inner, n⟩) :
          exec d c inner n = ConstLang.run d c inner n := by
        refine ih ?_ ?_
        · intro c' inner' n' reached
          exact exhausted c' inner' n' (h.trans reached)
        · intro k c' inner' n' reached
          exact steps k c' inner' n' (h.trans reached)
      rw [steps d code env m .refl]
      refine step_congr ?_ ?_
      · intro c inner n started
        exact below (.single started)
      · intro f args n started
        refine call_congr ?_
        intro c inner k entered
        exact below (.tail (.single started) entered)

end Locality
end Moment
end ConstLang
