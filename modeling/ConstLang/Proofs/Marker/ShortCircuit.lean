import ConstLang.Proofs.Equivalence
import ConstLang.Proofs.Tree.Declaration

/-!
Statements that are certain to return. Such a statement fails or yields a marker, however deep
the return stands in it, and so ends the sequence that it stands in. What follows it there does
not count, but for the names that it declares: these belong to the scope whether they are
reached or not.
-/

namespace ConstLang

open Eval Code

/-- Every way through the statement meets a return. -/
inductive Certain : Value → Prop
  | returning (e : Value) : Certain (.node (.returning e))
  | block {b : Value} : Certain b → Certain (.node (.block b))
  | sequence {ss s : Value} : s ∈ ss.items → Certain s → Certain (.node (.sequence ss))
  | conditional {p c a : Value} : Certain c → Certain a → Certain (.node (.conditional p c a))

/-- A computation that fails or yields a marker. -/
def Eval.Marks (act : Eval Code Value) : Prop :=
  ∀ m, act.Ends m (fun v _ => v.isMarker = true) fun _ _ => True

namespace Eval.Marks

variable {exec : Code → Env → Eval Code Value} {env : Env}

theorem after {α : Type} (act : Eval Code α) {next : α → Eval Code Value}
    (h : ∀ a, (next a).Marks) : (act >>= next).Marks := by
  intro m
  rw [ends_bind, Ends]
  cases act m with
  | ok a n => exact h a n
  | error e n => trivial

/-- One statement that marks is enough. -/
theorem runStatements {cs : List Code} {c : Code} (h : (exec c env).Marks) (mem : c ∈ cs)
    (v : Value) : (runStatements exec v cs env).Marks := by
  induction cs generalizing v with
  | nil => cases mem
  | cons d cs ih =>
      rcases List.mem_cons.mp mem with rfl | mem
      · intro m
        refine (h m).bind fun w n marked => ?_
        rw [if_pos marked]
        exact marked
      · refine after _ fun w => ?_
        by_cases marked : w.isMarker = true
        · rw [if_pos marked]
          exact fun m => marked
        · rw [if_neg marked]
          exact ih mem w

/-- Nothing runs after a statement that marks. -/
theorem runStatements_append {s : Code} (h : (exec s env).Marks) (xs zs : List Code) (v : Value) :
    ConstLang.runStatements exec v (xs ++ s :: zs) env =
      ConstLang.runStatements exec v (xs ++ [s]) env := by
  induction xs generalizing v with
  | nil =>
      funext m
      have marked := h m
      simp only [List.nil_append, ConstLang.runStatements]
      cases ended : exec s env m with
      | error e n => rw [bind_of_error ended, bind_of_error ended]
      | ok w n =>
          rw [Ends, ended] at marked
          rw [bind_of_ok ended, bind_of_ok ended, if_pos marked, if_pos marked]
  | cons x xs ih => simp only [List.cons_append, ConstLang.runStatements, ih]

end Eval.Marks

theorem marks_mark (v : Value) : (mark v).Marks := by
  intro m
  unfold mark
  split <;> rfl

namespace Code

/-- Every way through the code meets a return. -/
inductive Certain : Code → Prop
  | returning (c : Code) : Certain (.returning c)
  | enter {body : Code} (locals : List Value) : Certain body → Certain (.enter locals body)
  | sequence {cs : List Code} {c : Code} : c ∈ cs → Certain c → Certain (.sequence cs)
  | select {c a : Code} (p : Code) : Certain c → Certain a → Certain (.select p c a)

theorem Certain.ofStatements {cs : List Code} {c : Code} (mem : c ∈ cs) (h : c.Certain) :
    (Code.ofStatements cs).Certain := by
  match cs with
  | [d] =>
      obtain rfl := List.mem_singleton.mp mem
      exact h
  | _ :: _ :: _ => exact .sequence mem h

theorem Certain.marks {c : Code} (h : c.Certain) (depth : Nat) (env : Env) :
    (run depth c env).Marks := by
  induction h generalizing depth env with
  | returning c =>
      cases depth with
      | zero => exact fun _ => trivial
      | succ depth => exact .after _ marks_mark
  | enter locals _ ih =>
      cases depth with
      | zero => exact fun _ => trivial
      | succ depth => exact .after _ (ih depth)
  | sequence mem _ ih =>
      cases depth with
      | zero => exact fun _ => trivial
      | succ depth => exact (ih depth env).runStatements mem .undefined
  | select p _ _ ihc iha =>
      cases depth with
      | zero => exact fun _ => trivial
      | succ depth =>
          refine .after _ fun v => ?_
          by_cases truth : v.isTrue = true
          · rw [if_pos truth]
            exact ihc depth env
          · rw [if_neg truth]
            exact iha depth env

end Code

theorem Certain.code {v : Value} (h : Certain v) {c : Code} (analyzed : v.analyze = .ok c) :
    c.Certain := by
  induction h generalizing c with
  | returning e =>
      obtain ⟨c, -, rfl⟩ := Node.analyze_returning_eq_ok.mp analyzed
      exact .returning c
  | block _ ih =>
      obtain ⟨locals, body, -, hb, rfl⟩ := Node.analyze_block_eq_ok.mp analyzed
      exact .enter locals (ih hb)
  | sequence mem _ ih =>
      obtain ⟨vs, cs, iterated, each, rfl⟩ := Node.analyze_sequence_eq_ok.mp analyzed
      rw [Value.items_eq iterated] at mem
      obtain ⟨c, hc, analyzed⟩ := exists_code_of_mem each mem
      exact .ofStatements hc (ih analyzed)
  | conditional _ _ ihc iha =>
      obtain ⟨p, c, a, -, hc, ha, rfl⟩ := Node.analyze_conditional_eq_ok.mp analyzed
      exact .select p (ihc hc) (iha ha)

section Sequence

variable {xs zs zs' : List Value} {s : Value} (certain : Certain s)

include certain

/-- The statements up to the one that is certain to return do all the work. -/
theorem run_up_to_certain {c a : Code} {as : List Code}
    (analyzed : (Node.sequence (.tuple (xs ++ s :: zs))).analyze = .ok c)
    (hx : analyzeAll xs = .ok as) (ha : s.analyze = .ok a) (depth : Nat) (env : Env) :
    run (depth + levels (xs ++ s :: zs)) c env =
      runStatements (run depth) .undefined (as ++ [a]) env := by
  obtain ⟨cs, each, rfl⟩ := Node.analyze_statements_eq_ok.mp analyzed
  rw [levels_eq_of_length each.length_eq, run_ofStatements]
  obtain ⟨as', _, hx', hz, rfl⟩ := forall₂_append_left_iff.mp each
  obtain ⟨a', bs, ha', -, rfl⟩ := List.forall₂_cons_left_iff.mp hz
  cases (analyzeAll_eq_ok.mpr hx').symm.trans hx
  cases ha'.symm.trans ha
  exact ((certain.code ha).marks depth env).runStatements_append as bs .undefined

variable {c c' : Code} (analyzed : (Node.sequence (.tuple (xs ++ s :: zs))).analyze = .ok c)
  (analyzed' : (Node.sequence (.tuple (xs ++ s :: zs'))).analyze = .ok c')

include analyzed

theorem marks_of_certain (depth : Nat) (env : Env) : (run depth c env).Marks := by
  have mem : s ∈ (Value.tuple (xs ++ s :: zs)).items := by simp [Value.items, Value.iterate]
  exact ((Certain.sequence mem certain).code analyzed).marks depth env

include analyzed'

/-- What follows the statement does not count, but for the level of a sequence of one. -/
theorem run_eq_of_certain (depth : Nat) (env : Env) :
    run (depth + levels (xs ++ s :: zs)) c env = run (depth + levels (xs ++ s :: zs')) c' env := by
  obtain ⟨cs, each, -⟩ := Node.analyze_statements_eq_ok.mp analyzed
  obtain ⟨as, _, hx, hz, -⟩ := forall₂_append_left_iff.mp each
  obtain ⟨a, bs, ha, -, -⟩ := List.forall₂_cons_left_iff.mp hz
  have hx := analyzeAll_eq_ok.mpr hx
  exact (run_up_to_certain certain analyzed hx ha depth env).trans
    (run_up_to_certain certain analyzed' hx ha depth env).symm

theorem equivalent_of_certain : c.Equivalent c' := by
  intro env
  have level := (deepens_run c env).same_add (levels (xs ++ s :: zs))
  have level' := (deepens_run c' env).same_add (levels (xs ++ s :: zs'))
  simp only [run_eq_of_certain certain analyzed analyzed'] at level
  exact level.trans level'.symm

end Sequence

/-- A call that returns yields the content of the marker that its body yields, if that fails or
yields a marker. -/
theorem call_of_marks {c : Code} {env : Env} {id depth : Nat} {params locals args : List Value}
    {m n : Memory Code} {v : Value} (marks : ∀ inner, (run depth c inner).Marks)
    (closure : m.closures[id]? = some ⟨c, env⟩)
    (returned : applyFunction depth (.function id params locals) args m = .ok v n) :
    ∃ inner k stamp,
      enterCall (.function id params locals) id params locals args m = .ok (c, inner) k ∧
      run depth c inner k = .ok (.marker stamp v) n := by
  have entering : (enterCall (.function id params locals) id params locals args).Ends m
      (fun entry _ => entry.1 = c) fun _ _ => True := by
    refine ends_enterCall (fun _ => trivial) (fun _ => trivial) (fun _ => trivial) ?_
    intro c' frame found _ _
    cases closure.symm.trans found
    rfl
  obtain ⟨⟨body, inner⟩, k, entered, returned⟩ := bind_eq_ok.mp returned
  obtain ⟨w, k', ran, ended⟩ := bind_eq_ok.mp returned
  obtain rfl : body = c := entering.of_ok entered
  have marked := (marks inner k).of_ok ran
  cases w with
  | marker stamp content =>
      cases ended
      exact ⟨inner, k, stamp, entered, ran⟩
  | _ => cases marked

/-- A statement that is certain to return ends the sequence it stands in. -/
theorem certain_statement_ends_sequence (xs zs zs' : List Value) {s : Value} (certain : Certain s)
    {c c' : Code} (analyzed : (Node.sequence (.tuple (xs ++ s :: zs))).analyze = .ok c)
    (analyzed' : (Node.sequence (.tuple (xs ++ s :: zs'))).analyze = .ok c') :
    (∀ depth env m, run (depth + levels (xs ++ s :: zs)) c env m =
      run (depth + levels (xs ++ s :: zs')) c' env m) ∧
    c.Equivalent c' ∧
    (∀ depth env, (run depth c env).Marks) ∧
    (declaredAll zs = declaredAll zs' →
      Interchangeable (.node (.sequence (.tuple (xs ++ s :: zs))))
        (.node (.sequence (.tuple (xs ++ s :: zs')))) c c') ∧
    ∀ depth id params locals args env m v n, m.closures[id]? = some ⟨c, env⟩ →
      applyFunction depth (.function id params locals) args m = .ok v n →
      ∃ inner k stamp,
        enterCall (.function id params locals) id params locals args m = .ok (c, inner) k ∧
        run depth c inner k = .ok (.marker stamp v) n := by
  have same := equivalent_of_certain certain analyzed analyzed'
  have marks := marks_of_certain certain analyzed
  refine ⟨?_, same, marks, ?_, ?_⟩
  · intro depth env m
    rw [run_eq_of_certain certain analyzed analyzed']
  · intro names
    refine same.interchangeable analyzed analyzed' ?_
    refine localNames_iff_of_declared analyzed analyzed' ?_
    simp only [Value.declared, Node.declared, declaredAll_eq, List.flatMap_append,
      List.flatMap_cons] at names ⊢
    rw [names]
  · intro depth id params locals args env m v n closure returned
    exact call_of_marks (marks depth) closure returned

namespace Sample

/-- Returns from a block in one branch, and from the last of two statements in the other. -/
def parting : Value :=
  .node (.conditional (.node (.name "p"))
    (.node (.block (.node (.returning (.node (.literal (.int 1)))))))
    (.node (.sequence (.tuple [.node (.literal (.int 2)),
      .node (.returning (.node (.literal (.int 3))))]))))

/-- A declaration of `x` that would fail, since its value calls a number. -/
def failing : List Value :=
  [.node (.declaration (.text "x")
    (.node (.application (.node (.literal (.int 4))) (.tuple []))))]

def harmless : List Value := [.node (.declaration (.text "x") (.node (.literal (.int 5))))]

/-- A frame in which `p` is true and `x` has no value yet. -/
def undecided : Memory Code :=
  { frames := #[⟨[(.text "p", some (.bool true)), (.text "x", none)]⟩] }

end Sample

theorem certain_statement_ends_sequence_in_branches :
    Certain Sample.parting ∧
    declaredAll Sample.failing = declaredAll Sample.harmless ∧
    ∃ c c', (Node.sequence (.tuple ([] ++ Sample.parting :: Sample.failing))).analyze = .ok c ∧
      (Node.sequence (.tuple ([] ++ Sample.parting :: Sample.harmless))).analyze = .ok c' ∧
      Interchangeable (.node (.sequence (.tuple ([] ++ Sample.parting :: Sample.failing))))
        (.node (.sequence (.tuple ([] ++ Sample.parting :: Sample.harmless)))) c c' ∧
      ∃ stamp n, run 5 c [0] Sample.undecided = .ok (.marker stamp (.int 1)) n ∧
        run 5 c' [0] Sample.undecided = .ok (.marker stamp (.int 1)) n := by
  have certain : Certain Sample.parting := by
    have inner : Certain (.node (.returning (.node (.literal (.int 3))))) := .returning _
    refine .conditional (.block (.returning _)) (.sequence ?_ inner)
    simp [Value.items, Value.iterate]
  obtain ⟨same, -, -, interchangeable, -⟩ := certain_statement_ends_sequence
    [] Sample.failing Sample.harmless certain rfl rfl
  refine ⟨certain, rfl, _, _, rfl, rfl, interchangeable rfl, 0, _, rfl, ?_⟩
  exact (same 4 [0] Sample.undecided).symm

end ConstLang
