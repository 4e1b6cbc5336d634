import ConstLang.Proofs.Depth.Cut
import ConstLang.Proofs.Moment
import ConstLang.Proofs.Raised

/-!
The limit on depth only cuts runs short. A setting that is granted decides how deep evaluation may
nest and nothing else: of two settings, the smaller one gives the answer of the greater one or
reports that the depth it grants is exceeded, and by then it has displayed the beginning of
what is displayed under the greater one. Depth that is used up somewhere in a run is always
reported, and as nothing else. A setting beyond the greatest one is refused before anything is run.
-/

namespace ConstLang

/-- The limit in force is the one that is asked for, and at least the one that is always granted. -/
theorem limitInForce_eq_ok {maxDepth : Int} (h : maxDepth ≤ greatestLimit) :
    limitInForce maxDepth = .ok (max baseLimit maxDepth.toNat) := by
  unfold limitInForce
  by_cases small : maxDepth ≤ baseLimit
  · rw [if_pos small, Nat.max_eq_left (by omega)]
  · rw [if_neg small, if_pos h, Nat.max_eq_right (by omega)]

theorem limitInForce_eq_error {maxDepth : Int} (h : greatestLimit < maxDepth) :
    limitInForce maxDepth = .error .range := by
  have large : ¬ maxDepth ≤ greatestLimit := by omega
  have more : ¬ maxDepth ≤ baseLimit := by
    simp only [greatestLimit, baseLimit] at h ⊢
    omega
  rw [limitInForce, if_neg more, if_neg large]

namespace Eval

variable {m : Memory Code} {act act' : Eval Code Value}

/-- How the answer under a limit compares with the answer under a greater one: it is the same, or
it reports the limit and displays the beginning of what the other one displays. -/
structure CutShort (limit : Nat) (act act' : Eval Code Value) (m : Memory Code) : Prop where
  same : (∀ l, act.fault? m ≠ some (.tooDeep l)) → act' m = act m
  deep : ∀ l, act.fault? m = some (.tooDeep l) →
    l = limit ∧ (act.after m).Precedes (act'.after m)

theorem after_guardDepth (limit : Nat) (act : Eval Code Value) (m : Memory Code) :
    (guardDepth limit act).after m = act.after m := by
  unfold Eval.after guardDepth
  cases ended : act m with
  | ok v n => rfl
  | error e n =>
      by_cases exhausted : e = .mishap .stack
      · subst exhausted
        rfl
      · simp [exhausted]

theorem guardDepth_of_exhausted {n : Memory Code} (h : act m = .error (.mishap .stack) n)
    (limit : Nat) : guardDepth limit act m = .error (.tooDeep limit) n := by
  simp [guardDepth, h]

theorem guardDepth_of_other (h : ∀ n, act m ≠ .error (.mishap .stack) n) (limit : Nat) :
    guardDepth limit act m = act m := by
  unfold guardDepth
  split
  · rename_i n exhausted
    exact absurd exhausted (h n)
  · rfl

/-- A guarded computation never fails with exhausted depth as it is. -/
theorem fault?_guardDepth_ne (limit : Nat) (act : Eval Code Value) (m : Memory Code) :
    (guardDepth limit act).fault? m ≠ some (.mishap .stack) := by
  intro failed
  obtain ⟨n, failed⟩ := fault?_eq_some.mp failed
  by_cases exhausted : ∃ k, act m = .error (.mishap .stack) k
  · obtain ⟨k, exhausted⟩ := exhausted
    rw [guardDepth_of_exhausted exhausted] at failed
    cases failed
  · have other (k : Memory Code) : act m ≠ .error (.mishap .stack) k := by
      intro stopped
      exact exhausted ⟨k, stopped⟩
    rw [guardDepth_of_other other] at failed
    exact other n failed

theorem Cuts.guardDepth (h : act.Cuts act') (shallow : ∀ l, act.fault? m ≠ some (.tooDeep l))
    (low high : Nat) : CutShort low (guardDepth low act) (guardDepth high act') m := by
  have before : (act.after m).Precedes (act'.after m) := by
    cases h.cut m with
    | inl same =>
        simp only [Eval.after, same]
        exact .refl _
    | inr stopped =>
        obtain ⟨n, stopped, before⟩ := stopped
        simpa [Eval.after, stopped] using before
  by_cases exhausted : ∃ n, act m = .error (.mishap .stack) n
  · obtain ⟨n, exhausted⟩ := exhausted
    have reported := guardDepth_of_exhausted exhausted low
    refine ⟨?_, ?_⟩
    · intro other
      exact absurd (fault?_eq_some.mpr ⟨n, reported⟩) (other low)
    · intro l failed
      obtain ⟨k, failed⟩ := fault?_eq_some.mp failed
      rw [reported] at failed
      cases failed
      rw [after_guardDepth, after_guardDepth]
      exact ⟨rfl, before⟩
  · have other (n : Memory Code) : act m ≠ .error (.mishap .stack) n := by
      intro failed
      exact exhausted ⟨n, failed⟩
    have same : act m = act' m := by
      refine (h.cut m).resolve_right ?_
      intro stopped
      obtain ⟨n, stopped, -⟩ := stopped
      exact other n stopped
    have low' := guardDepth_of_other other low
    refine ⟨?_, ?_⟩
    · intro _
      rw [low', guardDepth_of_other (same ▸ other), same]
    · intro l failed
      unfold fault? at failed
      rw [low'] at failed
      exact absurd failed (shallow l)

/-- Evaluation reports no limit itself: its faults are those of analysis and of runs. -/
theorem fault?_evaluate_ne (depth : Nat) (node : Value) (env : Env) (l : Nat) :
    (evaluate depth node env).fault? m ≠ some (.tooDeep l) := by
  have shallow : (evaluate depth node env).Ends m (fun _ _ => True)
      (fun e _ => e ≠ .tooDeep l) := by
    rw [evaluate, ends_bind, ends_ofExcept]
    cases analyzed : node.analyze with
    | error e =>
        intro deep
        have arises := ofAnalysis_analyze node e analyzed
        rw [deep] at arises
        cases arises
    | ok code =>
        refine (raises_run depth code env m).imp (fun _ _ h => h) ?_
        intro e n arises deep
        rw [deep] at arises
        cases arises
  intro failed
  obtain ⟨n, failed⟩ := fault?_eq_some.mp failed
  exact shallow.of_error failed rfl

theorem cutShort_evaluate {low high : Nat} (h : low ≤ high) (node : Value) (env : Env) :
    CutShort low (guardDepth low (evaluate low node env))
      (guardDepth high (evaluate high node env)) m :=
  (cuts_evaluate h node env).guardDepth (fault?_evaluate_ne low node env) low high

/-- A program may not yield a marker. -/
def checked (v : Value) : Eval Code Value := if v.isMarker then throw .strayReturn else pure v

theorem after_bind_checked (act : Eval Code Value) (m : Memory Code) :
    (act >>= checked).after m = act.after m := by
  cases ended : act m with
  | error e n => simp only [Eval.after, bind_of_error ended, ended]
  | ok v n =>
      rw [after_bind_of_ok ended]
      simp only [Eval.after, checked, ended]
      cases v.isMarker <;> rfl

/-- The check raises no fault but its own. -/
theorem fault?_bind_checked {e : Fault} (h : e ≠ .strayReturn) :
    (act >>= checked).fault? m = some e ↔ act.fault? m = some e := by
  cases ended : act m with
  | error f n => simp only [fault?, bind_of_error ended, ended]
  | ok v n =>
      by_cases marked : v.isMarker = true
      · have stray : (act >>= checked) m = .error .strayReturn n := by
          rw [bind_of_ok ended, checked, if_pos marked]
          rfl
        simp only [fault?, stray, ended, Option.some.injEq, reduceCtorEq, iff_false]
        exact h.symm
      · have passed : (act >>= checked) m = .ok v n := by
          rw [bind_of_ok ended, checked, if_neg marked]
          rfl
        simp only [fault?, passed, ended]

theorem CutShort.checked {limit : Nat} (h : CutShort limit act act' m) :
    CutShort limit (act >>= Eval.checked) (act' >>= Eval.checked) m := by
  refine ⟨?_, ?_⟩
  · intro other
    have same := h.same fun l failed => other l ((fault?_bind_checked (by simp)).mpr failed)
    simp only [bind, EStateM.bind, same]
  · intro l failed
    rw [after_bind_checked, after_bind_checked]
    exact h.deep l ((fault?_bind_checked (by simp)).mp failed)

theorem cutShort_runProgram {low high : Nat} (h : low ≤ high) (program : Value) (env : Env) :
    CutShort low (runProgram low program env) (runProgram high program env) m :=
  (cutShort_evaluate h (.node (Node.makeBlock program)) env).checked

end Eval

namespace Interpreter

/-- The interpreter with another setting of the limit. -/
def limited (i : Interpreter) (maxDepth : Int) : Interpreter := { i with maxDepth }

variable {i : Interpreter} {limit : Nat}

theorem runProgram_of_granted (h : limitInForce i.maxDepth = .ok limit) (program : Value) :
    i.runProgram program = ConstLang.runProgram limit program i.globalEnv := by
  rw [runProgram, h]
  rfl

theorem evaluate_of_granted (h : limitInForce i.maxDepth = .ok limit) (node : Value) (env : Env) :
    i.evaluate node env = guardDepth limit
      (ConstLang.evaluate limit node (if env.isEmpty then i.globalEnv else env)) := by
  rw [evaluate, h]
  rfl

theorem refused (h : limitInForce i.maxDepth = .error .range) (m : Memory Code) :
    (∀ program, i.runProgram program m = .error (.mishap .range) m) ∧
    ∀ node env, i.evaluate node env m = .error (.mishap .range) m := by
  refine ⟨?_, ?_⟩
  · intro program
    rw [runProgram, h]
    rfl
  · intro node env
    rw [evaluate, h]
    rfl

/-- Of two new interpreters that differ in the setting, the memories are the same. -/
theorem create_limited (t : Table) (low high : Int) (setting : Option String) :
    create t (some high) setting = (·.limited high) <$> create t (some low) setting := by
  simp [create, limited]

/-- Depth that is used up somewhere in a run is reported by both methods, and never as a mishap. -/
structure ReportsDepth (i : Interpreter) (m : Memory Code) : Prop where
  program : ∀ program c env n, i.Visits (.node (Node.makeBlock program)) [] m ⟨0, .run c env, n⟩ →
    ∃ limit, limitInForce i.maxDepth = .ok limit ∧
      i.runProgram program m = .error (.tooDeep limit) n
  node : ∀ node env c inner n, i.Visits node env m ⟨0, .run c inner, n⟩ →
    ∃ limit, limitInForce i.maxDepth = .ok limit ∧
      i.evaluate node env m = .error (.tooDeep limit) n
  program_ne : ∀ program, (i.runProgram program).fault? m ≠ some (.mishap .stack)
  node_ne : ∀ node env, (i.evaluate node env).fault? m ≠ some (.mishap .stack)

variable {m n : Memory Code}

/-- The run of the code fails where its depth is used up. -/
theorem evaluation_of_exhausted {node : Value} {env inner : Env} {c : Code}
    (visited : i.Visits node env m ⟨0, .run c inner, n⟩) :
    ∃ limit, limitInForce i.maxDepth = .ok limit ∧
      ConstLang.evaluate limit node (if env.isEmpty then i.globalEnv else env) m =
        .error (.mishap .stack) n := by
  obtain ⟨limit, code, granted, analyzed, reached⟩ := visited
  refine ⟨limit, granted, ?_⟩
  rw [ConstLang.evaluate, analyzed]
  exact reached.fails rfl

theorem reportsDepth (i : Interpreter) (m : Memory Code) : i.ReportsDepth m where
  program := by
    intro program c env n visited
    obtain ⟨limit, granted, exhausted⟩ := evaluation_of_exhausted visited
    refine ⟨limit, granted, ?_⟩
    rw [runProgram_of_granted granted]
    exact Eval.bind_of_error (Eval.guardDepth_of_exhausted exhausted limit) Eval.checked
  node := by
    intro node env c inner n visited
    obtain ⟨limit, granted, exhausted⟩ := evaluation_of_exhausted visited
    refine ⟨limit, granted, ?_⟩
    rw [evaluate_of_granted granted]
    exact Eval.guardDepth_of_exhausted exhausted limit
  program_ne := by
    intro program failed
    by_cases granted : i.maxDepth ≤ greatestLimit
    · rw [runProgram_of_granted (limitInForce_eq_ok granted)] at failed
      exact Eval.fault?_guardDepth_ne _ _ m ((Eval.fault?_bind_checked (by simp)).mp failed)
    · have beyond := limitInForce_eq_error (Int.not_le.mp granted)
      simp [Eval.fault?, (refused beyond m).1 program] at failed
  node_ne := by
    intro node env failed
    by_cases granted : i.maxDepth ≤ greatestLimit
    · rw [evaluate_of_granted (limitInForce_eq_ok granted)] at failed
      exact Eval.fault?_guardDepth_ne _ _ m failed
    · have beyond := limitInForce_eq_error (Int.not_le.mp granted)
      simp [Eval.fault?, (refused beyond m).2 node env] at failed

end Interpreter

/-- The limit on depth only cuts runs short. Under the smaller of two settings that are granted, the
answer to a program or a tree is the answer under the greater one, or else it reports the limit in
force, and what was displayed is the beginning of what is displayed under the greater one. Depth
that is used up is always reported; a setting beyond the greatest is refused, with nothing run. -/
theorem limit_only_cuts_short {low high : Int} (le : low ≤ high) (granted : high ≤ greatestLimit)
    (i : Interpreter) (m : Memory Code) :
    (∀ t setting, Interpreter.create t (some high) setting =
      (·.limited high) <$> Interpreter.create t (some low) setting) ∧
    (∀ program, Eval.CutShort (max 1000 low.toNat) ((i.limited low).runProgram program)
      ((i.limited high).runProgram program) m) ∧
    (∀ node env, Eval.CutShort (max 1000 low.toNat) ((i.limited low).evaluate node env)
      ((i.limited high).evaluate node env) m) ∧
    i.ReportsDepth m ∧
    ∀ maxDepth > greatestLimit,
      (∀ program, (i.limited maxDepth).runProgram program m = .error (.mishap .range) m) ∧
      ∀ node env, (i.limited maxDepth).evaluate node env m = .error (.mishap .range) m := by
  have lower : limitInForce (i.limited low).maxDepth = .ok (max baseLimit low.toNat) :=
    limitInForce_eq_ok (Int.le_trans le granted)
  have higher : limitInForce (i.limited high).maxDepth = .ok (max baseLimit high.toNat) :=
    limitInForce_eq_ok granted
  have more : max baseLimit low.toNat ≤ max baseLimit high.toNat := by omega
  refine ⟨?_, ?_, ?_, i.reportsDepth m, ?_⟩
  · intro t setting
    exact Interpreter.create_limited t low high setting
  · intro program
    rw [Interpreter.runProgram_of_granted lower, Interpreter.runProgram_of_granted higher]
    exact Eval.cutShort_runProgram more program i.globalEnv
  · intro node env
    rw [Interpreter.evaluate_of_granted lower, Interpreter.evaluate_of_granted higher]
    exact Eval.cutShort_evaluate more node _
  · intro maxDepth beyond
    exact Interpreter.refused (limitInForce_eq_error beyond) m

namespace Sample

/-- So many conditionals, each of which selects the next one. -/
def choices : Nat → Value
  | 0 => .node (.literal (.int 7))
  | n + 1 =>
      .node (.conditional (.node (.literal (.bool true))) (choices n) (.node (.literal .null)))

/-- The answer of a new interpreter, over the standard table and with a setting, to a program. -/
def answer (maxDepth : Int) (program : Value) : Eval Code Value :=
  Interpreter.create Table.standard (some maxDepth) none >>= fun i => i.runProgram program

end Sample

theorem limit_only_cuts_short_in_choices :
    (5 : Int) ≤ 1100 ∧ (1100 : Int) ≤ greatestLimit ∧
    (∃ l, ((Interpreter.mk [] 5).runProgram (Sample.choices 1000)).fault? {} = some (.tooDeep l) ∧
      l = 1000) ∧
    (Interpreter.mk [] 1100).runProgram (Sample.choices 3) {} =
      (Interpreter.mk [] 5).runProgram (Sample.choices 3) {} := by
  obtain ⟨-, short, -⟩ :=
    @limit_only_cuts_short 5 1100 (by decide) (by decide) ⟨[], 0⟩ {}
  refine ⟨by decide, by decide, ?_, ?_⟩
  · have deep : (((Interpreter.mk [] 5).runProgram (Sample.choices 1000)).fault? {}).map
        Fault.kind = some .tooDeep := by decide +kernel
    obtain ⟨fault, failed, kind⟩ := Option.map_eq_some_iff.mp deep
    cases fault with
    | tooDeep l => exact ⟨l, failed, ((short (Sample.choices 1000)).deep l failed).1⟩
    | _ => cases kind
  · have returns : (((Interpreter.mk [] 5).runProgram (Sample.choices 3)).fault? {}).map
        Fault.kind = none := by decide +kernel
    refine (short (Sample.choices 3)).same ?_
    intro l failed
    have none := (Option.map_eq_none_iff.mp returns).symm.trans failed
    cases none

/-- Beyond the greatest limit the answer is not the same any more: it is a refusal. -/
theorem limit_beyond_greatest_changes_answer :
    (1000 : Int) ≤ 2147483648 ∧
    ((Sample.answer 1000 (Sample.choices 0)).fault? {}).map Fault.kind = none ∧
    ((Sample.answer 2147483648 (Sample.choices 0)).fault? {}).map Fault.kind =
      some (.mishap .range) ∧
    ¬ Eval.CutShort 1000 (Sample.answer 1000 (Sample.choices 0))
      (Sample.answer 2147483648 (Sample.choices 0)) {} := by
  have returns : ((Sample.answer 1000 (Sample.choices 0)).fault? {}).map Fault.kind = none := by
    decide +kernel
  have refuses : ((Sample.answer 2147483648 (Sample.choices 0)).fault? {}).map Fault.kind =
      some (.mishap .range) := by decide +kernel
  refine ⟨by decide, returns, refuses, ?_⟩
  intro short
  have same := short.same (by rw [Option.map_eq_none_iff.mp returns]; simp)
  rw [Eval.fault?, same] at refuses
  rw [Eval.fault?, refuses] at returns
  cases returns

end ConstLang
