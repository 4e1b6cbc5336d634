import ConstLang.Proofs.Tree.Occurrence
import ConstLang.Run

/-!
Faults that runs raise. Everything that analysis could refuse is settled before code runs, so no
run fails because a name is declared twice or because something is no tree, whatever functions
it meets in memory. The faults of programs as wholes do not arise inside them either, nor in
their analysis, which fails for those two reasons or because it comes upon a part that is no
collection of parts.
-/

namespace ConstLang

/-- Whether running code can raise the fault. -/
def Fault.arisesInRuns : Fault → Bool
  | .duplicate _ | .unknownNode _ | .strayReturn | .tooDeep _ | .setting _ _ => false
  | _ => true

namespace Eval

variable {β α γ : Type}

/-- A computation that fails with faults of runs only. -/
def RaisesOfRuns (act : Eval β α) : Prop :=
  ∀ m, act.Ends m (fun _ _ => True) (fun e _ => e.arisesInRuns)

theorem raises_pure (a : α) : (pure a : Eval β α).RaisesOfRuns := fun _ => trivial

theorem raises_throw {e : Fault} (h : e.arisesInRuns) : (throw e : Eval β α).RaisesOfRuns :=
  fun _ => h

theorem RaisesOfRuns.bind {act : Eval β γ} {next : γ → Eval β α} (h : act.RaisesOfRuns)
    (hn : ∀ c, (next c).RaisesOfRuns) : (act >>= next).RaisesOfRuns :=
  fun m => (h m).bind fun c m' _ => hn c m'

theorem raises_ofMishap (r : Except Mishap α) : (ofMishap r : Eval β α).RaisesOfRuns := by
  cases r with
  | ok a => exact raises_pure a
  | error e => exact raises_throw rfl

theorem raises_lookup (x : Value) (env : Env) : (lookup x env : Eval β Value).RaisesOfRuns := by
  intro m
  simp only [lookup, ends_bind, ends_get, ends_ofExcept]
  split
  · trivial
  · rename_i missed
    rcases Memory.lookup_eq_error missed with rfl | rfl | rfl <;> rfl

theorem raises_assign (x v : Value) (env : Env) : (assign x v env : Eval β Unit).RaisesOfRuns := by
  intro m
  simp only [assign, ends_bind, ends_get, ends_ofExcept]
  split
  · trivial
  · rename_i missed
    rcases Memory.target_eq_error missed with rfl | rfl | rfl <;> rfl

theorem raises_mark (v : Value) : (mark v : Eval β Value).RaisesOfRuns := by
  unfold mark
  split
  · exact raises_pure _
  · exact fun m => trivial

theorem raises_performOperation (op : Operation) (args : List Value) :
    (performOperation op args : Eval β Value).RaisesOfRuns := by
  intro m
  simp only [performOperation, ends_bind, ends_fresh, ends_ofExcept]
  split
  · split <;> trivial
  · rename_i failed
    rcases Operation.perform_eq_error failed with ⟨m, rfl⟩ | ⟨text, rfl⟩ <;> rfl

theorem raises_enterScope (locals : List Value) (env : Env) :
    (enterScope locals env : Eval β Env).RaisesOfRuns :=
  (raises_ofMishap _).bind fun _ _ => trivial

section Parts

variable {exec : β → Env → Eval β Value} (hexec : ∀ b env, (exec b env).RaisesOfRuns)

include hexec

theorem raises_runAll (bs : List β) (env : Env) : (runAll exec bs env).RaisesOfRuns := by
  induction bs with
  | nil => exact raises_pure _
  | cons b bs ih => exact (hexec b env).bind fun _ => ih.bind fun _ => raises_pure _

theorem raises_runStatements (v : Value) (bs : List β) (env : Env) :
    (runStatements exec v bs env).RaisesOfRuns := by
  induction bs generalizing v with
  | nil => exact raises_pure _
  | cons b bs ih =>
      refine (hexec b env).bind fun w => ?_
      split
      · exact raises_pure _
      · exact ih w

theorem raises_call (f : Value) (args : List Value) : (call exec f args).RaisesOfRuns := by
  unfold call
  split
  · exact raises_performOperation _ args
  · intro m
    rw [ends_bind]
    refine ends_enterCall (fun _ => rfl) (fun _ => rfl) (fun _ => rfl) fun c frame _ _ _ => ?_
    exact ((hexec c.body _).bind fun _ => raises_pure _) _
  · exact raises_throw rfl

end Parts

theorem raises_step {exec : Code → Env → Eval Code Value}
    (hexec : ∀ c env, (exec c env).RaisesOfRuns) (c : Code) (env : Env) :
    (c.step exec env).RaisesOfRuns := by
  cases c with
  | literal v => exact raises_pure v
  | name x => exact raises_lookup _ env
  | declare x c =>
      exact (hexec c env).bind fun v => (raises_assign x v env).bind fun _ => raises_pure _
  | select p c a =>
      refine (hexec p env).bind fun v => ?_
      split
      · exact hexec c env
      · exact hexec a env
  | close params locals body => exact fun m => trivial
  | sequence cs => exact raises_runStatements hexec _ cs env
  | enter locals body => exact (raises_enterScope locals env).bind fun inner => hexec body inner
  | returning c => exact (hexec c env).bind fun v => raises_mark v
  | apply f xs =>
      refine (hexec f env).bind fun g => (raises_runAll hexec xs env).bind fun args => ?_
      exact raises_call hexec g args

theorem raises_run (depth : Nat) (c : Code) (env : Env) : (run depth c env).RaisesOfRuns := by
  induction depth generalizing c env with
  | zero => exact raises_throw rfl
  | succ depth ih => exact raises_step ih c env

/-- A run fails with a fault of runs, in whatever memory and environment. -/
theorem arisesInRuns_of_run {depth : Nat} {c : Code} {env : Env} {m : Memory Code} {e : Fault}
    (h : (run depth c env).fault? m = some e) : e.arisesInRuns := by
  obtain ⟨m', failed⟩ := fault?_eq_some.mp h
  exact (raises_run depth c env m).of_error failed

end Eval

section Analysis

variable {α γ : Type}

/-- Whether the analysis of a tree can raise the fault. -/
def Fault.arisesInAnalysis : Fault → Bool
  | .duplicate _ | .unknownNode _ | .mishap .kind => true
  | _ => false

/-- A result that is missing only because of a fault of analysis. -/
def OfAnalysis (r : Except Fault α) : Prop := ∀ e, r = .error e → e.arisesInAnalysis

theorem ofAnalysis_ok (a : α) : OfAnalysis (.ok a) := by
  intro e failed
  cases failed

theorem ofAnalysis_error {e : Fault} (h : e.arisesInAnalysis) :
    OfAnalysis (.error e : Except Fault α) := by
  intro e' same
  cases same
  exact h

theorem OfAnalysis.bind {r : Except Fault α} {next : α → Except Fault γ} (h : OfAnalysis r)
    (hn : ∀ a, r = .ok a → OfAnalysis (next a)) : OfAnalysis (r >>= next) := by
  cases r with
  | ok a => exact hn a rfl
  | error e => exact ofAnalysis_error (h e rfl)

theorem ofAnalysis_iterate (v : Value) : OfAnalysis (liftMishap v.iterate) := by
  cases v with
  | list _ | tuple _ | text _ | dict _ => exact ofAnalysis_ok _
  | _ => exact ofAnalysis_error rfl

theorem ofAnalysis_insertAll (xs into : List Value) : OfAnalysis (insertAll xs into) := by
  induction xs with
  | nil => exact ofAnalysis_ok into
  | cons x xs ih =>
      refine ih.bind ?_
      intro rest _
      split
      · exact ofAnalysis_error rfl
      · exact ofAnalysis_ok _

theorem ofAnalysis_localNamesAll {ss : List Value} (h : ∀ s ∈ ss, OfAnalysis s.localNames) :
    OfAnalysis (localNamesAll ss) := by
  induction ss with
  | nil => exact ofAnalysis_ok []
  | cons s ss ih =>
      obtain ⟨first, others⟩ := List.forall_mem_cons.mp h
      refine (ih others).bind ?_
      intro rest _
      refine first.bind ?_
      intro own _
      exact ofAnalysis_insertAll own rest

theorem ofAnalysis_localNames (v : Value) : OfAnalysis v.localNames := by
  induction v using Value.parts_induction with
  | leaf v leaf => cases v <;> first | exact ofAnalysis_ok _ | cases leaf
  | node n ih =>
      cases n with
      | sequence ss =>
          rw [Value.localNames, Node.localNames_sequence]
          refine (ofAnalysis_iterate ss).bind fun vs hvs => ofAnalysis_localNamesAll ?_
          rwa [← Value.items_eq (liftMishap_eq_ok.mp hvs)]
      | _ => exact ofAnalysis_ok _

theorem ofAnalysis_analyzeAll {vs : List Value} (h : ∀ v ∈ vs, OfAnalysis v.analyze) :
    OfAnalysis (analyzeAll vs) := by
  induction vs with
  | nil => exact ofAnalysis_ok []
  | cons v vs ih =>
      obtain ⟨first, others⟩ := List.forall_mem_cons.mp h
      refine first.bind ?_
      intro c _
      refine (ih others).bind ?_
      intro cs _
      exact ofAnalysis_ok _

theorem ofAnalysis_analyzeItems {v : Value} (h : ∀ w ∈ v.items, OfAnalysis w.analyze) :
    OfAnalysis v.analyzeItems := by
  rw [Value.analyzeItems_eq]
  refine (ofAnalysis_iterate v).bind ?_
  intro vs iterated
  rw [Value.items_eq (liftMishap_eq_ok.mp iterated)] at h
  exact ofAnalysis_analyzeAll h

theorem ofAnalysis_analyze (v : Value) : OfAnalysis v.analyze := by
  induction v using Value.parts_induction with
  | leaf v leaf => cases v <;> first | exact ofAnalysis_error rfl | cases leaf
  | node n ih =>
      cases n with
      | literal _ | name _ => exact ofAnalysis_ok _
      | declaration x v | returning v =>
          exact (ih v List.mem_cons_self).bind fun c _ => ofAnalysis_ok _
      | conditional p c a =>
          refine (ih p (by simp [Node.parts])).bind fun p' _ => ?_
          refine (ih c (by simp [Node.parts])).bind fun c' _ => ?_
          exact (ih a (by simp [Node.parts])).bind fun a' _ => ofAnalysis_ok _
      | function ps b =>
          have params : OfAnalysis ps.paramNames :=
            (ofAnalysis_iterate ps).bind fun xs _ => ofAnalysis_insertAll xs []
          refine params.bind fun params _ => (ofAnalysis_localNames b).bind fun locals _ => ?_
          refine (ofAnalysis_insertAll params locals).bind fun _ _ => ?_
          exact (ih b List.mem_cons_self).bind fun c _ => ofAnalysis_ok _
      | sequence ss => exact (ofAnalysis_analyzeItems ih).bind fun cs _ => ofAnalysis_ok _
      | block b =>
          refine (ofAnalysis_localNames b).bind fun locals _ => ?_
          exact (ih b List.mem_cons_self).bind fun c _ => ofAnalysis_ok _
      | application f xs =>
          refine (ih f List.mem_cons_self).bind fun f' _ => ?_
          have operands : OfAnalysis xs.analyzeItems :=
            ofAnalysis_analyzeItems fun w hw => ih w (List.mem_cons_of_mem _ hw)
          exact operands.bind fun cs _ => ofAnalysis_ok _

end Analysis

end ConstLang
