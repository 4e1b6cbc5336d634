import ConstLang.Proofs.Agreement
import ConstLang.Proofs.Depth.Cut

/-!
Code that comes to the same ends. Depth does not count: two computations are the same if one
comes to an end exactly where the other one does, each with enough depth. Code that is the same
in this sense may be exchanged, as the body of a block and as the body of functions that memory
holds; a call of such a function comes to the same end, and leaves the same memory but for the
bodies that were exchanged.
-/

namespace ConstLang
namespace Eval

variable {α γ : Type}

theorem Corresponds.exhausted {values : α → α → Prop}
    {memories : Memory Code → Memory Code → Prop} {r r' : EStateM.Result Fault (Memory Code) α}
    (h : Corresponds values Eq memories r r') : Exhausted r ↔ Exhausted r' := by
  cases h with
  | ok _ _ => simp [Exhausted]
  | error he _ => simp [Exhausted, he]

/-- With enough depth, a computation comes to this end. -/
def ComesTo (act : Nat → Eval Code α) (m : Memory Code)
    (r : EStateM.Result Fault (Memory Code) α) : Prop :=
  Settles act m r ∧ ¬Exhausted r

/-- Where it does not cut the computation short, depth does not matter. -/
def Deepens (act : Nat → Eval Code α) : Prop :=
  ∀ low high, low ≤ high → (act low).Cuts (act high)

namespace Deepens

variable {act : Nat → Eval Code α} {m : Memory Code} {r : EStateM.Result Fault (Memory Code) α}

theorem stays (h : Deepens act) {low high : Nat} (deeper : low ≤ high) (ended : act low m = r)
    (whole : ¬Exhausted r) : act high m = r := by
  cases (h low high deeper).cut m with
  | inl same => exact same.symm.trans ended
  | inr stopped =>
      obtain ⟨n, stopped, -⟩ := stopped
      exact absurd ⟨n, ended.symm.trans stopped⟩ whole

/-- One depth at which it comes to the end is enough. -/
theorem comesTo (h : Deepens act) :
    ComesTo act m r ↔ (∃ depth, act depth m = r) ∧ ¬Exhausted r := by
  constructor
  · intro ⟨⟨enough, settled⟩, whole⟩
    exact ⟨⟨enough, settled enough (Nat.le_refl _)⟩, whole⟩
  · intro ⟨⟨depth, ended⟩, whole⟩
    exact ⟨⟨depth, fun high deeper => h.stays deeper ended whole⟩, whole⟩

theorem bind {act : Nat → Eval Code γ} {next : Nat → γ → Eval Code α} (h : Deepens act)
    (hn : ∀ c, Deepens fun depth => next depth c) :
    Deepens fun depth => act depth >>= next depth :=
  fun low high deeper => (h low high deeper).bind fun c => hn c low high deeper

end Deepens

theorem Extends.deepens {act : Eval Code α} (h : act.Extends) : Deepens fun _ => act :=
  fun _ _ _ => h.cuts

theorem deepens_run (c : Code) (env : Env) : Deepens fun depth => run depth c env :=
  fun _ _ deeper => cuts_run deeper c env

theorem deepens_runStatements (v : Value) (cs : List Code) (env : Env) :
    Deepens fun depth => runStatements (run depth) v cs env :=
  fun _ _ deeper => cuts_runStatements (fun c env => cuts_run deeper c env) v cs env

theorem deepens_applyFunction (f : Value) (args : List Value) :
    Deepens fun depth => applyFunction depth f args :=
  fun _ _ deeper => cuts_call (fun c env => cuts_run deeper c env) f args

theorem comesTo_bind {act : Nat → Eval Code γ} {next : Nat → γ → Eval Code α} {m : Memory Code}
    {r : EStateM.Result Fault (Memory Code) α} (h : Deepens act)
    (hn : ∀ c, Deepens fun depth => next depth c) :
    ComesTo (fun depth => act depth >>= next depth) m r ↔
      (∃ c n, ComesTo act m (.ok c n) ∧ ComesTo (fun depth => next depth c) n r) ∨
        ∃ e n, ComesTo act m (.error e n) ∧ r = .error e n := by
  rw [(h.bind hn).comesTo]
  constructor
  · intro ⟨⟨depth, ended⟩, whole⟩
    cases first : act depth m with
    | ok c n =>
        rw [bind_of_ok first] at ended
        have whole' : ¬Exhausted (.ok c n : EStateM.Result Fault (Memory Code) γ) := by
          simp [Exhausted]
        refine .inl ⟨c, n, h.comesTo.mpr ⟨⟨depth, first⟩, whole'⟩, ?_⟩
        exact (hn c).comesTo.mpr ⟨⟨depth, ended⟩, whole⟩
    | error e n =>
        rw [bind_of_error first] at ended
        subst ended
        have whole' : ¬Exhausted (.error e n : EStateM.Result Fault (Memory Code) γ) := by
          simpa [Exhausted] using whole
        exact .inr ⟨e, n, h.comesTo.mpr ⟨⟨depth, first⟩, whole'⟩, rfl⟩
  · rintro (⟨c, n, first, second⟩ | ⟨e, n, ⟨⟨enough, first⟩, whole⟩, rfl⟩)
    · obtain ⟨⟨enough, first⟩, -⟩ := first
      obtain ⟨⟨enough', second⟩, whole⟩ := second
      refine ⟨⟨max enough enough', ?_⟩, whole⟩
      rw [bind_of_ok (first _ (by omega))]
      exact second _ (by omega)
    · refine ⟨⟨enough, bind_of_error (first enough (Nat.le_refl _)) _⟩, ?_⟩
      simpa [Exhausted] using whole

/-- Computations that come to the same ends. -/
def Same (act act' : Nat → Eval Code α) : Prop := ∀ m r, ComesTo act m r ↔ ComesTo act' m r

namespace Same

variable {act act' act'' : Nat → Eval Code α}

theorem refl (act : Nat → Eval Code α) : Same act act := fun _ _ => Iff.rfl

theorem symm (h : Same act act') : Same act' act := fun m r => (h m r).symm

theorem trans (h : Same act act') (h' : Same act' act'') : Same act act'' :=
  fun m r => (h m r).trans (h' m r)

theorem bind {act act' : Nat → Eval Code γ} {next next' : Nat → γ → Eval Code α}
    (h : Same act act') (hn : ∀ c, Same (fun depth => next depth c) fun depth => next' depth c)
    (deep : Deepens act) (deep' : Deepens act') (deepNext : ∀ c, Deepens fun depth => next depth c)
    (deepNext' : ∀ c, Deepens fun depth => next' depth c) :
    Same (fun depth => act depth >>= next depth) fun depth => act' depth >>= next' depth := by
  intro m r
  rw [comesTo_bind deep deepNext, comesTo_bind deep' deepNext']
  simp only [h m _, hn _ _ _]

end Same

/-- Some levels of depth more or less do not count. -/
theorem Deepens.same_add {act : Nat → Eval Code α} (h : Deepens act) (levels : Nat) :
    Same act fun depth => act (depth + levels) := by
  intro m r
  have shifted : Deepens fun depth => act (depth + levels) := fun low high deeper =>
    h (low + levels) (high + levels) (by omega)
  rw [h.comesTo, shifted.comesTo]
  refine and_congr_left fun whole => ?_
  constructor
  · intro ⟨depth, ended⟩
    exact ⟨depth, h.stays (by omega) ended whole⟩
  · intro ⟨depth, ended⟩
    exact ⟨depth + levels, ended⟩

end Eval

open Eval

/-- The levels of depth that a list of statements takes besides those of the statements. -/
def levels {α : Type} : List α → Nat
  | [_] => 0
  | _ => 1

theorem levels_eq_of_length {α γ : Type} {xs : List α} {ys : List γ}
    (h : xs.length = ys.length) : levels xs = levels ys := by
  match xs, ys with
  | [], [] | [_], [_] | _ :: _ :: _, _ :: _ :: _ => rfl
  | [], _ :: _ | _ :: _, [] | [_], _ :: _ :: _ | _ :: _ :: _, [_] => simp at h

/-- The code of a list of statements does what the statements do, one after the other. -/
theorem run_ofStatements (cs : List Code) (depth : Nat) (env : Env) :
    run (depth + levels cs) (.ofStatements cs) env =
      runStatements (run depth) .undefined cs env := by
  match cs with
  | [] => rfl
  | [c] => exact (runStatements_singleton _ _ c env).symm
  | _ :: _ :: _ => rfl

theorem same_ofStatements (cs : List Code) (env : Env) :
    Same (fun depth => run depth (.ofStatements cs) env)
      fun depth => runStatements (run depth) .undefined cs env := by
  simp only [← run_ofStatements]
  exact (deepens_run _ env).same_add (levels cs)

namespace Code

/-- Code that comes to the same ends in every environment. -/
def Equivalent (c c' : Code) : Prop :=
  ∀ env, Same (fun depth => run depth c env) fun depth => run depth c' env

theorem Equivalent.refl (c : Code) : c.Equivalent c := fun _ => .refl _

theorem Equivalent.symm {c c' : Code} (h : c.Equivalent c') : c'.Equivalent c :=
  fun env => (h env).symm

/-- Equivalent code may stand in a block. -/
theorem Equivalent.enter {c c' : Code} (h : c.Equivalent c') (locals : List Value) :
    (Code.enter locals c).Equivalent (.enter locals c') := by
  intro env
  have entering : Deepens fun _ => (enterScope locals env : Eval Code Env) :=
    (extends_enterScope locals env).deepens
  have inside : Same (fun depth => enterScope locals env >>= run depth c)
      fun depth => enterScope locals env >>= run depth c' :=
    (Same.refl _).bind h entering entering (deepens_run c) (deepens_run c')
  have level := (deepens_run (.enter locals c') env).same_add 1
  exact ((deepens_run _ env).same_add 1).trans (inside.trans level.symm)

/-- A body may be replaced by equivalent ones, and may be left as it is. -/
structure Exchanges (bodies : Code → Code → Prop) : Prop where
  kept : ∀ c, bodies c c
  equivalent : ∀ c c', bodies c c' → c.Equivalent c'

theorem Exchanges.flip {bodies : Code → Code → Prop} (h : Exchanges bodies) :
    Exchanges fun c' c => bodies c c' :=
  ⟨h.kept, fun c' c hb => (h.equivalent c c' hb).symm⟩

/-- One body is left as it is or replaced by the other code. -/
def Swapped (c c' b b' : Code) : Prop := b' = b ∨ b = c ∧ b' = c'

theorem Equivalent.exchanges {c c' : Code} (h : c.Equivalent c') : Exchanges (Swapped c c') where
  kept b := .inl rfl
  equivalent b b' swapped := by
    rcases swapped with rfl | ⟨rfl, rfl⟩
    · exact .refl _
    · exact h

end Code

open Code

section Calls

variable {bodies : Code → Code → Prop}

theorem tracks_step {exec : Code → Env → Eval Code Value}
    {exec' : Nat → Code → Env → Eval Code Value} (kept : ∀ c, bodies c c)
    (hexec : Follows bodies exec exec') (c : Code) (env : Env) :
    Tracks bodies Eq (c.step exec env) fun depth => c.step (exec' depth) env := by
  have all (cs : List Code) : List.Forall₂ bodies cs cs :=
    List.forall₂_same.mpr fun c _ => kept c
  cases c with
  | literal v => exact tracks_pure rfl
  | name x => exact tracks_lookup _ env
  | declare x c => exact tracks_declare hexec (kept c) x env
  | select p c a => exact tracks_select hexec (kept p) (kept c) (kept a) env
  | close params locals body => exact tracks_close params locals env (kept body)
  | sequence cs => exact tracks_runStatements hexec .undefined (all cs) env
  | enter locals body => exact tracks_enter hexec (kept body) locals env
  | returning c => exact tracks_returning hexec (kept c) env
  | apply f xs => exact tracks_apply hexec (kept f) (all xs) env

/-- An end that is tracked is also reached by equivalent code. -/
theorem Eval.Tracks.equivalent {act : Eval Code Value} {c c' : Code} {env : Env}
    (h : Tracks bodies Eq act fun depth => run depth c env) (same : c.Equivalent c') :
    Tracks bodies Eq act fun depth => run depth c' env := by
  intro m m' alike
  by_cases exhausted : Exhausted (act m)
  · exact .inl exhausted
  · obtain ⟨r, settled, ends⟩ := (h m m' alike).resolve_left exhausted
    have whole : ¬Exhausted r := fun short => exhausted (ends.exhausted.mpr short)
    exact .inr ⟨r, ((same env m' r).mp ⟨settled, whole⟩).1, ends⟩

/-- Code runs alike in memories in which bodies have been exchanged. -/
theorem Code.Exchanges.follows_run (h : Exchanges bodies) (depth : Nat) :
    Follows bodies (run depth) run := by
  induction depth with
  | zero =>
      intro c c' env _ m m' _
      exact .inl ⟨m, rfl⟩
  | succ depth ih =>
      intro c c' env hb
      have own : Tracks bodies Eq (run (depth + 1) c env) fun depth => run depth c env :=
        Tracks.of_succ (tracks_step h.kept ih c env)
      exact own.equivalent (h.equivalent c c' hb)

/-- Two computations come to ends that correspond, or neither comes to an end. -/
structure Together (bodies : Code → Code → Prop) (act act' : Nat → Eval Code Value)
    (m m' : Memory Code) : Prop where
  forth : ∀ r, ComesTo act m r →
    ∃ r', ComesTo act' m' r' ∧ Corresponds Eq Eq (Memory.Alike bodies) r r'
  back : ∀ r', ComesTo act' m' r' →
    ∃ r, ComesTo act m r ∧ Corresponds Eq Eq (Memory.Alike bodies) r r'

private theorem Code.Exchanges.forth {m m' : Memory Code} (h : Exchanges bodies)
    (alike : Memory.Alike bodies m m') (f : Value) (args : List Value)
    {r : EStateM.Result Fault (Memory Code) Value}
    (ended : ComesTo (fun depth => applyFunction depth f args) m r) :
    ∃ r', ComesTo (fun depth => applyFunction depth f args) m' r' ∧
      Corresponds Eq Eq (Memory.Alike bodies) r r' := by
  obtain ⟨⟨depth, ended⟩, whole⟩ := (deepens_applyFunction f args).comesTo.mp ended
  subst ended
  obtain ⟨r', settled, ends⟩ :=
    (tracks_call (h.follows_run depth) f args m m' alike).resolve_left whole
  exact ⟨r', ⟨settled, fun short => whole (ends.exhausted.mpr short)⟩, ends⟩

/-- Calls come to the same ends in memories in which bodies have been exchanged. -/
theorem Code.Exchanges.together_applyFunction {m m' : Memory Code} (h : Exchanges bodies)
    (alike : Memory.Alike bodies m m') (f : Value) (args : List Value) :
    Together bodies (fun depth => applyFunction depth f args)
      (fun depth => applyFunction depth f args) m m' where
  forth r ended := h.forth alike f args ended
  back r' ended := by
    obtain ⟨r, ended, ends⟩ := h.flip.forth alike.flip f args ended
    exact ⟨r, ended, ends.flip⟩

end Calls

/-- Two trees with their code that may stand for each other as bodies. Where a block or function
needs their names, these are the same or cannot be found for either. -/
structure Interchangeable (b b' : Value) (c c' : Code) : Prop where
  /-- On their own they come to the same ends in all environments and memories. -/
  alone : c.Equivalent c'
  block : ∀ locals, (Node.block b).analyze = .ok (.enter locals c) ↔
    (Node.block b').analyze = .ok (.enter locals c')
  entered : ∀ locals, (Code.enter locals c).Equivalent (.enter locals c')
  function : ∀ ps params locals, (Node.function ps b).analyze = .ok (.close params locals c) ↔
    (Node.function ps b').analyze = .ok (.close params locals c')
  /-- The functions made of them are the same value, and memory differs in their bodies only. -/
  defined : ∀ params locals env m m', Memory.Alike (Swapped c c') m m' →
    Corresponds Eq Eq (Memory.Alike (Swapped c c')) (Eval.close params locals ⟨c, env⟩ m)
      (Eval.close params locals ⟨c', env⟩ m')
  /-- Whatever function is called, the calls come to the same ends. -/
  called : ∀ f args m m', Memory.Alike (Swapped c c') m m' →
    Together (Swapped c c') (fun depth => applyFunction depth f args)
      (fun depth => applyFunction depth f args) m m'

theorem Code.Equivalent.interchangeable {b b' : Value} {c c' : Code} (same : c.Equivalent c')
    (hc : b.analyze = .ok c) (hc' : b'.analyze = .ok c')
    (names : ∀ locals, b.localNames = .ok locals ↔ b'.localNames = .ok locals) :
    Interchangeable b b' c c' where
  alone := same
  block locals := by simp [Node.analyze_block_eq_ok, hc, hc', names]
  entered := same.enter
  function ps params locals := by simp [Node.analyze_function_eq_ok, hc, hc', names]
  defined params locals env m m' alike :=
    .ok (by simp [alike.size_closures]) (alike.close params locals env (.inr ⟨rfl, rfl⟩))
  called f args _ _ alike := same.exchanges.together_applyFunction alike f args

end ConstLang
