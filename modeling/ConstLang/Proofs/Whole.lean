import ConstLang.Proofs.Contents
import ConstLang.Proofs.Isolation
import ConstLang.Proofs.Renaming.Given

/-!
Whole memories. A memory is whole if it gave out every identity in what it holds, and
if the environments of its closures lie in it. Runs that start in a whole memory, with
code and environment from there, leave a whole memory and yield a value from there.
-/

namespace ConstLang

namespace Memory

/-- The frames of the environment are there. -/
def Inside {β : Type} (m : Memory β) (env : Env) : Prop := ∀ i ∈ env, i < m.frames.size

structure Whole (m : Memory Code) : Prop where
  holds : m.Holds m.Gave
  bodies : ∀ (i : Nat) (c : Closure Code), m.closures[i]? = some c → c.body.Every m.Gave
  envs : ∀ (i : Nat) (c : Closure Code), m.closures[i]? = some c → m.Inside c.env

theorem Inside.later {β : Type} {m n : Memory β} {env : Env} (h : m.Inside env) (g : m.Later n) :
    n.Inside env :=
  fun i hi => Nat.lt_of_lt_of_le (h i hi) g.size_le

theorem inside_push {β : Type} {m : Memory β} {env : Env} (h : m.Inside env) (f : Frame) :
    (m.push f env).2.Inside (m.push f env).1 := by
  refine List.forall_mem_cons.mpr ⟨?_, fun i hi => ?_⟩
  · simp [push]
  · simpa [push] using Nat.lt_succ_of_lt (h i hi)

variable {m n : Memory Code}

theorem whole_empty : ({} : Memory Code).Whole := by
  refine ⟨fun i => ?_, by simp, by simp⟩
  have none : ({} : Memory Code).frame i = Frame.empty := by simp [frame]
  rw [none]
  exact Frame.holds_empty

namespace Whole

variable (h : m.Whole)

include h

/-- Memory that gets new frames or values, all of them given, and no closures. -/
theorem of_holds (g : m.Later n) (holds : n.Holds n.Gave) (closures : n.closures = m.closures) :
    n.Whole := by
  refine ⟨holds, fun i c hc => ?_, fun i c hc => ?_⟩
  · rw [closures] at hc
    exact (h.bodies i c hc).imp g.gave
  · rw [closures] at hc
    exact (h.envs i c hc).later g

theorem push {f : Frame} (hf : f.Holds m.Gave) (env : Env) : (m.push f env).2.Whole := by
  have g : m.Later (m.push f env).2 := m.grows_push _ f env
  exact h.of_holds g ((h.holds.push hf env).imp g.gave) rfl

theorem fresh : m.fresh.2.Whole := by
  have g : m.Later m.fresh.2 := m.grows_fresh _
  exact h.of_holds g (h.holds.imp g.gave) rfl

theorem write (text : String) : (m.write text).Whole :=
  h.of_holds (m.grows_write _ text) h.holds rfl

theorem close {c : Closure Code} (body : c.body.Every m.Gave) (env : m.Inside c.env)
    (params locals : List Value) : (m.close params locals c).2.Whole := by
  have g : m.Later (m.close params locals c).2 := m.grows_close _ params locals c
  have cases {i : Nat} {d : Closure Code}
      (hd : (m.close params locals c).2.closures[i]? = some d) :
      m.closures[i]? = some d ∨ d = c := by
    simp only [Memory.close, Array.getElem?_push] at hd
    split at hd
    · exact .inr (Option.some.inj hd).symm
    · exact .inl hd
  refine ⟨h.holds.imp g.gave, fun i d hd => ?_, fun i d hd => ?_⟩
  · rcases cases hd with old | rfl
    · exact (h.bodies i d old).imp g.gave
    · exact body.imp g.gave
  · rcases cases hd with old | rfl
    · exact (h.envs i d old).later g
    · exact env.later g

theorem fill {i : Nat} {x v : Value} (hv : v.Every m.Gave)
    (unassigned : (m.frame i).get? x = some none) : (m.fill i x v).Whole :=
  h.of_holds (grows_fill unassigned).later (h.holds.fill hv i x) rfl

end Whole
end Memory

namespace Eval

variable {α γ : Type} {m : Memory Code}

/-- However the computation ends, memory has only grown and is whole; and what it returns has the
property. -/
structure KeepsWhole (act : Eval Code α) (m : Memory Code) (P : α → Memory Code → Prop) : Prop where
  ends : act.Ends m (fun a n => m.Later n ∧ n.Whole ∧ P a n) (fun _ n => m.Later n ∧ n.Whole)

/-- The values that memory gave throughout. -/
def Obtained (v : Value) (m : Memory Code) : Prop := v.Every m.Gave

theorem keepsWhole_pure {P : α → Memory Code → Prop} {a : α} (whole : m.Whole) (h : P a m) :
    (pure a : Eval Code α).KeepsWhole m P :=
  ⟨⟨.refl _ m, whole, h⟩⟩

theorem keepsWhole_throw {P : α → Memory Code → Prop} (e : Fault) (whole : m.Whole) :
    (throw e : Eval Code α).KeepsWhole m P :=
  ⟨⟨.refl _ m, whole⟩⟩

theorem KeepsWhole.bind {act : Eval Code γ} {next : γ → Eval Code α} {P : γ → Memory Code → Prop}
    {Q : α → Memory Code → Prop} (h : act.KeepsWhole m P)
    (hn : ∀ c n, m.Later n → n.Whole → P c n → (next c).KeepsWhole n Q) :
    (act >>= next).KeepsWhole m Q := by
  refine ⟨h.ends.bind fun c n ⟨later, whole, hc⟩ => ?_⟩
  exact (hn c n later whole hc).ends.imp (fun _ _ h => ⟨later.trans h.1, h.2⟩)
    (fun _ _ h => ⟨later.trans h.1, h.2⟩)

theorem keepsWhole_ofExcept {P : α → Memory Code → Prop} {r : Except Fault α} (whole : m.Whole)
    (h : ∀ a, r = .ok a → P a m) : (ofExcept r : Eval Code α).KeepsWhole m P := by
  cases r with
  | ok a => exact keepsWhole_pure whole (h a rfl)
  | error e => exact keepsWhole_throw e whole

theorem keepsWhole_ofMishap {P : α → Memory Code → Prop} {r : Except Mishap α} (whole : m.Whole)
    (h : ∀ a, r = .ok a → P a m) : (ofMishap r : Eval Code α).KeepsWhole m P := by
  cases r with
  | ok a => exact keepsWhole_pure whole (h a rfl)
  | error e => exact keepsWhole_throw _ whole

theorem keepsWhole_lookup (whole : m.Whole) (x : Value) (env : Env) :
    (lookup x env).KeepsWhole m Obtained := by
  have found : (ofExcept (m.lookup x env)).KeepsWhole m Obtained :=
    keepsWhole_ofExcept whole fun _ found => whole.holds.lookup found
  exact ⟨found.ends⟩

theorem keepsWhole_assign {v : Value} (whole : m.Whole) (hv : v.Every m.Gave) (x : Value)
    (env : Env) : (assign x v env).KeepsWhole m (fun _ _ => True) := by
  constructor
  simp only [assign, ends_bind, ends_get, ends_ofExcept]
  split
  · rename_i i target
    obtain ⟨-, unassigned⟩ := Memory.target_eq_ok target
    exact ⟨(Memory.grows_fill unassigned).later, whole.fill hv unassigned, trivial⟩
  · exact ⟨.refl _ m, whole⟩

theorem keepsWhole_push {f : Frame} {env : Env} (whole : m.Whole) (hf : f.Holds m.Gave)
    (inside : m.Inside env) : (push f env).KeepsWhole m (fun env n => n.Inside env) :=
  ⟨⟨m.grows_push _ f env, whole.push hf env, Memory.inside_push inside f⟩⟩

theorem keepsWhole_fresh (whole : m.Whole) :
    (fresh : Eval Code Nat).KeepsWhole m (fun id n => id < n.serial) :=
  ⟨⟨m.grows_fresh _, whole.fresh, Nat.lt_succ_self _⟩⟩

theorem keepsWhole_mark {v : Value} (whole : m.Whole) (hv : v.Every m.Gave) :
    (mark v).KeepsWhole m Obtained := by
  unfold mark
  split
  · exact keepsWhole_pure whole hv
  · refine (keepsWhole_fresh whole).bind fun id n later whole hid => ?_
    exact keepsWhole_pure whole ⟨hid, hv.imp later.gave⟩

theorem keepsWhole_performOperation (whole : m.Whole) (op : Operation) {args : List Value}
    (hargs : ∀ x ∈ args, x.Every m.Gave) : (performOperation op args).KeepsWhole m Obtained := by
  refine (keepsWhole_fresh whole).bind fun id n later whole hid => ?_
  have performed : (ofExcept (op.perform id args)).KeepsWhole n
      (fun effect n => Obtained effect.value n) :=
    keepsWhole_ofExcept whole fun effect ok =>
      Operation.gave_perform (fun x hx => (hargs x hx).imp later.gave) hid ok
  refine performed.bind fun effect n _ whole hv => ?_
  split
  · exact ⟨⟨n.grows_write _ _, whole.write _, hv⟩⟩
  · exact keepsWhole_pure whole hv

theorem keepsWhole_enterScope {locals : List Value} {env : Env} (whole : m.Whole)
    (inside : m.Inside env) : (enterScope locals env).KeepsWhole m (fun env n => n.Inside env) := by
  refine (keepsWhole_ofMishap (P := fun f _ => Frame.unassigned locals = .ok f) whole
    fun f made => made).bind fun f n later whole made => ?_
  exact keepsWhole_push whole (Frame.holds_unassigned made) (inside.later later)

/-- Code and environment of a memory: the code has no identities but given ones, and the frames are
there. -/
def Runnable (c : Code) (env : Env) (m : Memory Code) : Prop := c.Every m.Gave ∧ m.Inside env

theorem Runnable.later {c : Code} {env : Env} {n : Memory Code} (h : Runnable c env m)
    (g : m.Later n) : Runnable c env n :=
  ⟨h.1.imp g.gave, h.2.later g⟩

theorem keepsWhole_enterCall {f : Value} {id : Nat} {params locals args : List Value}
    (whole : m.Whole) (hargs : ∀ x ∈ args, Obtained x m) :
    (enterCall f id params locals args).KeepsWhole m
      (fun entered n => Runnable entered.1 entered.2 n) := by
  have unchanged : m.Later m ∧ m.Whole := ⟨.refl _ m, whole⟩
  refine ⟨ends_enterCall (fun _ => unchanged) (fun _ => unchanged) (fun _ => unchanged) ?_⟩
  intro c frame hc _ hframe
  have later := m.grows_push (fun _ _ => True) frame c.env
  refine ⟨later, whole.push (Frame.holds_callSlots hframe hargs) c.env, ?_⟩
  exact ⟨(whole.bodies _ c hc).imp later.gave, Memory.inside_push (whole.envs _ c hc) frame⟩

section Parts

variable {exec : Code → Env → Eval Code Value}
  (hexec : ∀ c env m, m.Whole → Runnable c env m → (exec c env).KeepsWhole m Obtained)

include hexec

theorem keepsWhole_runAll {cs : List Code} {env : Env} (whole : m.Whole)
    (h : ∀ c ∈ cs, Runnable c env m) :
    (runAll exec cs env).KeepsWhole m (fun vs n => ∀ v ∈ vs, Obtained v n) := by
  induction cs generalizing m with
  | nil => exact keepsWhole_pure whole (by simp)
  | cons c cs ih =>
      obtain ⟨hc, hcs⟩ := List.forall_mem_cons.mp h
      refine (hexec c env m whole hc).bind fun v n later whole hv => ?_
      refine (ih whole fun d hd => (hcs d hd).later later).bind fun vs k later whole hvs => ?_
      exact keepsWhole_pure whole (List.forall_mem_cons.mpr ⟨hv.imp later.gave, hvs⟩)

theorem keepsWhole_runStatements {v : Value} {cs : List Code} {env : Env} (whole : m.Whole)
    (hv : Obtained v m) (h : ∀ c ∈ cs, Runnable c env m) :
    (runStatements exec v cs env).KeepsWhole m Obtained := by
  induction cs generalizing m v with
  | nil => exact keepsWhole_pure whole hv
  | cons c cs ih =>
      obtain ⟨hc, hcs⟩ := List.forall_mem_cons.mp h
      refine (hexec c env m whole hc).bind fun w n later whole hw => ?_
      split
      · exact keepsWhole_pure whole hw
      · exact ih whole hw fun d hd => (hcs d hd).later later

theorem keepsWhole_call {f : Value} {args : List Value} (whole : m.Whole)
    (hargs : ∀ x ∈ args, Obtained x m) : (call exec f args).KeepsWhole m Obtained := by
  unfold call
  split
  · exact keepsWhole_performOperation whole _ hargs
  · refine (keepsWhole_enterCall whole hargs).bind fun entered n _ whole runnable => ?_
    refine (hexec entered.1 entered.2 n whole runnable).bind fun v n _ whole hv => ?_
    refine keepsWhole_pure whole ?_
    cases v with
    | marker _ _ => exact hv.2
    | _ => trivial
  · exact keepsWhole_throw _ whole

theorem keepsWhole_step {c : Code} {env : Env} (whole : m.Whole) (h : Runnable c env m) :
    (c.step exec env).KeepsWhole m Obtained := by
  have inside := h.2
  cases c with
  | literal v => exact keepsWhole_pure whole h.1
  | name x => exact keepsWhole_lookup whole _ env
  | declare x c =>
      refine (hexec c env m whole ⟨h.1.2, inside⟩).bind fun v n later whole hv => ?_
      refine (keepsWhole_assign whole hv x env).bind fun _ k _ whole _ => ?_
      exact keepsWhole_pure whole trivial
  | select p c a =>
      refine (hexec p env m whole ⟨h.1.1, inside⟩).bind fun v n later whole hv => ?_
      split
      · exact hexec c env n whole (Runnable.later ⟨h.1.2.1, inside⟩ later)
      · exact hexec a env n whole (Runnable.later ⟨h.1.2.2, inside⟩ later)
  | close params locals body =>
      obtain ⟨hparams, hlocals, hbody⟩ := h.1
      have later := m.grows_close (fun _ _ => True) params locals ⟨body, env⟩
      refine ⟨⟨later, whole.close hbody inside params locals, ?_, hparams.imp later.gave,
        hlocals.imp later.gave⟩⟩
      simp [Memory.Gave]
  | sequence cs =>
      exact keepsWhole_runStatements hexec whole trivial
        fun c hc => ⟨everyCode_iff.mp h.1 c hc, inside⟩
  | enter locals body =>
      refine (keepsWhole_enterScope whole inside).bind fun inner n later whole inside => ?_
      exact hexec body inner n whole ⟨h.1.2.imp later.gave, inside⟩
  | returning c =>
      have runnable : Runnable c env m := ⟨h.1, inside⟩
      exact (hexec c env m whole runnable).bind fun v n _ whole hv => keepsWhole_mark whole hv
  | apply f xs =>
      refine (hexec f env m whole ⟨h.1.1, inside⟩).bind fun g n later whole hg => ?_
      have operands (x : Code) (hx : x ∈ xs) : Runnable x env n :=
        Runnable.later ⟨everyCode_iff.mp h.1.2 x hx, inside⟩ later
      refine (keepsWhole_runAll hexec whole operands).bind fun args k later whole hargs => ?_
      exact keepsWhole_call hexec whole hargs

end Parts

theorem keepsWhole_run (depth : Nat) {c : Code} {env : Env} (whole : m.Whole)
    (h : Runnable c env m) : (run depth c env).KeepsWhole m Obtained := by
  induction depth generalizing m c env with
  | zero => exact keepsWhole_throw _ whole
  | succ depth ih => exact keepsWhole_step (fun c env m whole h => ih whole h) whole h

end Eval
end ConstLang
