import ConstLang.Proofs.Growth
import ConstLang.Proofs.Renaming.Given
import ConstLang.Run

/-!
Two runs side by side. A comparison says which memories and bodies are counterparts, how
identities are renamed from one side to the other, and what has to be known of functions;
what bodies and values are in two memories, they are in all later ones. Two computations
agree if they end alike, in memories that are counterparts again. A fault of the first may be
excused, and then nothing is asked of the second.

For operations, markers and calls the rules are the same in every comparison.
-/

namespace ConstLang

variable {β β' α α' γ γ' : Type}

structure Comparison (β β' : Type) where
  memories : Memory β → Memory β' → Prop
  /-- What the second side has for what the first side has. -/
  ρ : Renaming
  /-- What has to be known of a value itself, on the first side. -/
  known : Memory β → Memory β' → Value → Prop
  /-- Bodies that are counterparts in the environments they run in. -/
  bodies : Memory β → Memory β' → β → Env → β' → Env → Prop
  /-- The faults that may be met. -/
  expects : Fault → Prop
  excused : Fault → Prop
  fresh : ∀ {m m'}, memories m m' → memories m.fresh.2 m'.fresh.2 ∧ m'.serial = ρ.identity m.serial
  write : ∀ {m m'}, memories m m' → ∀ text, memories (m.write text) (m'.write text)
  known_of_not_function : ∀ {m m'} {v : Value}, v.isFunction = false → known m m' v
  known_later : ∀ {m m' n n' v}, m.Later n → m'.Later n' → known m m' v → known n n' v
  bodies_later : ∀ {m m' n n' b e b' e'}, m.Later n → m'.Later n' → bodies m m' b e b' e' →
    bodies n n' b e b' e'
  expects_of_kind : ∀ {e : Fault}, e.kind ≠ .unbound → expects e

namespace Comparison

variable (K : Comparison β β')

/-- Values that are counterparts. -/
def values (m : Memory β) (m' : Memory β') (v v' : Value) : Prop :=
  v' = v.rename K.ρ ∧ v.Every (K.known m m')

theorem values_undefined (m : Memory β) (m' : Memory β') : K.values m m' .undefined .undefined :=
  ⟨rfl, K.known_of_not_function rfl⟩

/-- Two ends that agree, in what is yielded and in memory. -/
inductive Ended (m : Memory β) (m' : Memory β')
    (yields : Memory β → Memory β' → α → α' → Prop) :
    EStateM.Result Fault (Memory β) α → EStateM.Result Fault (Memory β') α' → Prop
  | ok {a : α} {a' : α'} {n : Memory β} {n' : Memory β'} :
      m.Later n → m'.Later n' → K.memories n n' → yields n n' a a' →
      Ended m m' yields (.ok a n) (.ok a' n')
  | error {e e' : Fault} {n : Memory β} {n' : Memory β'} :
      e' = e.rename K.ρ → K.expects e → K.memories n n' →
      Ended m m' yields (.error e n) (.error e' n')
  | excused {e : Fault} {n : Memory β} {r : EStateM.Result Fault (Memory β') α'} :
      K.excused e → Ended m m' yields (.error e n) r

/-- The computations, started in two memories, agree. -/
def Agree (m : Memory β) (m' : Memory β') (yields : Memory β → Memory β' → α → α' → Prop)
    (act : Eval β α) (act' : Eval β' α') : Prop :=
  K.Ended m m' yields (act m) (act' m')

/-- One way of executing bodies agrees with another, for all bodies that are counterparts. -/
def Follows (exec : β → Env → Eval β Value) (exec' : β' → Env → Eval β' Value) : Prop :=
  ∀ m m' b env b' env', K.memories m m' → K.bodies m m' b env b' env' →
    K.Agree m m' K.values (exec b env) (exec' b' env')

variable {K} {m : Memory β} {m' : Memory β'} {yields : Memory β → Memory β' → α → α' → Prop}
  {passes : Memory β → Memory β' → γ → γ' → Prop}

theorem agree_pure {a : α} {a' : α'} (hm : K.memories m m') (h : yields m m' a a') :
    K.Agree m m' yields (pure a) (pure a') :=
  .ok (.refl _ m) (.refl _ m') hm h

theorem agree_throw {e e' : Fault} (hm : K.memories m m') (he : e' = e.rename K.ρ)
    (kind : e.kind ≠ .unbound) : K.Agree m m' yields (throw e) (throw e') :=
  .error he (K.expects_of_kind kind) hm

theorem Agree.bind {act : Eval β γ} {act' : Eval β' γ'} {next : γ → Eval β α}
    {next' : γ' → Eval β' α'} (h : K.Agree m m' passes act act')
    (hn : ∀ c c' n n', m.Later n → m'.Later n' → K.memories n n' → passes n n' c c' →
      K.Agree n n' yields (next c) (next' c')) :
    K.Agree m m' yields (act >>= next) (act' >>= next') := by
  unfold Agree at *
  simp only [Bind.bind, EStateM.bind]
  generalize act m = r, act' m' = r' at h
  cases h with
  | @ok c c' n n' later later' hm hc =>
      have rest := hn c c' n n' later later' hm hc
      dsimp only
      generalize next c n = r, next' c' n' = r' at rest
      cases rest with
      | ok l l' hm hv => exact .ok (later.trans l) (later'.trans l') hm hv
      | error he expected hm => exact .error he expected hm
      | excused he => exact .excused he
  | error he expected hm => exact .error he expected hm
  | excused he => exact .excused he

theorem agree_ofMishap {on : α → α'} {r : Except Mishap α} {r' : Except Mishap α'}
    (hm : K.memories m m') (hr : r' = r.map on) (hy : ∀ a, r = .ok a → yields m m' a (on a)) :
    K.Agree m m' yields (Eval.ofMishap r) (Eval.ofMishap r') := by
  subst hr
  cases r with
  | ok a => exact agree_pure hm (hy a rfl)
  | error e => exact agree_throw hm rfl (by simp [Fault.kind])

section Values

variable {v v' : Value}

theorem values.later {n : Memory β} {n' : Memory β'} (h : K.values m m' v v') (g : m.Later n)
    (g' : m'.Later n') : K.values n n' v v' :=
  ⟨h.1, h.2.imp fun _ hv => K.known_later g g' hv⟩

theorem values.isMarker_eq (h : K.values m m' v v') : v'.isMarker = v.isMarker := by
  rw [h.1, Value.isMarker_rename]

theorem values.isTrue_eq (h : K.values m m' v v') : v'.isTrue = v.isTrue := by
  rw [h.1]
  cases v <;> rfl

theorem values.returned (h : K.values m m' v v') : K.values m m' v.returned v'.returned := by
  obtain ⟨rfl, known⟩ := h
  cases v with
  | marker id content => exact ⟨rfl, known.2⟩
  | _ => exact K.values_undefined m m'

/-- Lists of values that are counterparts. -/
theorem forall₂_values {vs vs' : List Value} (h : List.Forall₂ (K.values m m') vs vs') :
    vs' = vs.map (Value.rename K.ρ) ∧ ∀ v ∈ vs, v.Every (K.known m m') := by
  induction h with
  | nil => exact ⟨rfl, by simp⟩
  | cons hv _ ih =>
      obtain ⟨rfl, known⟩ := hv
      exact ⟨by rw [ih.1, List.map_cons], List.forall_mem_cons.mpr ⟨known, ih.2⟩⟩

theorem agree_fresh (hm : K.memories m m') :
    K.Agree m m' (fun _ _ id id' => id' = K.ρ.identity id) Eval.fresh Eval.fresh :=
  .ok (m.grows_fresh _) (m'.grows_fresh _) (K.fresh hm).1 (K.fresh hm).2

theorem agree_mark (hm : K.memories m m') (hv : K.values m m' v v') :
    K.Agree m m' K.values (mark v) (mark v') := by
  obtain ⟨rfl, known⟩ := hv
  cases v with
  | marker id content => exact agree_pure hm ⟨rfl, known⟩
  | _ =>
      refine (agree_fresh hm).bind fun id id' n n' later later' hn hid => ?_
      refine agree_pure hn ⟨by simp [hid], K.known_of_not_function rfl, ?_⟩
      exact known.imp fun _ hv => K.known_later later later' hv

theorem agree_performOperation {args args' : List Value} (hm : K.memories m m')
    (hargs : List.Forall₂ (K.values m m') args args') (op : Operation) :
    K.Agree m m' K.values (performOperation op args) (performOperation op args') := by
  obtain ⟨rfl, known⟩ := forall₂_values hargs
  refine (agree_fresh hm).bind fun id id' n n' later later' hn hid => ?_
  subst hid
  have performed : K.Agree n n'
      (fun n n' effect effect' => effect' = Effect.rename K.ρ effect ∧
        effect.value.Every (K.known n n'))
      (Eval.ofExcept (op.perform id args))
      (Eval.ofExcept (op.perform (K.ρ.identity id) (args.map (Value.rename K.ρ)))) := by
    rw [op.perform_rename K.ρ id args]
    cases made : op.perform id args with
    | ok effect =>
        refine agree_pure hn ⟨rfl, Value.every_perform (fun v hv => ?_) (fun x hx => ?_) made⟩
        · exact K.known_of_not_function (by cases v <;> simp_all [Value.isMade, Value.isFunction])
        · exact (known x hx).imp fun _ hv => K.known_later later later' hv
    | error e =>
        refine agree_throw hn rfl ?_
        rcases Operation.perform_eq_error made with ⟨_, rfl⟩ | ⟨_, rfl⟩ <;> simp [Fault.kind]
  refine performed.bind fun effect effect' k k' _ _ hk heffect => ?_
  obtain ⟨rfl, known⟩ := heffect
  obtain ⟨value, written⟩ := effect
  cases written with
  | none => exact agree_pure hk ⟨rfl, known⟩
  | some text =>
      have g : k.Later (k.write text) := k.grows_write _ text
      have g' : k'.Later (k'.write text) := k'.grows_write _ text
      exact .ok g g' (K.write hk text) (values.later ⟨rfl, known⟩ g g')

end Values

section Parts

variable {exec : β → Env → Eval β Value} {exec' : β' → Env → Eval β' Value}
  (hexec : K.Follows exec exec')

include hexec

theorem agree_runAll {bs : List β} {bs' : List β'} {env env' : Env} (hm : K.memories m m')
    (h : List.Forall₂ (fun b b' => K.bodies m m' b env b' env') bs bs') :
    K.Agree m m' (fun n n' => List.Forall₂ (K.values n n')) (runAll exec bs env)
      (runAll exec' bs' env') := by
  induction bs generalizing bs' m m' with
  | nil =>
      cases h
      exact agree_pure hm .nil
  | cons b bs ih =>
      obtain ⟨b', bs', hb, hbs, rfl⟩ := List.forall₂_cons_left_iff.mp h
      refine (hexec m m' b env b' env' hm hb).bind fun v v' n n' later later' hn hv => ?_
      have rest := hbs.imp fun _ _ h => K.bodies_later later later' h
      refine (ih hn rest).bind fun vs vs' k k' later later' hk hvs => ?_
      exact agree_pure hk (.cons (hv.later later later') hvs)

theorem agree_runStatements {v v' : Value} {bs : List β} {bs' : List β'} {env env' : Env}
    (hm : K.memories m m') (hv : K.values m m' v v')
    (h : List.Forall₂ (fun b b' => K.bodies m m' b env b' env') bs bs') :
    K.Agree m m' K.values (runStatements exec v bs env) (runStatements exec' v' bs' env') := by
  induction bs generalizing bs' m m' v v' with
  | nil =>
      cases h
      exact agree_pure hm hv
  | cons b bs ih =>
      obtain ⟨b', bs', hb, hbs, rfl⟩ := List.forall₂_cons_left_iff.mp h
      refine (hexec m m' b env b' env' hm hb).bind fun w w' n n' later later' hn hw => ?_
      rw [hw.isMarker_eq]
      split
      · exact agree_pure hn hw
      · exact ih hn hw (hbs.imp fun _ _ h => K.bodies_later later later' h)

theorem agree_select {p c a : β} {p' c' a' : β'} {env env' : Env} (hm : K.memories m m')
    (hp : K.bodies m m' p env p' env') (hc : K.bodies m m' c env c' env')
    (ha : K.bodies m m' a env a' env') :
    K.Agree m m' K.values (do if (← exec p env).isTrue then exec c env else exec a env)
      (do if (← exec' p' env').isTrue then exec' c' env' else exec' a' env') := by
  refine (hexec m m' p env p' env' hm hp).bind fun v v' n n' later later' hn hv => ?_
  rw [hv.isTrue_eq]
  split
  · exact hexec n n' c env c' env' hn (K.bodies_later later later' hc)
  · exact hexec n n' a env a' env' hn (K.bodies_later later later' ha)

/-- A call, if functions are entered alike on both sides. -/
theorem agree_call {f f' : Value} {args args' : List Value} (hm : K.memories m m')
    (hf : K.values m m' f f') (hargs : List.Forall₂ (K.values m m') args args')
    (enters : ∀ id params locals, K.known m m' (.function id params locals) →
      (∀ x ∈ args, x.Every (K.known m m')) →
      K.Agree m m'
        (fun n n' entered entered' => K.bodies n n' entered.1 entered.2 entered'.1 entered'.2)
        (enterCall (.function id params locals) id params locals args)
        (enterCall ((Value.function id params locals).rename K.ρ) (K.ρ.closure id)
          (params.map (Value.rename K.ρ)) (locals.map (Value.rename K.ρ))
          (args.map (Value.rename K.ρ)))) :
    K.Agree m m' K.values (call exec f args) (call exec' f' args') := by
  obtain ⟨rfl, known⟩ := hf
  cases f with
  | primitive _ _ op => exact agree_performOperation hm hargs op
  | function id params locals =>
      obtain ⟨rfl, knownArgs⟩ := forall₂_values hargs
      have entered := enters id params locals known.1 knownArgs
      simp only [call, Value.rename, renameItems_eq_map] at entered ⊢
      refine entered.bind fun called called' n n' _ _ hn hb => ?_
      refine (hexec n n' called.1 called.2 called'.1 called'.2 hn hb).bind
        fun v v' k k' _ _ hk hv => agree_pure hk hv.returned
  | _ => exact agree_throw hm rfl (by simp [Fault.kind])

end Parts

end Comparison
end ConstLang
