import ConstLang.Call

/-!
How computations end. What a computation did to memory stays done when it fails,
so a statement about its end speaks of both ways out: of the value and memory it
returns with, and of the fault and memory it fails with.
-/

namespace ConstLang

theorem except_bind_eq_ok {ε α γ : Type} {r : Except ε α} {next : α → Except ε γ} {c : γ} :
    (r >>= next) = .ok c ↔ ∃ a, r = .ok a ∧ next a = .ok c := by
  cases r <;> simp [bind, Except.bind]

theorem except_pure_eq_ok {ε α : Type} {a b : α} : (pure a : Except ε α) = .ok b ↔ b = a := by
  simp [pure, Except.pure, eq_comm]

theorem liftMishap_eq_ok {α : Type} {r : Except Mishap α} {a : α} :
    liftMishap r = .ok a ↔ r = .ok a := by
  cases r <;> simp [liftMishap]

theorem Memory.lookupIn_eq_error {β : Type} {m : Memory β} {x : Value} {env : Env} {e : Fault}
    (h : m.lookupIn x env = .error e) : e = .unbound x ∨ e = .unassigned x := by
  induction env with
  | nil => cases h; simp
  | cons i env ih =>
      simp only [lookupIn] at h
      split at h
      · cases h
      · cases h; simp
      · exact ih h

/-- A lookup fails because no frame has the name, because its slot is unassigned, or because the value
cannot be a name. -/
theorem Memory.lookup_eq_error {β : Type} {m : Memory β} {x : Value} {env : Env} {e : Fault}
    (h : m.lookup x env = .error e) : e = .unbound x ∨ e = .unassigned x ∨ e = .mishap .kind := by
  unfold lookup at h
  split at h
  · exact (lookupIn_eq_error h).imp_right .inl
  · cases h; simp

/-- A declaration finds no target because there is no slot, because the slot has a value already, or
because the value cannot be a name. -/
theorem Memory.target_eq_error {β : Type} {m : Memory β} {x : Value} {env : Env} {e : Fault}
    (h : m.target x env = .error e) : e = .noSlot x ∨ e = .slotTaken x ∨ e = .mishap .kind := by
  unfold target at h
  repeat' split at h
  all_goals cases h <;> simp

/-- An operation fails by a mishap, or with the text of the program. -/
theorem Operation.perform_eq_error {op : Operation} {id : Nat} {args : List Value} {e : Fault}
    (h : op.perform id args = .error e) : (∃ m, e = .mishap m) ∨ ∃ text, e = .program text := by
  have lifted {α : Type} {r : Except Mishap α} (h : liftMishap r = .error e) :
      ∃ m, e = .mishap m := by
    cases r with
    | ok a => cases h
    | error m => exact ⟨m, (Except.error.inj h).symm⟩
  unfold Operation.perform at h
  split at h
  all_goals
    simp only [bind, Except.bind] at h
    split at h
    · cases h
      exact .inl (lifted ‹_›)
    · cases h <;> simp

namespace Eval

variable {β β' α α' γ γ' : Type}

/-- The memory that a computation leaves, whether it returns or fails. -/
def after (act : Eval β α) (m : Memory β) : Memory β :=
  match act m with
  | .ok _ m' | .error _ m' => m'

/-- The fault that a computation fails with, if it does. -/
def fault? (act : Eval β α) (m : Memory β) : Option Fault :=
  match act m with
  | .ok _ _ => none
  | .error e _ => some e

theorem fault?_eq_some {act : Eval β α} {m : Memory β} {e : Fault} :
    act.fault? m = some e ↔ ∃ m', act m = .error e m' := by
  unfold fault?
  cases act m <;> simp

theorem bind_of_ok {act : Eval β γ} {m m' : Memory β} {c : γ} (h : act m = .ok c m')
    (next : γ → Eval β α) : (act >>= next) m = next c m' := by
  simp only [bind, EStateM.bind, h]

theorem bind_of_error {act : Eval β γ} {m m' : Memory β} {e : Fault} (h : act m = .error e m')
    (next : γ → Eval β α) : (act >>= next) m = .error e m' := by
  simp only [bind, EStateM.bind, h]

theorem get_bind (next : Memory β → Eval β α) (m : Memory β) : (get >>= next) m = next m m := rfl

theorem bind_eq_ok {act : Eval β γ} {next : γ → Eval β α} {m m' : Memory β} {a : α} :
    (act >>= next) m = .ok a m' ↔ ∃ c n, act m = .ok c n ∧ next c n = .ok a m' := by
  simp only [bind, EStateM.bind]
  cases act m <;> simp [and_assoc]

theorem ofExcept_ok (a : α) : (ofExcept (.ok a) : Eval β α) = pure a := rfl

theorem ofMishap_ok (a : α) : (ofMishap (.ok a) : Eval β α) = pure a := rfl

theorem lookup_apply (x : Value) (env : Env) (m : Memory β) :
    lookup x env m =
      match m.lookup x env with
      | .ok v => .ok v m
      | .error e => .error e m := by
  rw [lookup, get_bind]
  cases m.lookup x env <;> rfl

theorem assign_apply (x v : Value) (env : Env) (m : Memory β) :
    assign x v env m =
      match m.target x env with
      | .ok i => .ok () (m.fill i x v)
      | .error e => .error e m := by
  rw [assign, get_bind]
  cases m.target x env <;> rfl

/-- A call is entered with as many arguments as parameters, by a function whose closure is there and
whose names can be names. -/
theorem enterCall_apply (f : Value) (id : Nat) (params locals args : List Value) (m : Memory β) :
    enterCall f id params locals args m =
      if args.length = params.length then
        match m.closures[id]? with
        | none => .error (.unknownFunction f) m
        | some c =>
            match Frame.ofSlots (callSlots params locals args) with
            | .error e => .error (.mishap e) m
            | .ok frame => .ok (c.body, m.frames.size :: c.env) (m.push frame c.env).2
      else .error (.arity params.length args.length) m := by
  unfold enterCall
  by_cases hlen : args.length = params.length
  · simp only [hlen, ne_eq, not_true_eq_false, if_false, if_true]
    rw [get_bind]
    cases hc : m.closures[id]? with
    | none => rfl
    | some c =>
        dsimp only
        cases Frame.ofSlots (callSlots params locals args) <;> rfl
  · simp only [hlen, ne_eq, not_false_eq_true, if_true, if_false]
    rfl

/-- What holds when a computation ends: `returned` if it returns, and `failed` if it fails. -/
def Ends (act : Eval β α) (m : Memory β) (returned : α → Memory β → Prop)
    (failed : Fault → Memory β → Prop) : Prop :=
  match act m with
  | .ok a m' => returned a m'
  | .error e m' => failed e m'

section Ends

variable {m : Memory β} {returned : α → Memory β → Prop} {failed : Fault → Memory β → Prop}

@[simp] theorem ends_pure (a : α) : (pure a : Eval β α).Ends m returned failed ↔ returned a m :=
  Iff.rfl

@[simp] theorem ends_throw (e : Fault) :
    (throw e : Eval β α).Ends m returned failed ↔ failed e m :=
  Iff.rfl

@[simp] theorem ends_get {returned : Memory β → Memory β → Prop} :
    (get : Eval β (Memory β)).Ends m returned failed ↔ returned m m :=
  Iff.rfl

/-- A chain of two computations ends as the second does, unless the first one fails. -/
@[simp] theorem ends_bind (act : Eval β γ) (next : γ → Eval β α) :
    (act >>= next).Ends m returned failed ↔
      act.Ends m (fun c m' => (next c).Ends m' returned failed) failed := by
  simp only [Ends, bind, EStateM.bind]
  cases act m <;> rfl

theorem Ends.of_ok {act : Eval β α} (h : act.Ends m returned failed) {a : α} {m' : Memory β}
    (ended : act m = .ok a m') : returned a m' := by
  rwa [Ends, ended] at h

theorem Ends.of_error {act : Eval β α} (h : act.Ends m returned failed) {e : Fault}
    {m' : Memory β} (ended : act m = .error e m') : failed e m' := by
  rwa [Ends, ended] at h

theorem Ends.imp {act : Eval β α} {returned' : α → Memory β → Prop}
    {failed' : Fault → Memory β → Prop} (h : act.Ends m returned failed)
    (hr : ∀ a m', returned a m' → returned' a m') (hf : ∀ e m', failed e m' → failed' e m') :
    act.Ends m returned' failed' := by
  unfold Ends at *
  split at h
  · exact hr _ _ h
  · exact hf _ _ h

theorem Ends.mono {act : Eval β α} {returned' : α → Memory β → Prop}
    (h : act.Ends m returned failed) (hr : ∀ a m', returned a m' → returned' a m') :
    act.Ends m returned' failed :=
  h.imp hr fun _ _ he => he

theorem Ends.bind {act : Eval β γ} {next : γ → Eval β α} {passed : γ → Memory β → Prop}
    (h : act.Ends m passed failed)
    (hn : ∀ c m', passed c m' → (next c).Ends m' returned failed) :
    (act >>= next).Ends m returned failed := by
  rw [ends_bind]
  exact h.mono hn

theorem Ends.and {act : Eval β α} {returned' : α → Memory β → Prop}
    {failed' : Fault → Memory β → Prop} (h : act.Ends m returned failed)
    (h' : act.Ends m returned' failed') :
    act.Ends m (fun a n => returned a n ∧ returned' a n) (fun e n => failed e n ∧ failed' e n) := by
  unfold Ends at *
  split at h
  · rename_i a n ended
    exact ⟨h, by simpa [ended] using h'⟩
  · rename_i e n ended
    exact ⟨h, by simpa [ended] using h'⟩

theorem ends_after {act : Eval β α} {property : Memory β → Prop}
    (h : act.Ends m (fun _ => property) (fun _ => property)) : property (act.after m) := by
  unfold Ends at h
  unfold after
  split <;> simp_all

theorem ends_ofExcept (r : Except Fault α) :
    (ofExcept r : Eval β α).Ends m returned failed ↔
      match r with
      | .ok a => returned a m
      | .error e => failed e m := by
  cases r <;> rfl

theorem ends_ofMishap (r : Except Mishap α) :
    (ofMishap r : Eval β α).Ends m returned failed ↔
      match r with
      | .ok a => returned a m
      | .error e => failed (.mishap e) m := by
  cases r <;> rfl

@[simp] theorem ends_fresh {returned : Nat → Memory β → Prop} :
    (fresh : Eval β Nat).Ends m returned failed ↔ returned m.serial m.fresh.2 :=
  Iff.rfl

@[simp] theorem ends_write (text : String) {returned : Unit → Memory β → Prop} :
    (write text : Eval β Unit).Ends m returned failed ↔ returned () (m.write text) :=
  Iff.rfl

@[simp] theorem ends_push (f : Frame) (env : Env) {returned : Env → Memory β → Prop} :
    (push f env : Eval β Env).Ends m returned failed ↔
      returned (m.frames.size :: env) (m.push f env).2 :=
  Iff.rfl

theorem ends_enterCall {f : Value} {id : Nat} {params locals args : List Value}
    {returned : β × Env → Memory β → Prop}
    (arity : args.length ≠ params.length → failed (.arity params.length args.length) m)
    (unknown : m.closures[id]? = none → failed (.unknownFunction f) m)
    (unfit : ∀ e, failed (.mishap e) m)
    (entered : ∀ c frame, m.closures[id]? = some c → args.length = params.length →
      Frame.ofSlots (callSlots params locals args) = .ok frame →
      returned (c.body, m.frames.size :: c.env) (m.push frame c.env).2) :
    (enterCall f id params locals args).Ends m returned failed := by
  rw [Ends, enterCall_apply]
  by_cases hlen : args.length = params.length
  · cases hc : m.closures[id]? with
    | none => simpa [hlen] using unknown hc
    | some c =>
        cases hf : Frame.ofSlots (callSlots params locals args) with
        | error e => simpa [hlen] using unfit e
        | ok frame => simpa [hlen] using entered c frame hc hlen hf
  · simpa [hlen] using arity hlen

end Ends

/-- Two ends that correspond: both return or both fail, with values or faults that correspond, and
leave memories that do. -/
inductive Corresponds (values : α → α' → Prop) (faults : Fault → Fault → Prop)
    (memories : Memory β → Memory β' → Prop) :
    EStateM.Result Fault (Memory β) α → EStateM.Result Fault (Memory β') α' → Prop
  | ok {a : α} {a' : α'} {m : Memory β} {m' : Memory β'} :
      values a a' → memories m m' → Corresponds values faults memories (.ok a m) (.ok a' m')
  | error {e e' : Fault} {m : Memory β} {m' : Memory β'} :
      faults e e' → memories m m' → Corresponds values faults memories (.error e m) (.error e' m')

section Corresponds

variable {values : α → α' → Prop} {steps : γ → γ' → Prop} {faults : Fault → Fault → Prop}
  {memories : Memory β → Memory β' → Prop}

theorem Corresponds.bind {act : Eval β γ} {act' : Eval β' γ'} {next : γ → Eval β α}
    {next' : γ' → Eval β' α'} {m : Memory β} {m' : Memory β'}
    (h : Corresponds steps faults memories (act m) (act' m'))
    (hn : ∀ c c' m m', steps c c' → memories m m' →
      Corresponds values faults memories (next c m) (next' c' m')) :
    Corresponds values faults memories ((act >>= next) m) ((act' >>= next') m') := by
  simp only [Bind.bind, EStateM.bind]
  generalize act m = r, act' m' = r' at h
  cases h with
  | ok hv hm => exact hn _ _ _ _ hv hm
  | error he hm => exact .error he hm

end Corresponds

end Eval
end ConstLang
