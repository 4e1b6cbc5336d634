import ConstLang.Proofs.Comparison
import ConstLang.Proofs.Names
import ConstLang.Proofs.Renaming.Memory
import ConstLang.Proofs.Whole

/-!
Memories of two runs in parallel. The runs start in two memories of which the second has
grown out of the first, in environments that answer alike for some names. What one run
makes, the other makes too, at the places and with the identities that come next in its
memory; what was there before, the runs only read. A closure that was made on the way is
looked at through the names that are free in it, so the environments of a closure and its
counterpart may have old frames of different kinds underneath.
-/

namespace ConstLang

mutual

/-- The code refers to the name, and no scope inside the code has it. -/
def Code.Free (x : String) : Code → Prop
  | .literal _ => False
  | .name y => y = x
  | .declare _ c => c.Free x
  | .select p c a => p.Free x ∨ c.Free x ∨ a.Free x
  | .close params locals body => body.Free x ∧ .text x ∉ params ++ locals
  | .sequence cs => FreeInAny x cs
  | .enter locals body => body.Free x ∧ .text x ∉ locals
  | .returning c => c.Free x
  | .apply f xs => f.Free x ∨ FreeInAny x xs

def FreeInAny (x : String) : List Code → Prop
  | [] => False
  | c :: cs => c.Free x ∨ FreeInAny x cs

end

theorem freeInAny_iff {x : String} {cs : List Code} : FreeInAny x cs ↔ ∃ c ∈ cs, c.Free x := by
  induction cs with
  | nil => simp [FreeInAny]
  | cons c cs ih => simp [FreeInAny, ih]

/-- Where two runs start. Names have the same values in both memories, unless the first run gets
a fault that is excused. -/
structure Origin where
  left : Memory Code
  right : Memory Code
  excused : Fault → Prop
  whole : left.Whole
  later : left.Later right
  output : right.output = left.output
  same : ∀ (x : String) (env : Env), left.Inside env →
    right.lookup (.text x) env = left.lookup (.text x) env ∨
      ∃ e, left.lookup (.text x) env = .error e ∧ excused e

namespace Origin

variable (o : Origin)

/-- What the second run gives out for what the first one gives out. -/
def ρ : Renaming := .between o.left o.right

/-- The two environments, from before the runs, answer alike for the name. -/
def Answers (x : String) (env env' : Env) : Prop :=
  o.right.lookup (.text x) env' = o.left.lookup (.text x) env ∨
    ∃ e, o.left.lookup (.text x) env = .error e ∧ o.excused e

/-- Two environments that look alike through the names of `X`: new frames that are counterparts, and
under them old frames that answer alike for the names that no new frame has. -/
inductive Sees (m : Memory Code) : (String → Prop) → Env → Env → Prop
  | old {X : String → Prop} {env env' : Env} :
      o.left.Inside env → o.right.Inside env' → (∀ x, X x → o.Answers x env env') →
      Sees m X env env'
  | new {X : String → Prop} {i : Nat} {env env' : Env} :
      o.left.frames.size ≤ i → i < m.frames.size →
      Sees m (fun x => X x ∧ .text x ∉ (m.frame i).names) env env' →
      Sees m X (i :: env) (o.ρ.frame i :: env')

/-- A function is known if it has a counterpart with the same body, and the environments look alike
through the names that are free in the function. -/
def Known (m m' : Memory Code) : Value → Prop
  | .function id params locals =>
      ∃ c c' : Closure Code, m.closures[id]? = some c ∧
        m'.closures[o.ρ.closure id]? = some c' ∧ c'.body = c.body ∧
        o.Sees m (fun x => c.body.Free x ∧ .text x ∉ params ++ locals) c.env c'.env
  | _ => True

/-- The memories of two runs that have come equally far. -/
structure Parallel (m m' : Memory Code) : Prop where
  left : o.left.Grows (fun _ _ => False) m
  right : o.right.Grows (fun _ _ => False) m'
  frames : ∀ i, o.left.frames.size ≤ i →
    m'.frames[o.ρ.frame i]? = m.frames[i]?.map (Frame.rename o.ρ)
  nextFrame : ∀ k, o.ρ.frame (m.frames.size + k) = m'.frames.size + k
  nextClosure : ∀ k, o.ρ.closure (m.closures.size + k) = m'.closures.size + k
  nextIdentity : ∀ k, o.ρ.identity (m.serial + k) = m'.serial + k
  output : m'.output = m.output
  holds : m.Holds (o.Known m m')
  bodies : ∀ (i : Nat) (c : Closure Code), m.closures[i]? = some c → c.body.Every o.left.Gave

variable {o} {m m' n n' : Memory Code} {X Y : String → Prop} {env env' : Env}

theorem leaves : o.ρ.Leaves o.left := Renaming.leaves_between _ _

variable (o) in
/-- The counterparts of new frames are new. -/
theorem right_size_le {i : Nat} (hi : o.left.frames.size ≤ i) :
    o.right.frames.size ≤ o.ρ.frame i := by
  obtain ⟨k, rfl⟩ := Nat.exists_eq_add_of_le hi
  have next : o.ρ.frame (o.left.frames.size + k) = o.right.frames.size + k :=
    shift_add o.later.size_le k
  omega

namespace Sees

theorem mono (h : o.Sees m X env env') (hY : ∀ x, Y x → X x) : o.Sees m Y env env' := by
  induction h generalizing Y with
  | old inside inside' answers => exact .old inside inside' fun x hx => answers x (hY x hx)
  | new hi hi' _ ih => exact .new hi hi' (ih fun x hx => ⟨hY x hx.1, hx.2⟩)

/-- What environments look like does not change while memory grows, since frames keep their
names. -/
theorem later (h : o.Sees m X env env') (g : m.Later n) : o.Sees n X env env' := by
  induction h with
  | old inside inside' answers => exact .old inside inside' answers
  | new hi hi' _ ih =>
      refine .new hi (Nat.lt_of_lt_of_le hi' g.size_le) ?_
      rwa [(g.frame_fills hi').names_eq]

end Sees

/-- An environment from before looks like itself through any names. -/
theorem sees_self (inside : o.left.Inside env) : o.Sees m X env env :=
  .old inside (inside.later o.later) fun x _ => o.same x env inside

theorem Known.later {v : Value} (h : o.Known m m' v) (g : m.Later n) (g' : m'.Later n') :
    o.Known n n' v := by
  cases v with
  | function id params locals =>
      obtain ⟨c, c', hc, hc', body, sees⟩ := h
      exact ⟨c, c', g.closures_getElem? hc, g'.closures_getElem? hc', body, sees.later g⟩
  | _ => trivial

/-- Old functions are known, whatever their parameters. -/
theorem known_of_gave (g : o.left.Later m) (g' : o.right.Later m') (v : Value)
    (gave : o.left.Gave v) : o.Known m m' v := by
  cases v with
  | function id params locals =>
      have hc : o.left.closures[id]? = some o.left.closures[id] := Array.getElem?_eq_getElem gave
      refine ⟨_, _, g.closures_getElem? hc, ?_, rfl, sees_self (o.whole.envs id _ hc)⟩
      rw [o.leaves.2 id gave]
      exact g'.closures_getElem? (o.later.closures_getElem? hc)
  | _ => trivial

/-- What a lookup before the runs came to has no identities to rename. -/
theorem result_lookup (x : String) (env : Env) :
    o.ρ.result (Value.rename o.ρ) (o.left.lookup (.text x) env) =
      o.left.lookup (.text x) env := by
  cases found : o.left.lookup (.text x) env with
  | ok v => exact congrArg Except.ok (o.leaves.value_eq (o.whole.holds.lookup found))
  | error e => rcases Memory.lookup_eq_error found with rfl | rfl | rfl <;> rfl

namespace Parallel

variable (h : o.Parallel m m')

include h

theorem frame {i : Nat} (hi : o.left.frames.size ≤ i) :
    m'.frame (o.ρ.frame i) = (m.frame i).rename o.ρ := by
  simp only [Memory.frame, h.frames i hi]
  cases m.frames[i]? <;> rfl

/-- Through the names they look alike for, environments give counterparts. -/
theorem lookup (sees : o.Sees m X env env') {x : String} (hx : X x) :
    m'.lookup (.text x) env' =
        o.ρ.result (Value.rename o.ρ) (m.lookup (.text x) env) ∨
      ∃ e, m.lookup (.text x) env = .error e ∧ o.excused e := by
  simp only [Memory.lookup_text]
  induction sees with
  | @old X env env' inside inside' answers =>
      have unchanged : m.lookupIn (.text x) env = o.left.lookup (.text x) env := by
        rw [h.left.lookupIn_eq (fun _ _ _ => id) _ inside, Memory.lookup_text]
      have unchanged' : m'.lookupIn (.text x) env' = o.right.lookup (.text x) env' := by
        rw [h.right.lookupIn_eq (fun _ _ _ => id) _ inside', Memory.lookup_text]
      rw [unchanged, unchanged', result_lookup]
      exact answers x hx
  | @new X i env env' hi hi' _ ih =>
      have slot := Frame.get?_rename o.ρ (m.frame i) (.text x)
      simp only [Value.rename] at slot
      simp only [Memory.lookupIn, h.frame hi, slot]
      rcases found : (m.frame i).get? (.text x) with _ | _ | v
      · exact ih ⟨hx, Frame.get?_text_eq_none.mp found⟩
      · exact .inl rfl
      · exact .inl rfl

theorem fresh : o.Parallel m.fresh.2 m'.fresh.2 := by
  have g : m.Later m.fresh.2 := m.grows_fresh _
  have g' : m'.Later m'.fresh.2 := m'.grows_fresh _
  refine { h with
    left := h.left.trans (m.grows_fresh _) fun _ _ _ => id
    right := h.right.trans (m'.grows_fresh _) fun _ _ _ => id
    nextIdentity := fun k => ?_
    holds := h.holds.imp fun v hv => hv.later g g' }
  simpa [Memory.fresh, Nat.add_assoc] using h.nextIdentity (1 + k)

theorem write (text : String) : o.Parallel (m.write text) (m'.write text) := by
  have g : m.Later (m.write text) := m.grows_write _ text
  have g' : m'.Later (m'.write text) := m'.grows_write _ text
  refine { h with
    left := h.left.trans (m.grows_write _ text) fun _ _ _ => id
    right := h.right.trans (m'.grows_write _ text) fun _ _ _ => id
    output := ?_
    holds := h.holds.imp fun v hv => hv.later g g' }
  simp [Memory.write, h.output]

theorem push {f : Frame} (hf : f.Holds (o.Known m m')) (env env' : Env) :
    o.Parallel (m.push f env).2 (m'.push (f.rename o.ρ) env').2 := by
  have g : m.Later (m.push f env).2 := m.grows_push _ f env
  have g' : m'.Later (m'.push (f.rename o.ρ) env').2 := m'.grows_push _ _ env'
  refine { h with
    left := h.left.trans (m.grows_push _ f env) fun _ _ _ => id
    right := h.right.trans (m'.grows_push _ _ env') fun _ _ _ => id
    frames := fun i hi => ?_
    nextFrame := fun k => ?_
    holds := (h.holds.push hf env).imp fun v hv => hv.later g g' }
  · have last : o.ρ.frame i = m'.frames.size ↔ i = m.frames.size := by
      rw [← o.ρ.frame_injective.eq_iff (a := i), ← Nat.add_zero m'.frames.size, ← h.nextFrame]
      rfl
    simp only [Memory.push, Array.getElem?_push, last, h.frames i hi]
    split <;> rfl
  · simpa [Memory.push, Nat.add_assoc] using h.nextFrame (1 + k)

theorem unassigned {i : Nat} {x : Value} (hi : o.left.frames.size ≤ i)
    (unassigned : (m.frame i).get? x = some none) :
    (m'.frame (o.ρ.frame i)).get? (x.rename o.ρ) = some none := by
  rw [h.frame hi, Frame.get?_rename, unassigned]
  rfl

/-- A value gets into a new frame, and its counterpart into the counterpart of the frame. -/
theorem fill {i : Nat} {x v : Value} (hi : o.left.frames.size ≤ i)
    (unassigned : (m.frame i).get? x = some none) (hv : v.Every (o.Known m m')) :
    o.Parallel (m.fill i x v) (m'.fill (o.ρ.frame i) (x.rename o.ρ) (v.rename o.ρ)) := by
  have hi' := o.right_size_le hi
  have filled : m.Grows _ (m.fill i x v) := Memory.grows_fill unassigned
  have filled' : m'.Grows _ (m'.fill (o.ρ.frame i) (x.rename o.ρ) (v.rename o.ρ)) :=
    Memory.grows_fill (h.unassigned hi unassigned)
  refine { h with
    left := h.left.trans filled ?_
    right := h.right.trans filled' ?_
    frames := fun j hj => ?_
    nextFrame := fun k => ?_
    holds := (h.holds.fill hv i x).imp fun v hv => hv.later filled.later filled'.later }
  · rintro j hj y ⟨rfl, -⟩
    omega
  · rintro j hj y ⟨rfl, -⟩
    omega
  · simp only [Memory.fill, Array.getElem?_modify, o.ρ.frame_injective.eq_iff, h.frames j hj]
    split
    · cases m.frames[j]? with
      | none => rfl
      | some f => exact congrArg some (Frame.put_rename o.ρ f x (some v))
    · rfl
  · simpa [Memory.fill] using h.nextFrame k

/-- A closure and its counterpart have the same body, in environments of their own. -/
theorem close {body : Code} (hb : body.Every o.left.Gave)
    (params locals params' locals' : List Value) (env env' : Env) :
    o.Parallel (m.close params locals ⟨body, env⟩).2
      (m'.close params' locals' ⟨body, env'⟩).2 := by
  have g : m.Later (m.close params locals ⟨body, env⟩).2 := m.grows_close _ params locals _
  have g' : m'.Later (m'.close params' locals' ⟨body, env'⟩).2 := m'.grows_close _ params' locals' _
  refine { h with
    left := h.left.trans (m.grows_close _ params locals _) fun _ _ _ => id
    right := h.right.trans (m'.grows_close _ params' locals' _) fun _ _ _ => id
    nextClosure := fun k => ?_
    holds := h.holds.imp fun v hv => hv.later g g'
    bodies := fun i c hc => ?_ }
  · simpa [Memory.close, Nat.add_assoc] using h.nextClosure (1 + k)
  · simp only [Memory.close, Array.getElem?_push] at hc
    split at hc
    · cases hc
      exact hb
    · exact h.bodies i c hc

end Parallel

/-- The memories that the runs start from. -/
theorem parallel_start : o.Parallel o.left o.right := by
  have sizes := o.later.size_le
  have counts : o.left.closures.size ≤ o.right.closures.size := by
    simpa using o.later.closures.length_le
  refine ⟨.refl _ _, .refl _ _, fun i hi => ?_, shift_add sizes, shift_add counts,
    shift_add o.later.serial, o.output, ?_, o.whole.bodies⟩
  · rw [Array.getElem?_eq_none hi, Array.getElem?_eq_none (o.right_size_le hi)]
    rfl
  · exact o.whole.holds.imp (known_of_gave (.refl _ _) (.refl _ _))

end Origin
end ConstLang
