import Mathlib.Data.List.Forall2
import ConstLang.Proofs.Outcome

/-!
Growth of memory. Memory gets new frames, closures and identities, and the only
change to a frame that was there is that unassigned slots get values. The relation
says for which frames and names that may happen: `may i x` allows it for the slot of
`x` in the frame at `i`.
-/

namespace ConstLang

namespace Frame

/-- The second frame has the slots of the first, with values for some of the unassigned ones that
`may` allows. -/
def Fills (may : Value → Prop) (f f' : Frame) : Prop :=
  List.Forall₂ (fun s s' => s'.1 = s.1 ∧ (s'.2 = s.2 ∨ s.2 = none ∧ may s.1)) f.slots f'.slots

variable {may may' : Value → Prop} {f f' f'' : Frame}

theorem Fills.refl (may : Value → Prop) (f : Frame) : f.Fills may f :=
  List.forall₂_same.mpr fun _ _ => ⟨rfl, .inl rfl⟩

theorem Fills.imp (h : f.Fills may f') (hm : ∀ x, may x → may' x) : f.Fills may' f' :=
  List.Forall₂.imp (fun _ _ hs => ⟨hs.1, hs.2.imp_right fun hn => ⟨hn.1, hm _ hn.2⟩⟩) h

theorem Fills.trans (h : f.Fills may f') (h' : f'.Fills may f'') : f.Fills may f'' := by
  obtain ⟨slots⟩ := f
  obtain ⟨slots'⟩ := f'
  obtain ⟨slots''⟩ := f''
  simp only [Fills] at *
  induction h generalizing slots'' with
  | nil => exact h'
  | cons hs _ ih =>
      cases h' with
      | cons hs' hrest =>
          refine .cons ⟨hs'.1.trans hs.1, ?_⟩ (ih _ hrest)
          rcases hs.2 with e | e
          · rw [← e, ← hs.1]
            exact hs'.2
          · exact .inr e

/-- A frame is kept as it is if none of its unassigned slots may get a value. -/
theorem Fills.eq_of_closed (h : f.Fills may f')
    (closed : ∀ s ∈ f.slots, s.2 = none → ¬ may s.1) : f' = f := by
  obtain ⟨slots⟩ := f
  obtain ⟨slots'⟩ := f'
  simp only [Fills, Frame.mk.injEq] at *
  induction h with
  | nil => rfl
  | @cons s s' _ _ hs _ ih =>
      have head : s' = s := by
        refine Prod.ext hs.1 (hs.2.resolve_right ?_)
        exact fun e => closed s List.mem_cons_self e.1 e.2
      rw [head, ih fun s hs => closed s (List.mem_cons_of_mem _ hs)]

/-- The slot of a name that no slot filled is the same as keeps its content. -/
theorem Fills.get?_eq (h : f.Fills may f') {name : Value}
    (other : ∀ x, may x → x.same name = false) : f'.get? name = f.get? name := by
  obtain ⟨slots⟩ := f
  obtain ⟨slots'⟩ := f'
  simp only [Fills, get?] at *
  induction h with
  | nil => rfl
  | @cons s s' _ _ hs _ ih =>
      simp only [List.find?_cons, hs.1]
      split
      · rename_i found
        rcases hs.2 with e | e
        · simp [e]
        · simp [other _ e.2] at found
      · exact ih

theorem Fills.names_eq (h : f.Fills may f') : f'.names = f.names := by
  obtain ⟨slots⟩ := f
  obtain ⟨slots'⟩ := f'
  simp only [Fills, names] at *
  induction h with
  | nil => rfl
  | cons hs _ ih => simp [hs.1, ih]

/-- A slot keeps its content, unless it was unassigned. -/
theorem Fills.get?_cases (h : f.Fills may f') (name : Value) :
    f'.get? name = f.get? name ∨ f.get? name = some none := by
  obtain ⟨slots⟩ := f
  obtain ⟨slots'⟩ := f'
  simp only [Fills, get?] at *
  induction h with
  | nil => exact .inl rfl
  | @cons s s' _ _ hs _ ih =>
      simp only [List.find?_cons, hs.1]
      split
      · rcases hs.2 with e | e
        · exact .inl (by simp [e])
        · exact .inr (by simp [e.1])
      · exact ih

theorem fills_replace {name value : Value} {slots : List (Value × Option Value)}
    (h : (slots.find? (·.1.same name)).map (·.2) = some none) :
    List.Forall₂ (fun s s' => s'.1 = s.1 ∧ (s'.2 = s.2 ∨ s.2 = none ∧ s.1.same name)) slots
      (replace name (some value) slots) := by
  induction slots with
  | nil => exact .nil
  | cons s rest ih =>
      simp only [replace]
      split
      · rename_i found
        refine .cons ⟨rfl, .inr ⟨?_, found⟩⟩ (List.forall₂_same.mpr fun _ _ => ⟨rfl, .inl rfl⟩)
        simpa [List.find?_cons, found] using h
      · rename_i other
        refine .cons ⟨rfl, .inl rfl⟩ (ih ?_)
        simpa [List.find?_cons, other] using h

/-- Putting a value into an unassigned slot fills the slot of that name and no other. -/
theorem fills_put {name value : Value} (h : f.get? name = some none) :
    f.Fills (fun x => x.same name) (f.put name (some value)) := by
  have there : (f.get? name).isSome := by simp [h]
  simp only [put, there, if_true]
  exact fills_replace h

end Frame

namespace Memory

variable {β : Type}

/-- What the second memory has beyond the first. -/
structure Grows (may : Nat → Value → Prop) (m m' : Memory β) : Prop where
  frames : ∀ (i : Nat) (f : Frame), m.frames[i]? = some f →
    ∃ f' : Frame, m'.frames[i]? = some f' ∧ f.Fills (may i) f'
  closures : m.closures.toList <+: m'.closures.toList
  serial : m.serial ≤ m'.serial

variable {may may' : Nat → Value → Prop} {m m' m'' : Memory β}

theorem Grows.refl (may : Nat → Value → Prop) (m : Memory β) : m.Grows may m :=
  ⟨fun _ f h => ⟨f, h, .refl _ f⟩, List.prefix_refl _, Nat.le_refl _⟩

theorem Grows.size_le (h : m.Grows may m') : m.frames.size ≤ m'.frames.size := by
  by_contra hlt
  have hi : m'.frames.size < m.frames.size := by omega
  obtain ⟨f', hf', -⟩ := h.frames _ _ (Array.getElem?_eq_getElem hi)
  simp at hf'

/-- Growth upon growth, where the second may touch an old frame only as the first may. -/
theorem Grows.trans (h : m.Grows may m') (h' : m'.Grows may' m'')
    (within : ∀ i < m.frames.size, ∀ x, may' i x → may i x) : m.Grows may m'' := by
  refine ⟨?_, h.closures.trans h'.closures, Nat.le_trans h.serial h'.serial⟩
  intro i f hf
  obtain ⟨f', hf', fills⟩ := h.frames i f hf
  obtain ⟨f'', hf'', fills'⟩ := h'.frames i f' hf'
  have hi : i < m.frames.size := (Array.getElem?_eq_some_iff.mp hf).1
  exact ⟨f'', hf'', fills.trans (fills'.imp (within i hi))⟩

theorem Grows.imp (h : m.Grows may m') (hm : ∀ i < m.frames.size, ∀ x, may i x → may' i x) :
    m.Grows may' m' := by
  refine ⟨?_, h.closures, h.serial⟩
  intro i f hf
  obtain ⟨f', hf', fills⟩ := h.frames i f hf
  exact ⟨f', hf', fills.imp (hm i (Array.getElem?_eq_some_iff.mp hf).1)⟩

/-- The second memory is one that the first can come to, whichever slots are filled. -/
abbrev Later (m m' : Memory β) : Prop := m.Grows (fun _ _ => True) m'

theorem Grows.later (h : m.Grows may m') : m.Later m' := h.imp fun _ _ _ _ => trivial

theorem Later.trans (h : m.Later m') (h' : m'.Later m'') : m.Later m'' :=
  Grows.trans h h' fun _ _ _ => id

/-- Where nothing may be filled, the frames that were there come first, as they were. -/
theorem Grows.frames_prefix (h : m.Grows may m') (closed : ∀ i < m.frames.size, ∀ x, ¬ may i x) :
    m.frames.toList <+: m'.frames.toList := by
  rw [List.prefix_iff_getElem?]
  intro i hi
  have hf : m.frames[i]? = some (m.frames.toList[i]) := by simp
  obtain ⟨f', hf', fills⟩ := h.frames i _ hf
  have same : f' = m.frames.toList[i] :=
    fills.eq_of_closed fun s _ _ => closed i (by simpa using hi) s.1
  rw [← same]
  simpa using hf'

theorem Grows.frame_fills (h : m.Grows may m') {i : Nat} (hi : i < m.frames.size) :
    (m.frame i).Fills (may i) (m'.frame i) := by
  obtain ⟨f', hf', fills⟩ := h.frames i _ (Array.getElem?_eq_getElem hi)
  simpa [frame, hi, hf'] using fills

/-- A name that had a value keeps it, and one that had no slot gets none. -/
theorem Grows.lookupIn_cases (h : m.Grows may m') (name : Value) {env : Env}
    (inside : ∀ i ∈ env, i < m.frames.size) :
    m'.lookupIn name env = m.lookupIn name env ∨
      m.lookupIn name env = .error (.unassigned name) := by
  induction env with
  | nil => exact .inl rfl
  | cons i env ih =>
      obtain ⟨hi, henv⟩ := List.forall_mem_cons.mp inside
      simp only [lookupIn]
      rcases (h.frame_fills hi).get?_cases name with same | unassigned
      · rw [same]
        rcases (m.frame i).get? name with _ | _ | v
        · exact ih henv
        · exact .inl rfl
        · exact .inl rfl
      · simp [unassigned]

/-- Where nothing may be filled, names have the values they had. -/
theorem Grows.lookupIn_eq (h : m.Grows may m') (closed : ∀ i < m.frames.size, ∀ x, ¬ may i x)
    (name : Value) {env : Env} (inside : ∀ i ∈ env, i < m.frames.size) :
    m'.lookupIn name env = m.lookupIn name env := by
  induction env with
  | nil => rfl
  | cons i env ih =>
      obtain ⟨hi, henv⟩ := List.forall_mem_cons.mp inside
      have same : m'.frame i = m.frame i :=
        (h.frame_fills hi).eq_of_closed fun s _ _ => closed i hi s.1
      simp only [lookupIn, same, ih henv]

theorem Grows.closures_getElem? (h : m.Grows may m') {i : Nat} {c : Closure β}
    (hc : m.closures[i]? = some c) : m'.closures[i]? = some c := by
  obtain ⟨rest, hrest⟩ := h.closures
  have old : m.closures.toList[i]? = some c := by simpa using hc
  have new : m'.closures.toList[i]? = some c := by
    rw [← hrest, List.getElem?_append_left (List.getElem?_eq_some_iff.mp old).1, old]
  simpa using new

theorem grows_push (may : Nat → Value → Prop) (m : Memory β) (f : Frame) (env : Env) :
    m.Grows may (m.push f env).2 := by
  refine ⟨?_, List.prefix_refl _, Nat.le_refl _⟩
  intro i g hg
  refine ⟨g, ?_, .refl _ g⟩
  have hi : i < m.frames.size := (Array.getElem?_eq_some_iff.mp hg).1
  simpa [push, Array.getElem?_push, Nat.ne_of_lt hi] using hg

theorem grows_close (may : Nat → Value → Prop) (m : Memory β) (params locals : List Value)
    (c : Closure β) : m.Grows may (m.close params locals c).2 :=
  ⟨fun _ f h => ⟨f, h, .refl _ f⟩, by simp [close], Nat.le_refl _⟩

theorem grows_fresh (may : Nat → Value → Prop) (m : Memory β) : m.Grows may m.fresh.2 :=
  ⟨fun _ f h => ⟨f, h, .refl _ f⟩, List.prefix_refl _, Nat.le_succ _⟩

theorem grows_write (may : Nat → Value → Prop) (m : Memory β) (text : String) :
    m.Grows may (m.write text) :=
  ⟨fun _ f h => ⟨f, h, .refl _ f⟩, List.prefix_refl _, Nat.le_refl _⟩

/-- The target of a declaration is the innermost frame, with an unassigned slot for the name. -/
theorem target_eq_ok {name : Value} {env : Env} {i : Nat} (h : m.target name env = .ok i) :
    env.head? = some i ∧ (m.frame i).get? name = some none := by
  cases env with
  | nil => simp [target] at h
  | cons j env =>
      simp only [target] at h
      repeat' split at h
      all_goals simp_all

theorem frame_fill (m : Memory β) (name value : Value) {i : Nat} (inside : i < m.frames.size) :
    (m.fill i name value).frame i = (m.frame i).put name (some value) := by
  have found : m.frames[i]? = some (m.frames[i]) := Array.getElem?_eq_getElem inside
  simp only [Memory.fill, frame, Array.getElem?_modify, found, if_true, Option.map_some,
    Option.getD_some]

theorem grows_fill {name value : Value} {i : Nat} (h : (m.frame i).get? name = some none) :
    m.Grows (fun j x => j = i ∧ x.same name) (m.fill i name value) := by
  refine ⟨?_, List.prefix_refl _, Nat.le_refl _⟩
  intro j f hf
  by_cases e : i = j
  · subst e
    have hfill : f.get? name = some none := by simpa [frame, hf] using h
    refine ⟨f.put name (some value), ?_, ?_⟩
    · simp [fill, Array.getElem?_modify, hf]
    · exact (Frame.fills_put hfill).imp fun x hx => ⟨rfl, hx⟩
  · exact ⟨f, by simpa [fill, Array.getElem?_modify, e] using hf, .refl _ f⟩

end Memory

namespace Eval

variable {β α γ : Type}

/-- A computation that, wherever it starts and however it ends, only makes memory grow. -/
def Grows (may : Nat → Value → Prop) (act : Eval β α) : Prop :=
  ∀ m, act.Ends m (fun _ => m.Grows may) (fun _ => m.Grows may)

variable {may may' : Nat → Value → Prop}

theorem Grows.imp {act : Eval β α} (h : act.Grows may) (hm : ∀ i x, may i x → may' i x) :
    act.Grows may' := fun m =>
  (h m).imp (fun _ _ g => g.imp fun i _ => hm i) (fun _ _ g => g.imp fun i _ => hm i)

theorem Grows.any {act : Eval β α} (h : act.Grows may) : act.Grows fun _ _ => True :=
  h.imp fun _ _ _ => trivial

theorem grows_pure (may : Nat → Value → Prop) (a : α) : (pure a : Eval β α).Grows may :=
  fun m => .refl may m

theorem grows_throw (may : Nat → Value → Prop) (e : Fault) : (throw e : Eval β α).Grows may :=
  fun m => .refl may m

theorem grows_get (may : Nat → Value → Prop) : (get : Eval β (Memory β)).Grows may :=
  fun m => .refl may m

theorem Grows.bind {act : Eval β γ} {next : γ → Eval β α} (h : act.Grows may)
    (hn : ∀ c, (next c).Grows may) : (act >>= next).Grows may := by
  intro m
  rw [ends_bind]
  refine (h m).imp (fun c m' g => ?_) (fun _ _ g => g)
  exact (hn c m').imp (fun _ _ g' => g.trans g' fun _ _ _ => id)
    (fun _ _ g' => g.trans g' fun _ _ _ => id)

theorem grows_ofExcept (may : Nat → Value → Prop) (r : Except Fault α) :
    (ofExcept r : Eval β α).Grows may := by
  cases r with
  | ok a => exact grows_pure may a
  | error e => exact grows_throw may e

theorem grows_ofMishap (may : Nat → Value → Prop) (r : Except Mishap α) :
    (ofMishap r : Eval β α).Grows may := by
  cases r with
  | ok a => exact grows_pure may a
  | error e => exact grows_throw may (.mishap e)

theorem grows_lookup (may : Nat → Value → Prop) (name : Value) (env : Env) :
    (lookup name env : Eval β Value).Grows may :=
  (grows_get may).bind fun _ => grows_ofExcept may _

theorem grows_fresh (may : Nat → Value → Prop) : (fresh : Eval β Nat).Grows may :=
  fun m => m.grows_fresh may

theorem grows_write (may : Nat → Value → Prop) (text : String) :
    (write text : Eval β Unit).Grows may :=
  fun m => m.grows_write may text

theorem grows_close (may : Nat → Value → Prop) (params locals : List Value) (c : Closure β) :
    (close params locals c).Grows may :=
  fun m => m.grows_close may params locals c

theorem grows_push (may : Nat → Value → Prop) (f : Frame) (env : Env) :
    (push f env : Eval β Env).Grows may :=
  fun m => m.grows_push may f env

/-- A declaration fills the slot of its name in the innermost frame. -/
theorem grows_assign (name value : Value) (env : Env) :
    (assign name value env : Eval β Unit).Grows
      (fun i x => env.head? = some i ∧ x.same name) := by
  intro m
  simp only [assign, ends_bind, ends_get, ends_ofExcept]
  split
  · rename_i i target
    obtain ⟨head, unassigned⟩ := Memory.target_eq_ok target
    refine (Memory.grows_fill unassigned).imp ?_
    rintro j - x ⟨rfl, hx⟩
    exact ⟨head, hx⟩
  · exact .refl _ m

/-- What runs in a new frame may fill that frame, which leaves the old ones alone. -/
theorem grows_push_bind (may : Nat → Value → Prop) (f : Frame) (env : Env)
    {next : Env → Eval β α} (h : ∀ i, (next (i :: env)).Grows fun j _ => j = i) :
    (push f env >>= next).Grows may := by
  intro m
  rw [ends_bind]
  have old : ∀ i < m.frames.size, ∀ x : Value, i = m.frames.size → may i x := by
    intro i hi _ e
    omega
  exact (h m.frames.size (m.push f env).2).imp
    (fun _ _ g => (m.grows_push may f env).trans g old)
    (fun _ _ g => (m.grows_push may f env).trans g old)

end Eval
end ConstLang
