import ConstLang.Code
import ConstLang.Proofs.Outcome
import ConstLang.Proofs.Renaming.Operation

/-!
Memories under a renaming. One memory mirrors another if it holds the same frames and
closures at renamed places, and what it gives out next is what the other gives out
next, renamed. Mirrored computations end with renamed results in mirrored memories.
-/

namespace ConstLang

open Renaming

variable (ρ : Renaming)

namespace Frame

def renameSlot (s : Value × Option Value) : Value × Option Value :=
  (s.1.rename ρ, s.2.map (Value.rename ρ))

def rename (f : Frame) : Frame := ⟨f.slots.map (renameSlot ρ)⟩

theorem get?_rename (f : Frame) (name : Value) :
    (f.rename ρ).get? (name.rename ρ) = (f.get? name).map (Option.map (Value.rename ρ)) := by
  simp [get?, rename, renameSlot, List.find?_map, Function.comp_def, Value.same_rename]

theorem replace_rename (name : Value) (slot : Option Value) (slots : List (Value × Option Value)) :
    replace (name.rename ρ) (slot.map (Value.rename ρ)) (slots.map (renameSlot ρ)) =
      (replace name slot slots).map (renameSlot ρ) := by
  induction slots with
  | nil => rfl
  | cons s rest ih =>
      simp only [List.map_cons, replace, renameSlot, Value.same_rename]
      split
      · rfl
      · rw [List.map_cons, ← ih]
        rfl

theorem put_rename (f : Frame) (name : Value) (slot : Option Value) :
    (f.rename ρ).put (name.rename ρ) (slot.map (Value.rename ρ)) = (f.put name slot).rename ρ := by
  simp only [put, get?_rename, Option.isSome_map]
  split
  · simp [rename, replace_rename]
  · simp [rename, renameSlot]

theorem foldl_put_rename (f : Frame) (slots : List (Value × Option Value)) :
    (slots.map (renameSlot ρ)).foldl (fun f s => f.put s.1 s.2) (f.rename ρ) =
      (slots.foldl (fun f s => f.put s.1 s.2) f).rename ρ := by
  induction slots generalizing f with
  | nil => rfl
  | cons s rest ih =>
      rw [List.map_cons, List.foldl_cons, List.foldl_cons, ← ih, ← put_rename]
      rfl

theorem ofSlots_rename (slots : List (Value × Option Value)) :
    ofSlots (slots.map (renameSlot ρ)) = (ofSlots slots).map (Frame.rename ρ) := by
  have hashable : (slots.map (renameSlot ρ)).all (·.1.hashable) = slots.all (·.1.hashable) := by
    simp [renameSlot, Function.comp_def]
  simp only [ofSlots, hashable]
  split
  · exact congrArg Except.ok (foldl_put_rename ρ empty slots)
  · rfl

theorem zip_slot_rename (names values : List Value) :
    (names.map (Value.rename ρ)).zip ((values.map (Value.rename ρ)).map Value.slot) =
      (names.zip (values.map Value.slot)).map (renameSlot ρ) := by
  have slots : (values.map (Value.rename ρ)).map Value.slot =
      (values.map Value.slot).map (Option.map (Value.rename ρ)) := by
    simp [Function.comp_def]
  rw [slots, List.zip_map]
  rfl

theorem ofValues_rename (names values : List Value) :
    ofValues (names.map (Value.rename ρ)) (values.map (Value.rename ρ)) =
      (ofValues names values).map (Frame.rename ρ) := by
  rw [ofValues, ofValues, zip_slot_rename, ofSlots_rename]

theorem unassigned_rename (names : List Value) :
    unassigned (names.map (Value.rename ρ)) = (unassigned names).map (Frame.rename ρ) := by
  rw [unassigned, unassigned, ← ofSlots_rename]
  simp [renameSlot, Function.comp_def]

end Frame

theorem callSlots_rename (params locals args : List Value) :
    callSlots (params.map (Value.rename ρ)) (locals.map (Value.rename ρ))
        (args.map (Value.rename ρ)) =
      (callSlots params locals args).map (Frame.renameSlot ρ) := by
  rw [callSlots, callSlots, List.map_append, ← Frame.zip_slot_rename]
  simp [Frame.renameSlot, Function.comp_def]

def Closure.rename (c : Closure Code) : Closure Code := ⟨c.body.rename ρ, c.env.map ρ.frame⟩

namespace Memory

/-- The second memory has what the first has at renamed places, and what the two give out next are
counterparts again. -/
structure Mirrored (m m' : Memory Code) : Prop where
  frames : ∀ i, m'.frames[ρ.frame i]? = m.frames[i]?.map (Frame.rename ρ)
  nextFrame : ∀ k, ρ.frame (m.frames.size + k) = m'.frames.size + k
  closures : ∀ i, m'.closures[ρ.closure i]? = m.closures[i]?.map (Closure.rename ρ)
  nextClosure : ∀ k, ρ.closure (m.closures.size + k) = m'.closures.size + k
  nextIdentity : ∀ k, ρ.identity (m.serial + k) = m'.serial + k
  output : m'.output = m.output

variable {ρ} {m m' : Memory Code}

namespace Mirrored

variable (h : Mirrored ρ m m')

include h

theorem frame (i : Nat) : m'.frame (ρ.frame i) = (m.frame i).rename ρ := by
  simp only [Memory.frame, h.frames]
  cases m.frames[i]? <;> rfl

theorem lookupIn (name : Value) (env : Env) :
    m'.lookupIn (name.rename ρ) (env.map ρ.frame) =
      ρ.result (Value.rename ρ) (m.lookupIn name env) := by
  induction env with
  | nil => rfl
  | cons i env ih =>
      simp only [List.map_cons, Memory.lookupIn, h.frame, Frame.get?_rename]
      rcases (m.frame i).get? name with _ | _ | v
      · exact ih
      · rfl
      · rfl

theorem lookup (name : Value) (env : Env) :
    m'.lookup (name.rename ρ) (env.map ρ.frame) =
      ρ.result (Value.rename ρ) (m.lookup name env) := by
  simp only [Memory.lookup, List.isEmpty_map, Value.hashable_rename]
  split
  · exact h.lookupIn name env
  · rfl

theorem target (name : Value) (env : Env) :
    m'.target (name.rename ρ) (env.map ρ.frame) = ρ.result ρ.frame (m.target name env) := by
  cases env with
  | nil => rfl
  | cons i env =>
      simp only [List.map_cons, Memory.target, h.frame, Frame.get?_rename, Value.hashable_rename]
      split
      · rcases (m.frame i).get? name with _ | _ | v <;> rfl
      · rfl

theorem fill (i : Nat) (name value : Value) :
    Mirrored ρ (m.fill i name value) (m'.fill (ρ.frame i) (name.rename ρ) (value.rename ρ)) := by
  refine { h with frames := fun j => ?_, nextFrame := fun k => ?_ }
  · simp only [Memory.fill, Array.getElem?_modify, ρ.frame_injective.eq_iff, h.frames]
    split
    · cases m.frames[j]? with
      | none => rfl
      | some f => exact congrArg some (Frame.put_rename ρ f name (some value))
    · rfl
  · simpa [Memory.fill] using h.nextFrame k

theorem push (f : Frame) (env : Env) :
    Mirrored ρ (m.push f env).2 (m'.push (f.rename ρ) (env.map ρ.frame)).2 := by
  refine { h with frames := fun i => ?_, nextFrame := fun k => ?_ }
  · have last : ρ.frame i = m'.frames.size ↔ i = m.frames.size := by
      rw [← ρ.frame_injective.eq_iff (a := i), ← Nat.add_zero m'.frames.size, ← h.nextFrame]
      rfl
    simp only [Memory.push, Array.getElem?_push, last, h.frames]
    split <;> rfl
  · simpa [Memory.push, Nat.add_assoc] using h.nextFrame (1 + k)

theorem close (params locals : List Value) (c : Closure Code) :
    Mirrored ρ (m.close params locals c).2
      (m'.close (params.map (Value.rename ρ)) (locals.map (Value.rename ρ)) (c.rename ρ)).2 := by
  refine { h with closures := fun i => ?_, nextClosure := fun k => ?_ }
  · have last : ρ.closure i = m'.closures.size ↔ i = m.closures.size := by
      rw [← ρ.closure_injective.eq_iff (a := i), ← Nat.add_zero m'.closures.size, ← h.nextClosure]
      rfl
    simp only [Memory.close, Array.getElem?_push, last, h.closures]
    split <;> rfl
  · simpa [Memory.close, Nat.add_assoc] using h.nextClosure (1 + k)

theorem fresh : Mirrored ρ m.fresh.2 m'.fresh.2 := by
  refine { h with nextIdentity := fun k => ?_ }
  simpa [Memory.fresh, Nat.add_assoc] using h.nextIdentity (1 + k)

theorem write (text : String) : Mirrored ρ (m.write text) (m'.write text) := by
  refine { h with output := ?_ }
  simp [Memory.write, h.output]

end Mirrored
end Memory

namespace Eval

variable {α α' γ γ' : Type}

/-- Started in mirrored memories, the second computation ends as the first does, renamed. -/
def Mirrors (on : α → α') (act : Eval Code α) (act' : Eval Code α') : Prop :=
  ∀ m m' : Memory Code, Memory.Mirrored ρ m m' →
    Corresponds (fun a a' => a' = on a) (fun e e' => e' = e.rename ρ) (Memory.Mirrored ρ) (act m)
      (act' m')

variable {ρ} {on : α → α'} {on' : γ → γ'}

theorem mirrors_pure {a : α} {a' : α'} (h : a' = on a) :
    Mirrors ρ on (pure a) (pure a') :=
  fun _ _ hm => .ok h hm

theorem mirrors_throw {e e' : Fault} (h : e' = e.rename ρ) : Mirrors ρ on (throw e) (throw e') :=
  fun _ _ hm => .error h hm

theorem Mirrors.bind {act : Eval Code α} {act' : Eval Code α'} {next : α → Eval Code γ}
    {next' : α' → Eval Code γ'} (h : Mirrors ρ on act act')
    (hn : ∀ a, Mirrors ρ on' (next a) (next' (on a))) :
    Mirrors ρ on' (act >>= next) (act' >>= next') := by
  intro m m' hm
  refine (h m m' hm).bind ?_
  rintro a _ n n' rfl hn'
  exact hn a n n' hn'

theorem mirrors_ofExcept {r : Except Fault α} {r' : Except Fault α'} (h : r' = ρ.result on r) :
    Mirrors ρ on (ofExcept r) (ofExcept r') := by
  subst h
  cases r with
  | ok a => exact mirrors_pure rfl
  | error e => exact mirrors_throw rfl

theorem mirrors_ofMishap {r : Except Mishap α} {r' : Except Mishap α'} (h : r' = r.map on) :
    Mirrors ρ on (ofMishap r) (ofMishap r') := by
  subst h
  cases r with
  | ok a => exact mirrors_pure rfl
  | error e => exact mirrors_throw rfl

theorem mirrors_lookup (name : Value) (env : Env) :
    Mirrors ρ (Value.rename ρ) (lookup name env) (lookup (name.rename ρ) (env.map ρ.frame)) := by
  intro m m' hm
  exact mirrors_ofExcept (hm.lookup name env) m m' hm

theorem mirrors_assign (name value : Value) (env : Env) :
    Mirrors ρ id (assign name value env)
      (assign (name.rename ρ) (value.rename ρ) (env.map ρ.frame)) := by
  intro m m' hm
  rw [assign, assign, get_bind, get_bind]
  refine Corresponds.bind (mirrors_ofExcept (hm.target name env) m m' hm) ?_
  rintro i _ n n' rfl hn
  exact .ok rfl (hn.fill i name value)

theorem mirrors_push (f : Frame) (env : Env) :
    Mirrors ρ (List.map ρ.frame) (push f env) (push (f.rename ρ) (env.map ρ.frame)) := by
  intro m m' hm
  refine .ok ?_ (hm.push f env)
  exact congrArg (· :: env.map ρ.frame) (hm.nextFrame 0).symm

theorem mirrors_close (params locals : List Value) (c : Closure Code) :
    Mirrors ρ (Value.rename ρ) (close params locals c)
      (close (params.map (Value.rename ρ)) (locals.map (Value.rename ρ)) (c.rename ρ)) := by
  intro m m' hm
  refine .ok ?_ (hm.close params locals c)
  simpa [Memory.close] using (hm.nextClosure 0).symm

theorem mirrors_fresh : Mirrors ρ ρ.identity fresh fresh :=
  fun _ _ hm => .ok (hm.nextIdentity 0).symm hm.fresh

theorem mirrors_write (text : String) : Mirrors ρ id (write text) (write text) :=
  fun _ _ hm => .ok rfl (hm.write text)

end Eval

end ConstLang
