import Mathlib.Data.Nat.Find
import ConstLang.Proofs.Moment
import ConstLang.Proofs.Store

/-!
Bindings are written once. Memory only grows, and a frame that grows has the names that it had,
in their order: a slot with a value keeps it, and a slot without one gets at most one. So what a
lookup finds in an environment once, it finds for good, and so does a lookup that finds no slot.
One that meets a slot without a value does so until the slot has its value.

That holds from each point of a session to every later one, whatever the steps are and whether
they succeed or fail, and from each moment inside of a run to those that it starts and to its end.
-/

namespace ConstLang

namespace Frame

/-- Filling slots makes no name come or go. -/
theorem Fills.isSome_get? {may : Value → Prop} {f f' : Frame} (h : f.Fills may f') (name : Value) :
    (f'.get? name).isSome = (f.get? name).isSome := by
  obtain ⟨slots⟩ := f
  obtain ⟨slots'⟩ := f'
  simp only [Fills, get?, Option.isSome_map] at *
  induction h with
  | nil => rfl
  | cons hs _ ih =>
      simp only [List.find?_cons, hs.1]
      split
      · rfl
      · exact ih

end Frame

namespace Memory

variable {m n : Memory Code} {name : Value} {env : Env}

/-- A name that had no value yet has none or has one, but it has a slot. -/
theorem Later.lookupIn_unassigned (h : m.Later n) (inside : m.Inside env)
    (unassigned : m.lookupIn name env = .error (.unassigned name)) :
    n.lookupIn name env = .error (.unassigned name) ∨ ∃ v, n.lookupIn name env = .ok v := by
  induction env with
  | nil => cases unassigned
  | cons i env ih =>
      obtain ⟨hi, henv⟩ := List.forall_mem_cons.mp inside
      have slot := (h.frame_fills hi).isSome_get? name
      simp only [lookupIn] at unassigned ⊢
      cases old : (m.frame i).get? name with
      | none =>
          rw [old, Option.isSome_none, Option.isSome_eq_false_iff,
            Option.isNone_iff_eq_none] at slot
          rw [old] at unassigned
          rw [slot]
          exact ih henv unassigned
      | some content =>
          rw [old, Option.isSome_some, Option.isSome_iff_exists] at slot
          obtain ⟨new, found⟩ := slot
          rw [found]
          cases new with
          | none => exact .inl rfl
          | some v => exact .inr ⟨v, rfl⟩

/-- How lookups at one time compare with those at a later one, in the environments that there were,
and what the later time leaves of the frames. -/
structure KeepsBindings (m n : Memory Code) : Prop where
  unbound : ∀ name env, m.Inside env → m.lookup name env = .error (.unbound name) →
    n.lookup name env = .error (.unbound name)
  value : ∀ name env v, m.Inside env → m.lookup name env = .ok v → n.lookup name env = .ok v
  unassigned : ∀ name env, m.Inside env → m.lookup name env = .error (.unassigned name) →
    n.lookup name env = .error (.unassigned name) ∨ ∃ v, n.lookup name env = .ok v
  names : ∀ i < m.frames.size, (n.frame i).names = (m.frame i).names

/-- A lookup that does not meet an unassigned slot has the same result for good. -/
theorem Later.lookup_eq (h : m.Later n) (inside : m.Inside env)
    (other : m.lookup name env ≠ .error (.unassigned name)) :
    n.lookup name env = m.lookup name env := by
  unfold lookup at *
  by_cases usable : (env.isEmpty || name.hashable) = true
  · rw [if_pos usable] at other ⊢
    rw [if_pos usable]
    exact (h.lookupIn_cases name inside).resolve_right other
  · rw [if_neg usable, if_neg usable]

theorem Later.lookup_unassigned (h : m.Later n) (inside : m.Inside env)
    (unassigned : m.lookup name env = .error (.unassigned name)) :
    n.lookup name env = .error (.unassigned name) ∨ ∃ v, n.lookup name env = .ok v := by
  unfold lookup at *
  by_cases usable : (env.isEmpty || name.hashable) = true
  · rw [if_pos usable] at unassigned ⊢
    exact h.lookupIn_unassigned inside unassigned
  · rw [if_neg usable] at unassigned
    cases unassigned

theorem Later.keepsBindings (h : m.Later n) : m.KeepsBindings n where
  unbound := by
    intro name env inside unbound
    rw [h.lookup_eq inside (by rw [unbound]; simp), unbound]
  value := by
    intro name env v inside found
    rw [h.lookup_eq inside (by rw [found]; simp), found]
  unassigned := by
    intro name env inside unassigned
    exact h.lookup_unassigned inside unassigned
  names := by
    intro i hi
    exact (h.frame_fills hi).names_eq

end Memory

namespace Session

/-- The session after so many steps of an endless series. -/
def point (s : Session) (steps : Nat → Step × Option String) : Nat → Session
  | 0 => s
  | k + 1 => ((s.point steps k).step (steps k).1 (steps k).2).2

/-- The environments that a session has: the global one, those that are stored and those of
functions, and what encloses one of them. -/
inductive Has (s : Session) : Env → Prop
  | globalEnv : Has s s.interpreter.globalEnv
  | stored {key : String} {env : Env} : s.storedEnv key = .ok env → Has s env
  | closure {id : Nat} {c : Closure Code} : s.memory.closures[id]? = some c → Has s c.env
  | enclosing {i : Nat} {env : Env} : Has s (i :: env) → Has s env

variable {s : Session} {steps : Nat → Step × Option String}

theorem Whole.inside_of_has (h : s.Whole) {env : Env} (has : s.Has env) : s.memory.Inside env := by
  induction has with
  | globalEnv => exact h.globalEnv
  | stored found => exact h.storedEnv found
  | closure found => exact h.memory.envs _ _ found
  | enclosing _ ih => exact (List.forall_mem_cons.mp ih).2

theorem Whole.point (h : s.Whole) (k : Nat) : (s.point steps k).Whole := by
  induction k with
  | zero => exact h
  | succ k ih => exact ih.step (steps k).1 (steps k).2

theorem point_later {j k : Nat} (h : j ≤ k) :
    (s.point steps j).memory.Later (s.point steps k).memory := by
  induction k, h using Nat.le_induction with
  | base => exact .refl _ _
  | succ k _ ih => exact ih.trans ((s.point steps k).step_grows (steps k).1 (steps k).2).2

/-- A name whose slot has no value either never gets one, or gets one at some point and then has it
for good. -/
theorem point_settles {name : Value} {env : Env} {k : Nat}
    (inside : (s.point steps k).memory.Inside env)
    (unassigned : (s.point steps k).memory.lookup name env = .error (.unassigned name)) :
    (∀ j ≥ k, (s.point steps j).memory.lookup name env = .error (.unassigned name)) ∨
      ∃ v, ∃ p > k,
        (∀ j, k ≤ j → j < p →
          (s.point steps j).memory.lookup name env = .error (.unassigned name)) ∧
        ∀ j ≥ p, (s.point steps j).memory.lookup name env = .ok v := by
  classical
  by_cases never : ∀ j ≥ k, (s.point steps j).memory.lookup name env = .error (.unassigned name)
  · exact .inl never
  · have some : ∃ p, k ≤ p ∧
        (s.point steps p).memory.lookup name env ≠ .error (.unassigned name) := by
      simpa using never
    -- The first point at which the slot is seen to have its value.
    obtain ⟨since, assigned⟩ := Nat.find_spec some
    have first : k < Nat.find some := by
      refine Nat.lt_of_le_of_ne since ?_
      intro same
      rw [← same] at assigned
      exact assigned unassigned
    obtain ⟨v, value⟩ := (((point_later since).keepsBindings).unassigned name env inside
      unassigned).resolve_left assigned
    refine .inr ⟨v, Nat.find some, first, ?_, ?_⟩
    · intro j hk hp
      by_contra early
      exact Nat.find_min some hp ⟨hk, early⟩
    · intro j hj
      have there := inside.later (point_later since)
      exact (point_later hj).keepsBindings.value name env v there value

end Session

/-- Bindings are written once. From any point of a session on, whatever steps follow, a name that
is unbound stays so, a name that has a value keeps it, a name that has none gets at most one, and
no frame changes its names or their order. The same holds from any moment inside of a run to what
it starts, to its end, and to the end of what started it. -/
theorem bindings_are_written_once {table : Option (List (String × Form))} {maxDepth : Option Int}
    {setting : Option String} {s : Session}
    (started : Session.start table maxDepth setting = .ok s) (steps : Nat → Step × Option String)
    (k : Nat) :
    (∀ env, (s.point steps k).Has env → (s.point steps k).memory.Inside env) ∧
    (∀ j ≥ k, (s.point steps k).memory.KeepsBindings (s.point steps j).memory) ∧
    (∀ name env, (s.point steps k).memory.Inside env →
      (s.point steps k).memory.lookup name env = .error (.unassigned name) →
      (∀ j ≥ k, (s.point steps j).memory.lookup name env = .error (.unassigned name)) ∨
        ∃ v, ∃ p > k,
          (∀ j, k ≤ j → j < p →
            (s.point steps j).memory.lookup name env = .error (.unassigned name)) ∧
          ∀ j ≥ p, (s.point steps j).memory.lookup name env = .ok v) ∧
    ∀ a b : Moment, a.Reaches b → a.memory.KeepsBindings b.memory ∧
      b.memory.KeepsBindings b.left ∧ b.left.KeepsBindings a.left := by
  refine ⟨?_, ?_, ?_, ?_⟩
  · intro env has
    exact ((Session.whole_start started).point k).inside_of_has has
  · intro j hj
    exact (Session.point_later hj).keepsBindings
  · intro name env inside unassigned
    exact Session.point_settles inside unassigned
  · intro a b reached
    obtain ⟨began, ended⟩ := reached.later
    exact ⟨began.keepsBindings, b.later_left.keepsBindings, ended.keepsBindings⟩

namespace Sample

/-- An environment is made whose name has no value, and then the name gets one. -/
def assigning : Nat → Step × Option String
  | 0 => (.extendUnassigned "e" (.tuple [.scalar (.text "x")]) none, none)
  | 1 => (.assign (.scalar (.text "x")) (.scalar (.int 1)) (some "e"), none)
  | _ => (.maxDepth, none)

/-- What is found under the name at a point, in the environment that was made. -/
def found (s : Session) (k : Nat) : Except Fault Value :=
  (s.point assigning k).memory.lookup (.text "x") [1]

end Sample

theorem bindings_are_written_once_by_assigning :
    ∃ s, Session.start none none none = .ok s ∧
      Sample.found s 1 = .error (.unassigned (.text "x")) ∧
      ∃ v, ∃ p > 1, ∀ j ≥ p, Sample.found s j = .ok v := by
  have checked : (Session.start none none none).toOption.any (fun s =>
      (s.point Sample.assigning 1).memory.frames.size == 2 &&
        ((Sample.found s 1).mapError Fault.kind).map Value.isMarker == .error .unassigned &&
        (Sample.found s 2).isOk) = true := by
    decide +kernel
  cases started : Session.start none none none with
  | error e => simp [started, Except.toOption] at checked
  | ok s =>
      simp only [started, Except.toOption, Option.any_some, Bool.and_eq_true, beq_iff_eq] at checked
      obtain ⟨⟨size, before⟩, after⟩ := checked
      have unassigned : Sample.found s 1 = .error (.unassigned (.text "x")) := by
        cases failed : Sample.found s 1 with
        | ok v => simp [failed, Except.mapError, Except.map] at before
        | error e =>
            rcases Memory.lookup_eq_error failed with rfl | rfl | rfl
            · simp [failed, Except.mapError, Except.map, Fault.kind] at before
            · rfl
            · simp [failed, Except.mapError, Except.map, Fault.kind] at before
      have inside : (s.point Sample.assigning 1).memory.Inside [1] := by
        intro i hi
        rw [List.mem_singleton.mp hi, size]
        omega
      obtain ⟨-, -, settles, -⟩ := bindings_are_written_once started Sample.assigning 1
      refine ⟨s, rfl, unassigned, ?_⟩
      cases settles (.text "x") [1] inside unassigned with
      | inl never =>
          have still : Sample.found s 2 = .error (.unassigned (.text "x")) := never 2 (by omega)
          simp [still, Except.isOk, Except.toBool] at after
      | inr settled =>
          obtain ⟨v, p, later, -, value⟩ := settled
          exact ⟨v, p, later, value⟩

end ConstLang
