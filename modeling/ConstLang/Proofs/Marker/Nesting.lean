import ConstLang.Proofs.Isolation
import ConstLang.Proofs.Marker.Order
import ConstLang.Proofs.Tree.Parts

/-!
Markers never nest. Returns may stand anywhere, and put markers into slots, arguments and the
values of calls; but a return hands on a marker that it gets. So if no marker is around another
one in memory, in a tree and in the arguments of a call, then none is at any later moment, also
where a run fails. What the call of a function takes its marker off is no marker then, and a
program yields none.
-/

namespace ConstLang

/-- No marker is around another one, in a slot or in the code of a function. -/
structure Memory.Unnested (m : Memory Code) : Prop where
  slots : m.Holds Value.Unnested
  bodies : ∀ (id : Nat) (c : Closure Code), m.closures[id]? = some c → c.body.Every Value.Unnested

def Task.Unnested : Task → Prop
  | .run code _ => code.Every Value.Unnested
  | .call f args => f.Every Value.Unnested ∧ ∀ x ∈ args, x.Every Value.Unnested

/-- No marker is around another one at a moment, nor when it has come to its end; and the call of
a function has yielded none. -/
structure Moment.Unnested (a : Moment) : Prop where
  memory : a.memory.Unnested
  task : a.task.Unnested
  ended : a.act.Ends a.memory (fun v n => n.Unnested ∧ v.Every Value.Unnested)
    (fun e n => n.Unnested ∧ e.Every Value.Unnested)
  taken : ∀ f args, a.task = .call f args → f.isFunction = true →
    ∀ v n, a.ending = .ok v n → v.isMarker = false

theorem Value.orderly_anywhere : Value.Orderly True = Value.Unnested := by
  funext v
  simp [Orderly]

theorem Memory.orderly_anywhere {m : Memory Code} : m.Orderly True ↔ m.Unnested := by
  constructor
  · intro h
    refine ⟨Value.orderly_anywhere ▸ h.slots, ?_⟩
    intro id c found
    exact Value.orderly_anywhere ▸ (h.bodies id c found).values
  · intro h
    refine ⟨Value.orderly_anywhere ▸ h.slots, ?_⟩
    intro id c found
    exact ⟨Value.orderly_anywhere ▸ h.bodies id c found, .inl trivial⟩

theorem Task.orderly_anywhere {task : Task} : task.Orderly True ↔ task.Unnested := by
  cases task with
  | run code env =>
      constructor
      · intro h
        obtain ⟨statement, orderly⟩ := h
        have values := orderly.values
        rwa [Value.orderly_anywhere] at values
      · intro h
        exact ⟨true, Value.orderly_anywhere ▸ h, .inl trivial⟩
  | call f args => simp only [Task.Orderly, Task.Unnested, Value.orderly_anywhere]

theorem Yielded.unnested {statement : Bool} {v : Value} (h : Yielded True statement v) :
    v.Every Value.Unnested := by
  cases h with
  | plain hv => exact Value.orderly_anywhere ▸ hv
  | returned bare hv => exact ⟨bare, Value.orderly_anywhere ▸ hv⟩

namespace Moment

variable {a b : Moment}

theorem Orderly.taken (h : a.Orderly True) {f : Value} {args : List Value}
    (called : a.task = .call f args) (function : f.isFunction = true) {v : Value}
    {n : Memory Code} (ended : a.ending = .ok v n) : v.isMarker = false := by
  obtain ⟨depth, task, m⟩ := a
  cases called
  have ran := (Eval.keepsOrder_run depth).call h.memory h.task.1 h.task.2
  exact (ran.of_ok ended).2.2 function

theorem Orderly.unnested (h : a.Orderly True) : a.Unnested where
  memory := Memory.orderly_anywhere.mp h.memory
  task := Task.orderly_anywhere.mp h.task
  ended := by
    refine h.ends.imp ?_ ?_
    · intro v n ended
      exact ⟨Memory.orderly_anywhere.mp ended.1, ended.2.unnested⟩
    · intro e n failed
      exact ⟨Memory.orderly_anywhere.mp failed.1, Value.orderly_anywhere ▸ failed.2⟩
  taken := by
    intro f args called function v n ended
    exact h.taken called function ended

theorem Reaches.unnested (h : a.Reaches b) (memory : a.memory.Unnested)
    (task : a.task.Unnested) : b.Unnested :=
  (h.orderly ⟨Memory.orderly_anywhere.mpr memory, Task.orderly_anywhere.mpr task⟩).unnested

end Moment

theorem Value.unnested_analyze {tree : Value} {code : Code} (h : tree.Every Value.Unnested)
    (analyzed : tree.analyze = .ok code) : code.Every Value.Unnested :=
  Value.every_analyze (fun _ => trivial) trivial h analyzed

theorem Node.unnested_makeBlock {program : Value} (h : program.Every Value.Unnested) :
    (Value.node (Node.makeBlock program)).Every Value.Unnested := by
  cases program with
  | node n => exact ⟨trivial, h⟩
  | _ => exact ⟨trivial, trivial, h⟩

/-- Markers never nest: whatever tree is evaluated and whatever function is applied, if no marker
is around another one in the beginning, none is at any moment that is reached, no call of a
function yields a marker, and no program does. -/
theorem markers_never_nest {m : Memory Code} (start : m.Unnested) (depth : Nat) :
    (∀ (tree : Value) (env : Env) (code : Code) (a : Moment), tree.Every Value.Unnested →
      tree.analyze = .ok code → Moment.Reaches ⟨depth, .run code env, m⟩ a → a.Unnested) ∧
    (∀ (f : Value) (args : List Value) (a : Moment), f.Every Value.Unnested →
      (∀ x ∈ args, x.Every Value.Unnested) → Moment.Reaches ⟨depth, .call f args, m⟩ a →
      a.Unnested) ∧
    ∀ (program : Value) (env : Env), program.Every Value.Unnested →
      (runProgram depth program env).Ends m
        (fun v n => n.Unnested ∧ v.Every Value.Unnested ∧ v.isMarker = false)
        (fun _ n => n.Unnested) := by
  refine ⟨?_, ?_, ?_⟩
  · intro tree env code a given analyzed reached
    exact reached.unnested start (Value.unnested_analyze given analyzed)
  · intro f args a hf hargs reached
    exact reached.unnested start ⟨hf, hargs⟩
  · intro program env given
    have evaluated : (evaluate depth (.node (Node.makeBlock program)) env).Ends m
        (fun v n => n.Unnested ∧ v.Every Value.Unnested) (fun _ n => n.Unnested) := by
      rw [evaluate, Eval.ends_bind, Eval.ends_ofExcept]
      cases analyzed : (Value.node (Node.makeBlock program)).analyze with
      | error e => exact start
      | ok code =>
          have began : Moment.Unnested ⟨depth, .run code env, m⟩ :=
            Moment.Reaches.unnested .refl start
              (Value.unnested_analyze (Node.unnested_makeBlock given) analyzed)
          exact began.ended.imp (fun v n h => h) (fun e n h => h.1)
    refine (evaluated.guardDepth depth fun _ => id).bind ?_
    intro v n h
    by_cases marked : v.isMarker = true
    · rw [if_pos marked]
      exact h.1
    · rw [if_neg marked]
      exact ⟨h.1, h.2, by simpa using marked⟩

namespace Sample

/-- A memory in which a return that stood where no statement does has left a marker in a slot. -/
def markedMemory : Memory Code where
  frames := #[⟨[(.text "x", some (.marker 0 (.int 1)))]⟩]
  serial := 1

/-- The operand is a return of the name that has the marker, and so is the body of the function. -/
def markedCall : Value :=
  .node (.application
    (.node (.function (.tuple [.text "y"]) (.node (.returning (.node (.name "y"))))))
    (.tuple [.node (.returning (.node (.name "x")))]))

end Sample

theorem markers_never_nest_in_call :
    ∃ (code : Code) (a : Moment) (f : Value) (n : Memory Code),
      Sample.markedMemory.Unnested ∧ Sample.markedCall.Every Value.Unnested ∧
      Sample.markedCall.analyze = .ok code ∧
      Moment.Reaches ⟨8, .run code [0], Sample.markedMemory⟩ a ∧
      a.task = .call f [.marker 0 (.int 1)] ∧ a.ending = .ok (.int 1) n ∧ a.Unnested := by
  have start : Sample.markedMemory.Unnested := by
    refine ⟨?_, by simp [Sample.markedMemory]⟩
    intro i s hs v hv
    cases i with
    | zero =>
        obtain rfl := List.mem_singleton.mp hs
        cases hv
        exact ⟨rfl, trivial⟩
    | succ i => simp [Sample.markedMemory, Memory.frame, Frame.empty] at hs
  have given : Sample.markedCall.Every Value.Unnested := by
    simp [Sample.markedCall, Value.Every, Node.Every, EveryItem, Value.Unnested]
  have analyzed : Sample.markedCall.analyze = .ok (.apply
      (.close [.text "y"] [] (.returning (.name "y"))) [.returning (.name "x")]) := rfl
  have reached : Moment.Reaches ⟨8, .run (.apply (.close [.text "y"] [] (.returning (.name "y")))
      [.returning (.name "x")]) [0], Sample.markedMemory⟩ _ :=
    .single (.call rfl rfl)
  refine ⟨_, _, _, _, start, given, analyzed, reached, rfl, rfl, ?_⟩
  exact (markers_never_nest start 8).1 _ _ _ _ given analyzed reached

end ConstLang
