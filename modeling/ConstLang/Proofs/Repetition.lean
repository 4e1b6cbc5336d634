import ConstLang.Proofs.Parallel.Run
import ConstLang.Proofs.Store

/-!
Repeated calls. A call that did not ask for a value before it was there comes to the same
at every later point of a session: the slots that were filled in between are slots that it
does not read, and what it makes it makes again, with identities of its own.
-/

namespace ConstLang

open Eval

/-- The second end is the first one, renamed: the same value or the same fault to all that can be
seen of them, and the same texts displayed. -/
abbrev EndSame (ρ : Renaming) : EStateM.Result Fault (Memory Code) Value →
    EStateM.Result Fault (Memory Code) Value → Prop :=
  Corresponds (fun v v' => v' = v.rename ρ ∧ v'.encode = v.encode)
    (fun e e' => e' = e.rename ρ ∧ e'.report = e.report) fun n n' => n'.output = n.output

/-- Two runs of which the second starts in a memory that has grown out of that of the first. A run
that asks for a value before it is there may get it the second time. -/
def Origin.again {m m' : Memory Code} (whole : m.Whole) (later : m.Later m')
    (output : m'.output = m.output) : Origin where
  left := m
  right := m'
  excused e := e.kind = .unassigned
  whole := whole
  later := later
  output := output
  same x env inside := by
    simp only [Memory.lookup_text]
    exact (later.lookupIn_cases (.text x) inside).imp_right fun none => ⟨_, none, rfl⟩

/-- A call, in two memories of which the second has grown out of the first. -/
theorem applyFunction_again {m m' : Memory Code} (whole : m.Whole) (later : m.Later m')
    (output : m'.output = m.output) {f : Value} {args : List Value} (hf : Obtained f m)
    (hargs : ∀ x ∈ args, Obtained x m) {depth : Nat}
    (settled : ∀ e n, applyFunction depth f args m = .error e n → e.kind ≠ .unassigned) :
    ∃ ρ : Renaming, ρ.Leaves m ∧
      EndSame ρ (applyFunction depth f args m) (applyFunction depth f args m') := by
  let o := Origin.again whole later output
  have start := o.parallel_start
  have old {v : Value} (hv : Obtained v m) : o.comparison.values m m' v v :=
    ⟨(o.leaves.value_eq hv).symm, hv.imp (o.known_of_gave start.left.later start.right.later)⟩
  have ended : o.comparison.Agree m m' o.comparison.values (applyFunction depth f args)
      (applyFunction depth f args) :=
    Comparison.agree_call (o.follows_run depth) start (old hf)
      (List.forall₂_same.mpr fun x hx => old (hargs x hx))
      fun _ _ _ known hargs => Origin.agree_enterCall start known hargs
  refine ⟨o.ρ, o.leaves, ?_⟩
  unfold Comparison.Agree at ended
  generalize applyFunction depth f args m = r, applyFunction depth f args m' = r' at ended settled
  cases ended with
  | ok _ _ memories values =>
      obtain ⟨rfl, -⟩ := values
      exact .ok ⟨rfl, Value.encode_rename _ _⟩ memories.output
  | error faults _ memories =>
      obtain rfl := faults
      exact .error ⟨rfl, Fault.report_rename _ _⟩ memories.output
  | excused unassigned => exact absurd unassigned (settled _ _ rfl)

/-- A call of a function and arguments that were obtained in a session comes to the same after any
further steps, unless it failed for a name that had no value. -/
theorem calls_are_repeatable {table : Option (List (String × Form))} {maxDepth : Option Int}
    {setting : Option String} {s : Session} (started : Session.start table maxDepth setting = .ok s)
    (history further : List (Step × Option String)) :
    let first := (s.after history).memory.cleared
    let second := ((s.after history).after further).memory.cleared
    (∀ key v, (s.after history).storedValue key = .ok v → Obtained v first) ∧
      ∀ depth f args, Obtained f first → (∀ x ∈ args, Obtained x first) →
        (∀ e n, applyFunction depth f args first = .error e n → e.kind ≠ .unassigned) →
        ∃ ρ : Renaming, ρ.Leaves first ∧
          EndSame ρ (applyFunction depth f args first) (applyFunction depth f args second) := by
  have whole := (Session.whole_start started).after history
  refine ⟨fun key v found => ?_, fun depth f args hf hargs settled => ?_⟩
  · exact (whole.storedValue found).imp (s.after history).memory.later_cleared.gave
  · have grown := ((s.after history).after_grows further).2
    have later : (s.after history).memory.cleared.Later
        ((s.after history).after further).memory.cleared :=
      ⟨grown.frames, grown.closures, grown.serial⟩
    exact applyFunction_again whole.memory.cleared later rfl hf hargs settled

namespace Sample

/-- A function that makes a function that reads `k`. -/
def maker : Form :=
  let returning (f : Form) : Form := .list [.scalar (.text "return_statement"), f]
  let function (x : String) (body : Form) : Form :=
    .list [.scalar (.text "function_definition"), .list [.scalar (.text x)], returning body]
  .tagged (function "x" (function "y" (.list [.scalar (.text "name"), .scalar (.text "k")])))

/-- The function is made in an environment in which `k` has a value and `late` has none yet. -/
def making : List (Step × Option String) :=
  [(.extend "outer" (.list [.scalar (.text "k")]) (.list [.scalar (.int 7)]) none, none),
    (.extendUnassigned "inner" (.list [.scalar (.text "late")]) (some "outer"), none),
    (.evaluate maker (some "inner"), some "f")]

/-- In between, `late` gets a value, a declaration fails, and the function is called. -/
def meanwhile : List (Step × Option String) :=
  [(.assign (.scalar (.text "late")) (.stored "f") (some "inner"), none),
    (.assign (.scalar (.text "k")) (.scalar (.int 8)) (some "outer"), none),
    (.apply (.stored "f") (.list [.stored "f"]), some "g")]

/-- Whether the function is there and can be called with itself. -/
def callable (s : Session) : Bool :=
  match s.storedValue "f" with
  | .ok f =>
      match applyFunction 9 f [f] s.memory.cleared with
      | .ok _ _ => true
      | .error _ _ => false
  | .error _ => false

end Sample

theorem calls_are_repeatable_with_new_functions :
    ∃ s f, Session.start none (some 50) none = .ok s ∧
      (s.after Sample.making).storedValue "f" = .ok f ∧
      ∃ ρ : Renaming, ρ.Leaves (s.after Sample.making).memory.cleared ∧
        EndSame ρ (applyFunction 9 f [f] (s.after Sample.making).memory.cleared)
          (applyFunction 9 f [f]
            ((s.after Sample.making).after Sample.meanwhile).memory.cleared) := by
  have called : (match Session.start none (some 50) none with
      | .ok s => Sample.callable (s.after Sample.making)
      | .error _ => false) = true := by decide +kernel
  cases started : Session.start none (some 50) none with
  | error e => simp [started] at called
  | ok s =>
      simp only [started, Sample.callable] at called
      have repeats := calls_are_repeatable started Sample.making Sample.meanwhile
      cases stored : (s.after Sample.making).storedValue "f" with
      | error e => simp [stored] at called
      | ok f =>
          have obtained := repeats.1 "f" f stored
          refine ⟨s, f, rfl, stored, repeats.2 9 f [f] obtained (by simpa using obtained) ?_⟩
          intro e n failed
          simp [stored, failed] at called

end ConstLang
