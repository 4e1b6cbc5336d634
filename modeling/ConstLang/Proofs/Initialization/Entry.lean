import ConstLang.Proofs.Timeline

/-!
Scopes that are entered in a run. A block is entered with a new frame when it runs, and a
function when it is called. At no other time does a run make a frame: every frame that is there
in the end, and was not there in the beginning, is that of a scope entered in between. Whenever
there is a frame at its place, the scope has been entered before.
-/

namespace ConstLang
namespace Eval

variable {α γ : Type} {k : Nat} {m : Memory Code}

theorem Ends.traced {act : Eval Code α} {returned : α → Memory Code → Prop}
    {failed : Fault → Memory Code → Prop} (h : act.Ends m returned failed) :
    act.Ends m (fun a n => act m = .ok a n ∧ returned a n) failed := by
  rw [Ends] at h ⊢
  cases ended : act m with
  | ok a n =>
      rw [ended] at h
      exact ⟨rfl, h⟩
  | error e n =>
      rw [ended] at h
      exact h

/-- Ends without a frame at the place, whichever way it ends. -/
def Within (k : Nat) (act : Eval Code α) (m : Memory Code) : Prop :=
  act.Ends m (fun _ n => n.frames.size ≤ k) fun _ n => n.frames.size ≤ k

theorem Within.bind {act : Eval Code γ} {next : γ → Eval Code α} (h : act.Within k m)
    (hn : ∀ c n, act m = .ok c n → n.frames.size ≤ k → (next c).Within k n) :
    (act >>= next).Within k m :=
  Ends.bind h.traced fun c n ended => hn c n ended.1 ended.2

/-- A computation that makes one frame makes it at another place. -/
theorem within_of_one {act : Eval Code α} (size : m.frames.size ≤ k)
    (one : act.Ends m (fun _ n => n.frames.size = m.frames.size + 1) fun _ n => n = m)
    (other : ∀ a n, act m = .ok a n → m.frames.size ≠ k) : act.Within k m := by
  refine one.traced.imp ?_ ?_
  · intro a n ended
    have elsewhere := other a n ended.1
    omega
  · intro e n same
    rwa [same]

variable {exec : Code → Env → Eval Code Value} {env : Env}

theorem within_runStatements {cs : List Code} {v : Value} (unmarked : v.isMarker = false)
    (size : m.frames.size ≤ k)
    (each : ∀ before c after w n, cs = before ++ c :: after →
      runStatements exec v before env m = .ok w n → w.isMarker = false → n.frames.size ≤ k →
      (exec c env).Within k n) : (runStatements exec v cs env).Within k m := by
  induction cs generalizing v m with
  | nil => exact size
  | cons c cs ih =>
      refine (each [] c cs v m rfl rfl unmarked size).bind ?_
      intro w n first size
      by_cases marked : w.isMarker = true
      · rw [if_pos marked]
        exact size
      · rw [if_neg marked]
        refine ih (by simpa using marked) size ?_
        intro before d after u l split others
        refine each (c :: before) d after u l (by rw [split, List.cons_append]) ?_
        rw [runStatements, bind_of_ok first, if_neg marked]
        exact others

theorem within_runAll {cs : List Code} (size : m.frames.size ≤ k)
    (each : ∀ before c after vs n, cs = before ++ c :: after →
      runAll exec before env m = .ok vs n → n.frames.size ≤ k → (exec c env).Within k n) :
    (runAll exec cs env).Within k m := by
  induction cs generalizing m with
  | nil => exact size
  | cons c cs ih =>
      refine (each [] c cs [] m rfl rfl size).bind ?_
      intro v n first size
      have rest : (runAll exec cs env).Within k n := by
        refine ih size ?_
        intro before d after vs l split others
        refine each (c :: before) d after (v :: vs) l (by rw [split, List.cons_append]) ?_
        rw [runAll, bind_of_ok first, bind_of_ok others]
        rfl
      refine rest.bind ?_
      intro vs l _ size
      exact size

theorem within_lookup (size : m.frames.size ≤ k) (x : Value) (env : Env) :
    (lookup x env).Within k m := by
  rw [Within, Ends, lookup_apply]
  cases m.lookup x env <;> exact size

theorem within_assign (size : m.frames.size ≤ k) (x v : Value) (env : Env) :
    (assign x v env).Within k m := by
  rw [Within, Ends, assign_apply]
  cases m.target x env with
  | error e => exact size
  | ok i => simpa [Memory.fill] using size

theorem within_mark (size : m.frames.size ≤ k) (v : Value) : (mark v).Within k m := by
  unfold mark
  split <;> exact size

theorem within_performOperation (size : m.frames.size ≤ k) (op : Operation) (args : List Value) :
    (performOperation op args).Within k m := by
  simp only [Within, performOperation, ends_bind, ends_fresh, ends_ofExcept]
  split
  · split <;> exact size
  · exact size

end Eval

namespace Moment

variable {a b c root : Moment}

/-- Memory at the beginning or at the end of a moment lies between the two. -/
theorem later_between {n : Memory Code} (state : n = c.memory ∨ n = c.left) :
    c.memory.Later n ∧ n.Later c.left := by
  rcases state with rfl | rfl
  · exact ⟨.refl _ _, c.later_left⟩
  · exact ⟨c.later_left, .refl _ _⟩

/-- A moment enters a scope: the frame at a new place is made for the parameters, if the scope is
that of a function, and the names, and the body is about to run there. -/
inductive Enters : Moment → Nat → Option (List Value) → List Value → Moment → Prop
  | block {d locals body env m inner n} (entered : enterScope locals env m = .ok inner n) :
      Enters ⟨d + 1, .run (.enter locals body) env, m⟩ m.frames.size none locals
        ⟨d, .run body inner, n⟩
  | call {d id params locals args m code inner n}
      (entered : enterCall (.function id params locals) id params locals args m =
        .ok (code, inner) n) :
      Enters ⟨d, .call (.function id params locals) args, m⟩ m.frames.size (some params) locals
        ⟨d, .run code inner, n⟩

namespace Enters

variable {k : Nat} {params : Option (List Value)} {locals : List Value}

theorem starts (h : a.Enters k params locals b) : a.Starts b := by
  cases h with
  | block entered => exact .block entered
  | call entered => exact .body entered

theorem place_eq (h : a.Enters k params locals b) : k = a.memory.frames.size := by
  cases h <;> rfl

/-- Nothing else happens inside of the moment. -/
theorem only (h : a.Enters k params locals b) (h' : a.Starts c) : c = b := by
  cases h with
  | block entered =>
      cases h' with
      | block entered' =>
          cases entered.symm.trans entered'
          rfl
  | call entered =>
      cases h' with
      | body entered' =>
          cases entered.symm.trans entered'
          rfl

/-- The frame is there from the beginning of the body on: whatever moment of the run has a frame at
that place comes after it. -/
theorem later (h : a.Enters k params locals b) (ha : root.Reaches a) (hc : root.Reaches c)
    {n : Memory Code} (state : n = c.memory ∨ n = c.left) (inside : k < n.frames.size) :
    b.memory.Later n := by
  have ended : b.memory.Later a.left := b.later_left.trans h.starts.left_later
  have place := h.place_eq
  obtain ⟨begun, closed⟩ := later_between state
  rcases Reaches.ordered ha hc with within | around | after | before
  · cases Relation.ReflTransGen.cases_head within with
    | inl same =>
        subst same
        rcases state with rfl | rfl
        · omega
        · exact ended
    | inr started =>
        obtain ⟨b', first, reached⟩ := started
        rw [h.only first] at reached
        exact (Reaches.later reached).1.trans begun
  · obtain ⟨earlier, left⟩ := Reaches.later around
    rcases state with rfl | rfl
    · have size := earlier.size_le
      omega
    · exact ended.trans left
  · exact (ended.trans after).trans begun
  · have size := (closed.trans before).size_le
    omega

end Enters

/-- No scope is entered at the place. -/
def Avoids (k : Nat) (a : Moment) : Prop :=
  ∀ e params locals b, a.Reaches e → ¬e.Enters k params locals b

namespace Avoids

variable {k : Nat}

theorem starts (h : a.Avoids k) (started : a.Starts b) : b.Avoids k := by
  intro e params locals c reached
  exact h e params locals c (reached.head started)

section Parts

variable {d : Nat} {m : Memory Code} (size : m.frames.size ≤ k)

include size

theorem within_enterScope {locals : List Value} {body : Code} {env : Env}
    (h : Avoids k ⟨d + 1, .run (.enter locals body) env, m⟩) :
    (enterScope locals env).Within k m := by
  have one : (enterScope locals env : Eval Code Env).Ends m
      (fun _ n => n.frames.size = m.frames.size + 1) fun _ n => n = m := by
    rw [enterScope, Eval.ends_bind, Eval.ends_ofMishap]
    cases Frame.unassigned locals with
    | error e => rfl
    | ok frame => simp [Memory.push]
  refine Eval.within_of_one size one ?_
  intro inner n entered same
  subst same
  exact h _ _ _ _ .refl (.block entered)

/-- A call makes no frame at the place, if the body does not. -/
theorem within_call {f : Value} {args : List Value} (h : Avoids k ⟨d, .call f args, m⟩)
    (body : ∀ c inner n, Starts ⟨d, .call f args, m⟩ ⟨d, .run c inner, n⟩ → n.frames.size ≤ k →
      (ConstLang.run d c inner).Within k n) : (applyFunction d f args).Within k m := by
  cases f with
  | primitive _ _ op => exact Eval.within_performOperation size op args
  | function id params locals =>
      have one : (enterCall (.function id params locals) id params locals args).Ends m
          (fun _ n => n.frames.size = m.frames.size + 1) fun _ n => n = m :=
        Eval.ends_enterCall (fun _ => rfl) (fun _ => rfl) (fun _ => rfl)
          fun c frame _ _ _ => by simp [Memory.push]
      have entering :
          (enterCall (.function id params locals) id params locals args).Within k m := by
        refine Eval.within_of_one size one ?_
        intro entry n entered same
        subst same
        exact h _ _ _ _ .refl (.call entered)
      refine Eval.Within.bind entering ?_
      intro entry n entered size
      refine (body entry.1 entry.2 n (.body entered) size).bind ?_
      intro v l _ size
      exact size
  | _ => exact size

end Parts

/-- A run in which no scope is entered at the place makes no frame there. -/
theorem within_run {d : Nat} {code : Code} {env : Env} {m : Memory Code}
    (h : Avoids k ⟨d, .run code env, m⟩) (size : m.frames.size ≤ k) :
    (ConstLang.run d code env).Within k m := by
  induction d generalizing code env m with
  | zero => exact size
  | succ d ih =>
      have part {c : Code} {inner : Env} {n : Memory Code}
          (started : Starts ⟨d + 1, .run code env, m⟩ ⟨d, .run c inner, n⟩)
          (size : n.frames.size ≤ k) : (ConstLang.run d c inner).Within k n :=
        ih (h.starts started) size
      have call {f : Value} {args : List Value} {n : Memory Code}
          (started : Starts ⟨d + 1, .run code env, m⟩ ⟨d, .call f args, n⟩)
          (size : n.frames.size ≤ k) : (applyFunction d f args).Within k n := by
        refine within_call size (h.starts started) ?_
        intro c inner l entered
        exact ih ((h.starts started).starts entered)
      cases code with
      | literal _ | close _ _ _ => exact size
      | name x => exact Eval.within_lookup size (.text x) env
      | declare x c =>
          refine (part .value size).bind ?_
          intro v n _ size
          refine (Eval.within_assign size x v env).bind ?_
          intro _ l _ size
          exact size
      | select p c a =>
          refine (part .predicate size).bind ?_
          intro v n decided size
          have chosen := part (.branch decided) size
          by_cases truth : v.isTrue = true
          · rw [if_pos truth] at chosen ⊢
            exact chosen
          · rw [if_neg truth] at chosen ⊢
            exact chosen
      | sequence cs =>
          refine Eval.within_runStatements rfl size ?_
          intro before c after w n split ran unmarked
          exact part (.statement split ran unmarked)
      | enter locals body =>
          refine (within_enterScope size h).bind ?_
          intro inner n entered
          exact part (.block entered)
      | returning c =>
          refine (part .returned size).bind ?_
          intro v n _ size
          exact Eval.within_mark size v
      | apply f xs =>
          refine (part .operator size).bind ?_
          intro g n operator size
          have operands : (runAll (ConstLang.run d) xs env).Within k n := by
            refine Eval.within_runAll size ?_
            intro before x after vs l split ran
            exact part (.operand split operator ran)
          refine operands.bind ?_
          intro args l ran
          exact call (.call operator ran)

end Avoids

/-- Every frame that is made in a run is that of a scope that was entered. -/
theorem exists_enters {d : Nat} {code : Code} {env : Env} {m n : Memory Code} {k : Nat}
    (reached : Reaches ⟨d, .run code env, m⟩ c) (state : n = c.memory ∨ n = c.left)
    (old : m.frames.size ≤ k) (inside : k < n.frames.size) :
    ∃ e params locals b, Reaches ⟨d, .run code env, m⟩ e ∧ e.Enters k params locals b := by
  by_contra none
  have avoids : Avoids k ⟨d, .run code env, m⟩ := by
    intro e params locals b reached enters
    exact none ⟨e, params, locals, b, reached, enters⟩
  have size : (Moment.mk d (.run code env) m).left.frames.size ≤ k :=
    Eval.ends_after (avoids.within_run old)
  have later : n.Later (Moment.mk d (.run code env) m).left :=
    (later_between state).2.trans (Reaches.later reached).2
  have grown := later.size_le
  omega

end Moment
end ConstLang
