import ConstLang.Proofs.Contents
import ConstLang.Proofs.Moment
import ConstLang.Proofs.Renaming.Given

/-!
Markers in order. A return puts a marker around its value, the statements around it hand the
marker on, and the call takes it off. That is seen to only where statements stand: a marker that
comes up anywhere else is a value like others, and slots, operands and conditionals carry it.

What is in order depends on whether markers may be anywhere. If not, code returns only where
statements stand and no value is a marker, except that a statement may yield one. In either case
no marker is around another one. A step of evaluation keeps that of memory and of what it
yields, and so does a run, moment by moment.
-/

namespace ConstLang

/-- A marker is around a value that is none. -/
def Value.Unnested : Value → Prop
  | .marker _ content => content.isMarker = false
  | _ => True

def Value.Orderly (anywhere : Prop) (v : Value) : Prop :=
  (v.isMarker = true → anywhere) ∧ v.Unnested

/-- The property holds throughout the value that a fault speaks of. -/
def Fault.Every (P : Value → Prop) : Fault → Prop
  | .unbound v | .unassigned v | .duplicate v | .unknownNode v | .unknownFunction v | .noSlot v
  | .slotTaken v => v.Every P
  | _ => True

mutual

/-- Code that returns only where statements stand; the flag tells whether it stands there itself. -/
def Code.Stated (statement : Bool) : Code → Prop
  | .literal _ | .name _ => True
  | .declare _ c => c.Stated false
  | .select p c a => p.Stated false ∧ c.Stated statement ∧ a.Stated statement
  | .close _ _ body => body.Stated true
  | .sequence cs => StatedAll statement cs
  | .enter _ body => body.Stated statement
  | .returning c => statement = true ∧ c.Stated false
  | .apply f xs => f.Stated false ∧ StatedAll false xs

def StatedAll (statement : Bool) : List Code → Prop
  | [] => True
  | c :: cs => c.Stated statement ∧ StatedAll statement cs

end

theorem statedAll_iff {statement : Bool} {cs : List Code} :
    StatedAll statement cs ↔ ∀ c ∈ cs, c.Stated statement := by
  induction cs with
  | nil => simp [StatedAll]
  | cons c cs ih => simp [StatedAll, ih]

structure Code.Orderly (anywhere : Prop) (statement : Bool) (c : Code) : Prop where
  values : c.Every (Value.Orderly anywhere)
  returns : anywhere ∨ c.Stated statement

/-- What code may yield: where a statement stands also a marker, around a value in order. -/
inductive Yielded (anywhere : Prop) : Bool → Value → Prop
  | plain {statement : Bool} {v : Value} :
      v.Every (Value.Orderly anywhere) → Yielded anywhere statement v
  | returned {id : Nat} {content : Value} :
      content.isMarker = false → content.Every (Value.Orderly anywhere) →
      Yielded anywhere true (.marker id content)

structure Memory.Orderly (anywhere : Prop) (m : Memory Code) : Prop where
  slots : m.Holds (Value.Orderly anywhere)
  bodies : ∀ (id : Nat) (c : Closure Code), m.closures[id]? = some c →
    c.body.Orderly anywhere true

variable {anywhere : Prop}

section Values

variable {v : Value}

theorem Value.orderly_of_not_marker (h : v.isMarker = false) : v.Orderly anywhere := by
  cases v with
  | marker id content => cases h
  | _ => exact ⟨by simp [isMarker], trivial⟩

theorem Value.orderly_of_not_made (v : Value) (h : v.isMade = false) : v.Orderly anywhere := by
  cases v with
  | marker _ _ => cases h
  | _ => exact orderly_of_not_marker rfl

theorem Value.Every.self {P : Value → Prop} (h : v.Every P) : P v := by
  cases v with
  | list _ | tuple _ | dict _ | node _ | primitive _ _ _ | function _ _ _ | marker _ _ => exact h.1
  | _ => exact h

theorem Yielded.undefined {statement : Bool} : Yielded anywhere statement .undefined :=
  .plain (Value.orderly_of_not_marker rfl)

theorem Yielded.every (h : Yielded anywhere false v) : v.Every (Value.Orderly anywhere) := by
  cases h with
  | plain hv => exact hv

theorem Yielded.statement {statement : Bool} (h : Yielded anywhere statement v) :
    Yielded anywhere true v := by
  cases h with
  | plain hv => exact .plain hv
  | returned bare hv => exact .returned bare hv

/-- What is left when a call has taken the marker off is in order, and no marker. -/
theorem Yielded.taken (h : Yielded anywhere true v) :
    v.returned.Every (Value.Orderly anywhere) ∧ v.returned.isMarker = false := by
  cases h with
  | plain hv =>
      cases v with
      | marker id content => exact ⟨hv.2, hv.1.2⟩
      | _ => exact ⟨Value.orderly_of_not_marker rfl, rfl⟩
  | returned bare hv => exact ⟨hv, bare⟩

end Values

namespace Code.Orderly

variable {statement : Bool}

theorem of_mem {cs : List Code} {c : Code} (values : EveryCode (Value.Orderly anywhere) cs)
    (returns : anywhere ∨ StatedAll statement cs) (h : c ∈ cs) : c.Orderly anywhere statement :=
  ⟨everyCode_iff.mp values c h, returns.imp_right fun all => statedAll_iff.mp all c h⟩

theorem declared {x : Value} {c : Code} (h : (declare x c).Orderly anywhere statement) :
    c.Orderly anywhere false :=
  ⟨h.values.2, h.returns⟩

theorem predicate {p c a : Code} (h : (select p c a).Orderly anywhere statement) :
    p.Orderly anywhere false :=
  ⟨h.values.1, h.returns.imp_right And.left⟩

theorem branch {p c a : Code} (h : (select p c a).Orderly anywhere statement) (v : Value) :
    (if v.isTrue then c else a).Orderly anywhere statement := by
  split
  · exact ⟨h.values.2.1, h.returns.imp_right fun stated => stated.2.1⟩
  · exact ⟨h.values.2.2, h.returns.imp_right fun stated => stated.2.2⟩

theorem closed {params locals : List Value} {body : Code}
    (h : (close params locals body).Orderly anywhere statement) : body.Orderly anywhere true :=
  ⟨h.values.2.2, h.returns⟩

theorem statements {cs : List Code} (h : (sequence cs).Orderly anywhere statement) :
    ∀ c ∈ cs, c.Orderly anywhere statement := by
  intro c hc
  exact of_mem h.values h.returns hc

theorem entered {locals : List Value} {body : Code}
    (h : (enter locals body).Orderly anywhere statement) : body.Orderly anywhere statement :=
  ⟨h.values.2, h.returns⟩

theorem returned {c : Code} (h : (returning c).Orderly anywhere statement) :
    c.Orderly anywhere false :=
  ⟨h.values, h.returns.imp_right And.right⟩

theorem operator {f : Code} {xs : List Code} (h : (apply f xs).Orderly anywhere statement) :
    f.Orderly anywhere false :=
  ⟨h.values.1, h.returns.imp_right And.left⟩

theorem operands {f : Code} {xs : List Code} (h : (apply f xs).Orderly anywhere statement) :
    ∀ x ∈ xs, x.Orderly anywhere false := by
  intro x hx
  exact of_mem h.values.2 (h.returns.imp_right And.right) hx

end Code.Orderly

namespace Memory.Orderly

variable {m : Memory Code} (h : m.Orderly anywhere)

include h

theorem push {f : Frame} (hf : f.Holds (Value.Orderly anywhere)) (env : Env) :
    (m.push f env).2.Orderly anywhere :=
  ⟨h.slots.push hf env, h.bodies⟩

theorem fill {v : Value} (hv : v.Every (Value.Orderly anywhere)) (i : Nat) (x : Value) :
    (m.fill i x v).Orderly anywhere :=
  ⟨h.slots.fill hv i x, h.bodies⟩

theorem fresh : m.fresh.2.Orderly anywhere := ⟨h.slots, h.bodies⟩

theorem write (text : String) : (m.write text).Orderly anywhere := ⟨h.slots, h.bodies⟩

theorem close {c : Closure Code} (body : c.body.Orderly anywhere true)
    (params locals : List Value) : (m.close params locals c).2.Orderly anywhere := by
  refine ⟨h.slots, ?_⟩
  intro id d found
  simp only [Memory.close, Array.getElem?_push] at found
  by_cases new : id = m.closures.size
  · rw [if_pos new] at found
    cases found
    exact body
  · rw [if_neg new] at found
    exact h.bodies id d found

end Memory.Orderly

namespace Eval

variable {α γ : Type}

/-- Ends in order, whether by a return or by a failure. -/
def InOrder (anywhere : Prop) (act : Eval Code α) (m : Memory Code) (returned : α → Prop) : Prop :=
  act.Ends m (fun a n => n.Orderly anywhere ∧ returned a)
    (fun e n => n.Orderly anywhere ∧ e.Every (Value.Orderly anywhere))

variable {m : Memory Code} {returned : α → Prop}

theorem InOrder.bind {act : Eval Code γ} {next : γ → Eval Code α} {passed : γ → Prop}
    (h : act.InOrder anywhere m passed)
    (hn : ∀ c n, n.Orderly anywhere → passed c → (next c).InOrder anywhere n returned) :
    (act >>= next).InOrder anywhere m returned :=
  Ends.bind h fun c n passed => hn c n passed.1 passed.2

theorem inOrder_throw {e : Fault} (orderly : m.Orderly anywhere)
    (h : e.Every (Value.Orderly anywhere)) :
    (throw e : Eval Code α).InOrder anywhere m returned :=
  ⟨orderly, h⟩

theorem inOrder_lookup (orderly : m.Orderly anywhere) (x : String) (env : Env) :
    (lookup (.text x) env).InOrder anywhere m (·.Every (Value.Orderly anywhere)) := by
  rw [InOrder, Ends, lookup_apply]
  cases found : m.lookup (.text x) env with
  | ok v => exact ⟨orderly, orderly.slots.lookup found⟩
  | error e =>
      refine ⟨orderly, ?_⟩
      rcases Memory.lookup_eq_error found with rfl | rfl | rfl
      · exact Value.orderly_of_not_marker rfl
      · exact Value.orderly_of_not_marker rfl
      · trivial

theorem inOrder_assign {x v : Value} (orderly : m.Orderly anywhere)
    (hx : x.Every (Value.Orderly anywhere)) (hv : v.Every (Value.Orderly anywhere)) (env : Env) :
    (assign x v env).InOrder anywhere m (fun _ => True) := by
  rw [InOrder, Ends, assign_apply]
  cases found : m.target x env with
  | ok i => exact ⟨orderly.fill hv i x, trivial⟩
  | error e =>
      refine ⟨orderly, ?_⟩
      rcases Memory.target_eq_error found with rfl | rfl | rfl
      · exact hx
      · exact hx
      · trivial

theorem inOrder_enterScope (orderly : m.Orderly anywhere) (locals : List Value) (env : Env) :
    (enterScope locals env).InOrder anywhere m (fun _ => True) := by
  rw [enterScope, InOrder, ends_bind, ends_ofMishap]
  cases made : Frame.unassigned locals with
  | ok frame => exact ⟨orderly.push (Frame.holds_unassigned made) env, trivial⟩
  | error e => exact ⟨orderly, trivial⟩

theorem inOrder_enterCall {id : Nat} {params locals args : List Value}
    (orderly : m.Orderly anywhere)
    (hf : (Value.function id params locals).Every (Value.Orderly anywhere))
    (hargs : ∀ x ∈ args, x.Every (Value.Orderly anywhere)) :
    (enterCall (.function id params locals) id params locals args).InOrder anywhere m
      (fun entered => entered.1.Orderly anywhere true) := by
  refine ends_enterCall (fun _ => ⟨orderly, trivial⟩) (fun _ => ⟨orderly, hf⟩)
    (fun _ => ⟨orderly, trivial⟩) ?_
  intro c frame found _ made
  exact ⟨orderly.push (Frame.holds_callSlots made hargs) c.env, orderly.bodies id c found⟩

theorem inOrder_performOperation {args : List Value} (orderly : m.Orderly anywhere)
    (op : Operation) (hargs : ∀ x ∈ args, x.Every (Value.Orderly anywhere)) :
    (performOperation op args).InOrder anywhere m (·.Every (Value.Orderly anywhere)) := by
  simp only [InOrder, performOperation, ends_bind, ends_fresh, ends_ofExcept]
  split
  · rename_i effect performed
    have made := Value.every_perform Value.orderly_of_not_made hargs performed
    split
    · exact ⟨orderly.fresh.write _, made⟩
    · exact ⟨orderly.fresh, made⟩
  · rename_i e failed
    refine ⟨orderly.fresh, ?_⟩
    rcases Operation.perform_eq_error failed with ⟨mishap, rfl⟩ | ⟨text, rfl⟩ <;> trivial

/-- A return puts a marker around a value that is none, and hands on one that is there. -/
theorem inOrder_mark {v : Value} {statement : Bool} (orderly : m.Orderly anywhere)
    (hv : v.Every (Value.Orderly anywhere)) (allowed : anywhere ∨ statement = true) :
    (mark v).InOrder anywhere m (Yielded anywhere statement) := by
  unfold mark
  split
  · exact ⟨orderly, .plain hv⟩
  · rename_i other
    have bare : v.isMarker = false := by
      cases v with
      | marker id content => exact absurd rfl (other id content)
      | _ => rfl
    refine ⟨orderly.fresh, ?_⟩
    cases allowed with
    | inl any => exact .plain ⟨⟨fun _ => any, bare⟩, hv⟩
    | inr stated =>
        rw [stated]
        exact .returned bare hv

/-- Execution that ends in order, where code and memory are in order. -/
def KeepsOrder (anywhere : Prop) (exec : Code → Env → Eval Code Value) : Prop :=
  ∀ (statement : Bool) (c : Code) (env : Env) (m : Memory Code), c.Orderly anywhere statement →
    m.Orderly anywhere → (exec c env).InOrder anywhere m (Yielded anywhere statement)

namespace KeepsOrder

variable {exec : Code → Env → Eval Code Value} (keeps : KeepsOrder anywhere exec)

include keeps

theorem runAll {cs : List Code} (env : Env)
    (hcs : ∀ c ∈ cs, c.Orderly anywhere false) (orderly : m.Orderly anywhere) :
    (ConstLang.runAll exec cs env).InOrder anywhere m
      (∀ v ∈ ·, v.Every (Value.Orderly anywhere)) := by
  induction cs generalizing m with
  | nil => exact ⟨orderly, by simp⟩
  | cons c cs ih =>
      obtain ⟨hc, hcs⟩ := List.forall_mem_cons.mp hcs
      refine (keeps false c env m hc orderly).bind ?_
      intro v n orderly hv
      refine (ih hcs orderly).bind ?_
      intro vs n orderly hvs
      exact ⟨orderly, List.forall_mem_cons.mpr ⟨hv.every, hvs⟩⟩

theorem runStatements {cs : List Code} {v : Value} {statement : Bool} (env : Env)
    (hcs : ∀ c ∈ cs, c.Orderly anywhere statement) (hv : Yielded anywhere statement v)
    (orderly : m.Orderly anywhere) :
    (ConstLang.runStatements exec v cs env).InOrder anywhere m (Yielded anywhere statement) := by
  induction cs generalizing m v with
  | nil => exact ⟨orderly, hv⟩
  | cons c cs ih =>
      obtain ⟨hc, hcs⟩ := List.forall_mem_cons.mp hcs
      refine (keeps statement c env m hc orderly).bind ?_
      intro w n orderly hw
      split
      · exact ⟨orderly, hw⟩
      · exact ih hcs hw orderly

/-- A call yields a value in order, and the call of a function no marker. -/
theorem call {f : Value} {args : List Value} (orderly : m.Orderly anywhere)
    (hf : f.Every (Value.Orderly anywhere))
    (hargs : ∀ x ∈ args, x.Every (Value.Orderly anywhere)) :
    (ConstLang.call exec f args).InOrder anywhere m fun v =>
      v.Every (Value.Orderly anywhere) ∧ (f.isFunction = true → v.isMarker = false) := by
  cases f with
  | primitive id name op =>
      have performed := inOrder_performOperation orderly op hargs
      exact Ends.mono performed fun v n h => ⟨h.1, h.2, by simp [Value.isFunction]⟩
  | function id params locals =>
      refine (inOrder_enterCall orderly hf hargs).bind ?_
      intro entered n orderly hbody
      refine (keeps true entered.1 entered.2 n hbody orderly).bind ?_
      intro v n orderly hv
      exact ⟨orderly, hv.taken.1, fun _ => hv.taken.2⟩
  | _ => exact inOrder_throw orderly hf

/-- A step of evaluation, one case for each kind of code. -/
theorem step : KeepsOrder anywhere (Code.step exec) := by
  intro statement c env m hc orderly
  cases c with
  | literal v => exact ⟨orderly, .plain hc.values⟩
  | name x => exact Ends.mono (inOrder_lookup orderly x env) fun v n h => ⟨h.1, .plain h.2⟩
  | declare x c =>
      refine (keeps false c env m hc.declared orderly).bind ?_
      intro v n orderly hv
      refine (inOrder_assign orderly hc.values.1 hv.every env).bind ?_
      intro _ n orderly _
      exact ⟨orderly, .undefined⟩
  | select p c a =>
      refine (keeps false p env m hc.predicate orderly).bind ?_
      intro v n orderly _
      have chosen := hc.branch v
      split at chosen
      · rw [if_pos ‹_›]
        exact keeps statement c env n chosen orderly
      · rw [if_neg ‹_›]
        exact keeps statement a env n chosen orderly
  | close params locals body =>
      refine ⟨orderly.close hc.closed params locals, .plain ?_⟩
      exact ⟨Value.orderly_of_not_marker rfl, hc.values.1, hc.values.2.1⟩
  | sequence cs => exact keeps.runStatements env hc.statements .undefined orderly
  | enter locals body =>
      refine (inOrder_enterScope orderly locals env).bind ?_
      intro inner n orderly _
      exact keeps statement body inner n hc.entered orderly
  | returning c =>
      refine (keeps false c env m hc.returned orderly).bind ?_
      intro v n orderly hv
      exact inOrder_mark orderly hv.every (hc.returns.imp_right And.left)
  | apply f xs =>
      refine (keeps false f env m hc.operator orderly).bind ?_
      intro g n orderly hg
      refine (keeps.runAll env hc.operands orderly).bind ?_
      intro args n orderly hargs
      have called := keeps.call orderly hg.every hargs
      exact Ends.mono called fun v n h => ⟨h.1, .plain h.2.1⟩

end KeepsOrder

theorem keepsOrder_run (depth : Nat) : KeepsOrder anywhere (run depth) := by
  induction depth with
  | zero =>
      intro statement c env m _ orderly
      exact inOrder_throw orderly trivial
  | succ depth ih => exact ih.step

end Eval

def Task.Orderly (anywhere : Prop) : Task → Prop
  | .run code _ => ∃ statement, code.Orderly anywhere statement
  | .call f args =>
      f.Every (Value.Orderly anywhere) ∧ ∀ x ∈ args, x.Every (Value.Orderly anywhere)

namespace Moment

structure Orderly (anywhere : Prop) (a : Moment) : Prop where
  memory : a.memory.Orderly anywhere
  task : a.task.Orderly anywhere

variable {a b : Moment}

/-- A moment starts only moments in order, if it is in order itself. -/
theorem Starts.orderly (h : a.Starts b) (orderly : a.Orderly anywhere) : b.Orderly anywhere := by
  have keeps (d : Nat) : Eval.KeepsOrder anywhere (ConstLang.run d) := Eval.keepsOrder_run d
  obtain ⟨memory, task⟩ := orderly
  cases h with
  | value =>
      obtain ⟨statement, code⟩ := task
      exact ⟨memory, false, code.declared⟩
  | predicate =>
      obtain ⟨statement, code⟩ := task
      exact ⟨memory, false, code.predicate⟩
  | @branch d p c a env m v n decided =>
      obtain ⟨statement, code⟩ := task
      have before := (keeps d false p env m code.predicate memory).of_ok decided
      exact ⟨before.1, statement, code.branch v⟩
  | @statement d cs before c after env m v n split others unmarked =>
      obtain ⟨statement, code⟩ := task
      subst split
      have earlier : ∀ c ∈ before, c.Orderly anywhere statement := by
        intro c hc
        exact code.statements c (List.mem_append_left _ hc)
      have ended := ((keeps d).runStatements env earlier .undefined memory).of_ok others
      exact ⟨ended.1, statement, code.statements c (by simp)⟩
  | @block d locals body env m inner n entered =>
      obtain ⟨statement, code⟩ := task
      have before := (Eval.inOrder_enterScope memory locals env).of_ok entered
      exact ⟨before.1, statement, code.entered⟩
  | returned =>
      obtain ⟨statement, code⟩ := task
      exact ⟨memory, false, code.returned⟩
  | operator =>
      obtain ⟨statement, code⟩ := task
      exact ⟨memory, false, code.operator⟩
  | @operand d f xs before x after env m g n vs k split operator others =>
      obtain ⟨statement, code⟩ := task
      subst split
      have earlier : ∀ x ∈ before, x.Orderly anywhere false := by
        intro x hx
        exact code.operands x (List.mem_append_left _ hx)
      have first := (keeps d false f env m code.operator memory).of_ok operator
      have ended := ((keeps d).runAll env earlier first.1).of_ok others
      exact ⟨ended.1, false, code.operands x (by simp)⟩
  | @call d f xs env m g n args k operator operands =>
      obtain ⟨statement, code⟩ := task
      have first := (keeps d false f env m code.operator memory).of_ok operator
      have ended := ((keeps d).runAll env code.operands first.1).of_ok operands
      exact ⟨ended.1, first.2.every, ended.2⟩
  | @body d id params locals args m code inner n entered =>
      have before := (Eval.inOrder_enterCall memory task.1 task.2).of_ok entered
      exact ⟨before.1, true, before.2⟩

theorem Reaches.orderly (h : a.Reaches b) (orderly : a.Orderly anywhere) : b.Orderly anywhere := by
  induction h with
  | refl => exact orderly
  | tail _ last ih => exact last.orderly ih

/-- A moment in order comes to an end in order. -/
theorem Orderly.ends (h : a.Orderly anywhere) :
    a.act.InOrder anywhere a.memory (Yielded anywhere true) := by
  obtain ⟨depth, task, m⟩ := a
  cases task with
  | run code env =>
      obtain ⟨statement, hc⟩ := h.task
      have ran := Eval.keepsOrder_run depth statement code env m hc h.memory
      exact Eval.Ends.mono ran fun v n h => ⟨h.1, h.2.statement⟩
  | call f args =>
      have called := (Eval.keepsOrder_run depth).call h.memory h.task.1 h.task.2
      exact Eval.Ends.mono called fun v n h => ⟨h.1, .plain h.2.1⟩

theorem Orderly.left (h : a.Orderly anywhere) : a.left.Orderly anywhere :=
  Eval.ends_after (h.ends.imp (fun _ _ => And.left) (fun _ _ => And.left))

end Moment
end ConstLang
