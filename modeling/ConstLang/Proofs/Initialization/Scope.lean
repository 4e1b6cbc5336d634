import ConstLang.Proofs.Initialization.Entry
import ConstLang.Proofs.Initialization.Order
import ConstLang.Proofs.Tree.Parts

/-!
Scopes at the moments of a run. A scope is entered with a new frame, which has values for the
parameters and none for the names that the body declares. From then on, at every moment of the
run and whatever it is about, the frame has the names of the scope, and those with values come
first. When the body has come to its end and has not returned before, all of them have values;
the frame stays as it is, and the names of the scope never lack a value again.
-/

namespace ConstLang

/-- The slots of a frame are those of the parameters, which have values, and then of the names, and
the slots that have values come before those that have none. -/
structure Frame.InStep (params locals : List Value) (f : Frame) : Prop where
  names : f.names = params ++ locals
  params : ∀ s ∈ f.slots.take params.length, s.2.isSome
  order : ∃ pending, f.Awaits pending

theorem forall_mem_of_forall₂ {α γ : Type} {R : α → γ → Prop} {P : α → Prop} {Q : γ → Prop}
    {xs : List α} {ys : List γ} (h : List.Forall₂ R xs ys) (hp : ∀ x ∈ xs, P x)
    (carried : ∀ x y, R x y → P x → Q y) : ∀ y ∈ ys, Q y := by
  induction h with
  | nil => simp
  | cons first _ ih =>
      obtain ⟨own, rest⟩ := List.forall_mem_cons.mp hp
      exact List.forall_mem_cons.mpr ⟨carried _ _ first own, ih rest⟩

namespace Frame

variable {f f' : Frame} {params locals pending : List Value}

/-- The first slots keep their values. -/
theorem Fills.isSome_take {may : Value → Prop} (h : f.Fills may f') (count : Nat)
    (assigned : ∀ s ∈ f.slots.take count, s.2.isSome) :
    ∀ s ∈ f'.slots.take count, s.2.isSome := by
  have pairs : List.Forall₂ _ f.slots f'.slots := h
  refine forall_mem_of_forall₂ (List.forall₂_take count pairs) assigned ?_
  intro s s' filled some
  rcases filled.2 with same | ⟨none, -⟩
  · rwa [same]
  · simp [none] at some

/-- The frame of a scope has the same names ever after, and its parameters keep their values. -/
theorem InStep.fills (h : f.InStep params locals) (fills : f.Fills (fun _ => True) f')
    (order : ∃ pending, f'.Awaits pending) : f'.InStep params locals where
  names := fills.names_eq.trans h.names
  params := fills.isSome_take params.length h.params
  order := order

theorem awaits_nil : f.Awaits [] ↔ ∀ s ∈ f.slots, s.2.isSome := by
  constructor
  · intro h
    obtain ⟨filled, slots, assigned⟩ := h
    rw [slots, List.map_nil, List.append_nil]
    exact assigned
  · intro assigned
    exact ⟨f.slots, by simp, assigned⟩

/-- A frame with all its values stays as it is. -/
theorem Awaits.fills_nil (h : f.Awaits []) (fills : f.Fills (fun _ => True) f') : f' = f := by
  refine fills.eq_of_closed fun s hs none _ => ?_
  have some := awaits_nil.mp h s hs
  simp [none] at some

end Frame

/-- A name whose nearest frame has all its values has a value. -/
theorem Memory.lookup_of_awaits_nil {m : Memory Code} {env : Env} {x : String} {k : Nat}
    (complete : (m.frame k).Awaits [])
    (nearest : env.find? (fun i => ((m.frame i).get? (.text x)).isSome) = some k) :
    ∃ v, m.lookup (.text x) env = .ok v := by
  rw [lookup_text]
  induction env with
  | nil => cases nearest
  | cons i env ih =>
      rw [List.find?_cons] at nearest
      rw [lookupIn]
      rcases found : (m.frame i).get? (.text x) with _ | _ | v
      · simp only [found, Option.isSome_none] at nearest
        exact ih nearest
      · simp only [found, Option.isSome_some, Option.some.injEq] at nearest
        subst nearest
        obtain ⟨s, hs, none⟩ := Option.map_eq_some_iff.mp found
        have some := Frame.awaits_nil.mp complete s (List.mem_of_find?_eq_some hs)
        simp [none] at some
      · exact ⟨v, rfl⟩

theorem writesAll_append (xs ys : List Code) :
    writesAll (xs ++ ys) = writesAll xs ++ writesAll ys := by
  induction xs with
  | nil => rfl
  | cons x xs ih => simp [writesAll, ih]

variable {opens : Scopes}

/-- What is about to be done is in place, and the innermost frame awaits what code declares. -/
def Task.Arranged (opens : Scopes) (m : Memory Code) : Task → Prop
  | .run c env => c.InPlace opens ∧ ∃ rest, m.Awaits env (c.writes ++ rest)
  | .call f args => Eval.InPlace opens f m ∧ ∀ x ∈ args, Eval.InPlace opens x m

namespace Moment

structure Arranged (opens : Scopes) (a : Moment) : Prop where
  memory : a.memory.Arranged opens
  task : a.task.Arranged opens a.memory

variable {a b c root : Moment}

/-- Memory is arranged also at the end of a moment. -/
theorem Arranged.left (h : a.Arranged opens) : a.left.Arranged opens := by
  obtain ⟨d, task, m⟩ := a
  obtain ⟨arranged, inPlace⟩ := h
  refine Eval.ends_after ?_
  cases task with
  | run code env =>
      obtain ⟨hc, rest, awaits⟩ := inPlace
      have ran := (Eval.keepsArranged_run opens d).arranges code env m rest hc arranged awaits
      exact Eval.Ends.mono ran fun _ _ ended => ended.1
  | call f args =>
      have called := (Eval.keepsArranged_run opens d).call arranged inPlace.1 inPlace.2
      exact Eval.Ends.mono called fun _ _ ended => ended.1

/-- What an arranged moment starts is arranged. -/
theorem Starts.arranged (h : a.Starts b) (arranged : a.Arranged opens) : b.Arranged opens := by
  obtain ⟨memory, task⟩ := arranged
  cases h with
  | value =>
      obtain ⟨⟨-, -, hc⟩, rest, awaits⟩ := task
      rw [Code.writes, List.append_assoc] at awaits
      exact ⟨memory, hc, _, awaits⟩
  | predicate =>
      obtain ⟨⟨-, hp, -, -⟩, rest, awaits⟩ := task
      simp only [Code.writes, List.append_assoc] at awaits
      exact ⟨memory, hp, _, awaits⟩
  | @branch d p c a env m v n decided =>
      obtain ⟨⟨⟨noneP, noneC, noneA⟩, hp, hc, ha⟩, rest, awaits⟩ := task
      simp only [Code.writes, noneP, noneC, noneA, List.nil_append] at awaits
      have ran := (Eval.keepsArranged_run opens d).inert noneP hp memory awaits
      obtain ⟨memory, -, -, awaits⟩ := ran.of_ok decided
      refine ⟨memory, ?_⟩
      by_cases truth : v.isTrue = true
      · simp only [truth, if_true]
        exact ⟨hc, rest, by rwa [noneC]⟩
      · simp only [truth, Bool.false_eq_true, if_false]
        exact ⟨ha, rest, by rwa [noneA]⟩
  | @statement d cs before c after env m v n split ran unmarked =>
      subst split
      obtain ⟨all, rest, awaits⟩ := task
      rw [Code.InPlace, inPlaceAll_iff, List.forall_mem_append, List.forall_mem_cons] at all
      obtain ⟨hbefore, hc, -⟩ := all
      simp only [Code.writes, writesAll_append, writesAll, List.append_assoc] at awaits
      have undefined : Eval.InPlace opens .undefined m := trivial
      have ends := (Eval.keepsArranged_run opens d).runStatements (inPlaceAll_iff.mpr hbefore)
        undefined memory awaits
      obtain ⟨memory, -, awaits⟩ := ends.of_ok ran
      exact ⟨memory, hc, _, awaits unmarked⟩
  | @block d locals body env m inner n entered =>
      obtain ⟨⟨-, writes, names, hbody⟩, -⟩ := task
      have ends := Eval.arranges_enterScope memory names env
      obtain ⟨memory, opened⟩ := ends.of_ok entered
      exact ⟨memory, hbody, [], opened.awaits writes⟩
  | returned =>
      obtain ⟨⟨-, hc⟩, rest, awaits⟩ := task
      exact ⟨memory, hc, rest, awaits⟩
  | operator =>
      obtain ⟨⟨-, hf, -⟩, rest, awaits⟩ := task
      rw [Code.writes, List.append_assoc] at awaits
      exact ⟨memory, hf, _, awaits⟩
  | @operand d f xs before x after env m g n vs k split operator ran =>
      subst split
      obtain ⟨⟨⟨noneF, noneX⟩, hf, hxs⟩, rest, awaits⟩ := task
      rw [Code.writes, noneF, noneX, List.nil_append] at awaits
      rw [writesAll_append, List.append_eq_nil_iff] at noneX
      rw [inPlaceAll_iff, List.forall_mem_append, List.forall_mem_cons] at hxs
      obtain ⟨hbefore, hx, -⟩ := hxs
      have called := (Eval.keepsArranged_run opens d).inert noneF hf memory awaits
      obtain ⟨memory, -, -, awaits⟩ := called.of_ok operator
      have ends := (Eval.keepsArranged_run opens d).runAll noneX.1
        (inPlaceAll_iff.mpr hbefore) memory awaits
      obtain ⟨memory, -, -, awaits⟩ := ends.of_ok ran
      have none : x.writes = [] := (List.append_eq_nil_iff.mp noneX.2).1
      exact ⟨memory, hx, rest, by rwa [none]⟩
  | @call d f xs env m g n args k operator operands =>
      obtain ⟨⟨⟨noneF, noneX⟩, hf, hxs⟩, rest, awaits⟩ := task
      rw [Code.writes, noneF, noneX, List.nil_append] at awaits
      have called := (Eval.keepsArranged_run opens d).inert noneF hf memory awaits
      obtain ⟨memory, -, hg, awaits⟩ := called.of_ok operator
      have ends := (Eval.keepsArranged_run opens d).runAll noneX hxs memory awaits
      obtain ⟨memory, later, hargs, -⟩ := ends.of_ok operands
      exact ⟨memory, hg.imp later.places, hargs⟩
  | @body d id params locals args m code inner n entered =>
      have ends := Eval.arranges_enterCall memory task.1.1 task.2
      obtain ⟨memory, ⟨-, writes, -, hbody⟩, opened⟩ := ends.of_ok entered
      exact ⟨memory, hbody, [], opened.awaits writes⟩

theorem Reaches.arranged (h : a.Reaches b) (arranged : a.Arranged opens) : b.Arranged opens := by
  induction h with
  | refl => exact arranged
  | tail _ last ih => exact last.arranged ih

namespace Enters

variable {k : Nat} {params : Option (List Value)} {locals : List Value}

/-- The body is that of a scope, and its frame is new. -/
theorem opened (h : a.Enters k params locals b) (arranged : a.Arranged opens) :
    ∃ body inner, b.task = .run body inner ∧ opens params locals body ∧ body.writes = locals ∧
      a.memory.Opened inner (params.getD []) locals b.memory := by
  obtain ⟨memory, task⟩ := arranged
  cases h with
  | @block d locals body env m inner n entered =>
      obtain ⟨⟨opens, writes, names, -⟩, -⟩ := task
      have ends := Eval.arranges_enterScope memory names env
      exact ⟨body, inner, rfl, opens, writes, (ends.of_ok entered).2⟩
  | @call d id params locals args m code inner n entered =>
      have ends := Eval.arranges_enterCall memory task.1.1 task.2
      obtain ⟨-, ⟨opens, writes, -⟩, opened⟩ := ends.of_ok entered
      exact ⟨code, inner, rfl, opens, writes, opened⟩

/-- Whenever there is a frame at the place of the scope, it is in step. -/
theorem inStep (h : a.Enters k params locals b) (arranged : root.Arranged opens)
    (ha : root.Reaches a) (hc : root.Reaches c) {n : Memory Code}
    (state : n = c.memory ∨ n = c.left) (inside : k < n.frames.size) :
    (n.frame k).InStep (params.getD []) locals := by
  obtain ⟨_, _, -, -, -, opened⟩ := h.opened (ha.arranged arranged)
  have place := h.place_eq
  have ordered : ∃ pending, (n.frame k).Awaits pending := by
    have own := hc.arranged arranged
    rcases state with rfl | rfl
    · exact own.memory.frames k
    · exact own.left.frames k
  have begun : (b.memory.frame k).InStep (params.getD []) locals := by
    rw [place]
    exact ⟨opened.frame.names, opened.frame.params, locals, opened.frame.awaits⟩
  refine begun.fills (Memory.Grows.frame_fills (h.later ha hc state inside) ?_) ordered
  rw [place]
  exact opened.inside

/-- When the body has come to its end and has not returned before, all names have values. -/
theorem completed (h : a.Enters k params locals b) (arranged : a.Arranged opens) {v : Value}
    {n : Memory Code} (ended : b.ending = .ok v n) (unmarked : v.isMarker = false) :
    (n.frame k).Awaits [] ∧ k < n.frames.size := by
  obtain ⟨body, inner, task, -, writes, opened⟩ := h.opened arranged
  have own := h.starts.arranged arranged
  obtain ⟨d, t, m⟩ := b
  obtain rfl : t = .run body inner := task
  have ran := (Eval.keepsArranged_run opens d).arranges body inner m [] own.task.1 own.memory
    (opened.awaits writes)
  obtain ⟨i, head, inside, complete⟩ := (ran.of_ok ended).2.2 unmarked
  obtain rfl : a.memory.frames.size = i := Option.some.inj (opened.head.symm.trans head)
  rw [h.place_eq]
  exact ⟨complete, inside⟩

end Enters
end Moment
end ConstLang
