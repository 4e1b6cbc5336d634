import ConstLang.Proofs.Consistency
import ConstLang.Proofs.Moment

/-!
The order in which names get their values. The slots of a frame are filled from the first to the
last: at any time those that have values come first, and the frame awaits the names after them.
A declaration gives a value to the next name that its frame awaits, since it runs where the
statements of the scope do, one after the other; nothing else touches the frame, however many
scopes are entered in between.

Which scopes there are is left open here. A scope is a block, or a function with its parameters,
and has the names that its body declares.
-/

namespace ConstLang

namespace Frame

variable {f : Frame}

/-- The last slots are those of the pending names, without values; the slots before them have
values. -/
def Awaits (pending : List Value) (f : Frame) : Prop :=
  ∃ filled, f.slots = filled ++ pending.map (·, none) ∧ ∀ s ∈ filled, s.2.isSome

/-- A frame as a scope begins with: the parameters have values, and the names are awaited. -/
structure New (params locals : List Value) (f : Frame) : Prop where
  names : f.names = params ++ locals
  params : ∀ s ∈ f.slots.take params.length, s.2.isSome
  awaits : f.Awaits locals

theorem new_unassigned (locals : List Value) : (⟨locals.map (·, none)⟩ : Frame).New [] locals where
  names := by simp [names, Function.comp_def]
  params := by simp
  awaits := ⟨[], rfl, by simp⟩

theorem new_callSlots {params locals args : List Value} (arity : args.length = params.length)
    (assigned : ∀ x ∈ args, x.slot.isSome) :
    (⟨callSlots params locals args⟩ : Frame).New params locals := by
  have filled : ∀ s ∈ params.zip (args.map Value.slot), s.2.isSome := by
    intro s hs
    obtain ⟨x, hx, same⟩ := List.mem_map.mp (List.of_mem_zip hs).2
    rw [← same]
    exact assigned x hx
  have first : (callSlots params locals args).take params.length =
      params.zip (args.map Value.slot) :=
    List.take_left' (by simp [arity])
  refine ⟨map_fst_callSlots arity, ?_, params.zip (args.map Value.slot), rfl, filled⟩
  rwa [first]

theorem replace_append {name : Value} {slot : Option Value}
    {filled rest : List (Value × Option Value)} (other : ∀ s ∈ filled, s.1.same name = false) :
    replace name slot (filled ++ rest) = filled ++ replace name slot rest := by
  induction filled with
  | nil => rfl
  | cons s filled ih =>
      obtain ⟨first, others⟩ := List.forall_mem_cons.mp other
      simp only [List.cons_append, replace, first, Bool.false_eq_true, if_false, ih others]

/-- The next name gets its value, if its slot is the first of that name. -/
theorem Awaits.put {x : String} {rest : List Value} (h : f.Awaits (.text x :: rest))
    (free : f.get? (.text x) = some none) (v : Value) :
    (f.put (.text x) (some v)).Awaits rest := by
  obtain ⟨filled, slots, assigned⟩ := h
  have other : ∀ s ∈ filled, s.1.same (.text x) = false := by
    simp only [get?, slots, List.find?_append] at free
    cases found : filled.find? (·.1.same (.text x)) with
    | none => simpa using found
    | some s =>
        have empty : s.2 = none := by simpa [found] using free
        have full := assigned s (List.mem_of_find?_eq_some found)
        simp [empty] at full
  refine ⟨filled ++ [(.text x, some v)], ?_, ?_⟩
  · have same : (Value.text x).same (.text x) = true := (Value.same_text _ x).mpr rfl
    simp [Frame.put, free, slots, replace_append other, replace, same]
  · simpa [or_imp, forall_and] using assigned

end Frame

/-- The scopes that code may open: blocks, which have no parameters, and functions. -/
abbrev Scopes := Option (List Value) → List Value → Code → Prop

mutual

/-- Code in which every declaration is a direct statement of a scope, and every scope is one that
may be opened, with slots for the parameters and then for the names that the body declares. -/
def Code.InPlace (opens : Scopes) : Code → Prop
  | .literal v => v.isScalar ∨ v = .undefined
  | .name _ => True
  | .declare x c => (∃ s, x = .text s) ∧ c.writes = [] ∧ c.InPlace opens
  | .select p c a =>
      (p.writes = [] ∧ c.writes = [] ∧ a.writes = []) ∧
        p.InPlace opens ∧ c.InPlace opens ∧ a.InPlace opens
  | .close params locals body =>
      opens (some params) locals body ∧ body.writes = locals ∧ Names (params ++ locals) ∧
        body.InPlace opens
  | .sequence cs => InPlaceAll opens cs
  | .enter locals body =>
      opens none locals body ∧ body.writes = locals ∧ Names locals ∧ body.InPlace opens
  | .returning c => c.writes = [] ∧ c.InPlace opens
  | .apply f xs => (f.writes = [] ∧ writesAll xs = []) ∧ f.InPlace opens ∧ InPlaceAll opens xs

def InPlaceAll (opens : Scopes) : List Code → Prop
  | [] => True
  | c :: cs => c.InPlace opens ∧ InPlaceAll opens cs

end

theorem inPlaceAll_iff {opens : Scopes} {cs : List Code} :
    InPlaceAll opens cs ↔ ∀ c ∈ cs, c.InPlace opens := by
  induction cs with
  | nil => simp [InPlaceAll]
  | cons c cs ih => simp [InPlaceAll, ih]

namespace Memory

/-- The innermost frame of an environment awaits the names. -/
def Awaits (m : Memory Code) (env : Env) (pending : List Value) : Prop :=
  ∃ k, env.head? = some k ∧ k < m.frames.size ∧ (m.frame k).Awaits pending

/-- An environment with a new frame, as a scope begins with. -/
structure Opened (m : Memory Code) (inner : Env) (params locals : List Value) (n : Memory Code) :
    Prop where
  head : inner.head? = some m.frames.size
  inside : m.frames.size < n.frames.size
  frame : (n.frame m.frames.size).New params locals

/-- A function has a closure with a body in place, made for one of the scopes; and no value stands
for a missing one. -/
def Places (opens : Scopes) (m : Memory Code) : Value → Prop
  | .function id params locals =>
      ∃ c, m.closures[id]? = some c ∧ (Code.close params locals c.body).InPlace opens
  | .uninitialized => False
  | _ => True

/-- Memory in which every frame is filled in order. -/
structure Arranged (opens : Scopes) (m : Memory Code) : Prop where
  values : m.Holds (m.Places opens)
  frames : ∀ k, ∃ pending, (m.frame k).Awaits pending

variable {opens : Scopes} {m n : Memory Code} {env : Env} {pending rest : List Value}

theorem places_of_not_made (m : Memory Code) (v : Value) (h : v.isMade = false) :
    m.Places opens v := by
  cases v with
  | function _ _ _ | uninitialized => cases h
  | _ => trivial

theorem places_names {names : List Value} (h : Names names) : EveryItem (m.Places opens) names := by
  rw [everyItem_iff]
  intro x hx
  obtain ⟨s, rfl⟩ := h.2 x hx
  trivial

theorem Grows.places {may : Nat → Value → Prop} (g : m.Grows may n) (v : Value)
    (h : m.Places opens v) : n.Places opens v := by
  cases v with
  | function id params locals =>
      obtain ⟨c, found, body⟩ := h
      exact ⟨c, g.closures_getElem? found, body⟩
  | uninitialized => cases h
  | _ => trivial

/-- A frame that nothing is written to awaits what it awaited. -/
theorem Awaits.grown (h : m.Awaits env pending) (g : m.Grows (Innermost env []) n) :
    n.Awaits env pending := by
  obtain ⟨k, head, inside, awaits⟩ := h
  refine ⟨k, head, Nat.lt_of_lt_of_le inside g.size_le, ?_⟩
  have same : n.frame k = m.frame k := by
    refine (g.frame_fills inside).eq_of_closed ?_
    intro s _ _ written
    simp [Innermost] at written
  rwa [same]

theorem opened_push (m : Memory Code) {f : Frame} {params locals : List Value}
    (new : f.New params locals) (env : Env) :
    m.Opened (m.frames.size :: env) params locals (m.push f env).2 := by
  refine ⟨rfl, by simp [push], ?_⟩
  rwa [frame_push, if_pos rfl]

/-- The new frame awaits what the body of the scope declares, and nothing else. -/
theorem Opened.awaits {inner : Env} {params locals : List Value} {body : Code}
    (h : m.Opened inner params locals n) (writes : body.writes = locals) :
    n.Awaits inner (body.writes ++ []) := by
  rw [writes, List.append_nil]
  exact ⟨m.frames.size, h.head, h.inside, h.frame.awaits⟩

namespace Arranged

theorem push (h : m.Arranged opens) {f : Frame} (values : f.Holds (m.Places opens))
    (awaits : f.Awaits pending) (env : Env) : (m.push f env).2.Arranged opens := by
  refine ⟨h.values.push values env, ?_⟩
  intro k
  rw [frame_push]
  by_cases new : k = m.frames.size
  · rw [if_pos new]
    exact ⟨pending, awaits⟩
  · rw [if_neg new]
    exact h.frames k

theorem fresh (h : m.Arranged opens) : m.fresh.2.Arranged opens := ⟨h.values, h.frames⟩

theorem write (h : m.Arranged opens) (text : String) : (m.write text).Arranged opens :=
  ⟨h.values, h.frames⟩

theorem close (h : m.Arranged opens) (params locals : List Value) (c : Closure Code) :
    (m.close params locals c).2.Arranged opens :=
  ⟨h.values.imp (m.grows_close (fun _ _ => False) params locals c).places, h.frames⟩

end Arranged
end Memory

namespace Eval

variable {opens : Scopes} {α γ : Type}

/-- Ends with memory arranged, whichever way it ends. -/
def Arranges (opens : Scopes) (act : Eval Code α) (m : Memory Code)
    (returned : α → Memory Code → Prop) : Prop :=
  act.Ends m (fun a n => n.Arranged opens ∧ returned a n) fun _ n => n.Arranged opens

variable {m : Memory Code} {env : Env} {rest : List Value} {returned : α → Memory Code → Prop}

theorem Arranges.bind {act : Eval Code γ} {next : γ → Eval Code α}
    {passed : γ → Memory Code → Prop} (h : act.Arranges opens m passed)
    (hn : ∀ c n, n.Arranged opens → passed c n → (next c).Arranges opens n returned) :
    (act >>= next).Arranges opens m returned :=
  Ends.bind h fun c n passed => hn c n passed.1 passed.2

theorem Arranges.mono {act : Eval Code α} {returned' : α → Memory Code → Prop}
    (h : act.Arranges opens m returned) (hr : ∀ a n, returned a n → returned' a n) :
    act.Arranges opens m returned' :=
  Ends.mono h fun a n ended => ⟨ended.1, hr a n ended.2⟩

theorem Arranges.of_ok {act : Eval Code α} {a : α} {n : Memory Code}
    (h : act.Arranges opens m returned) (ok : act m = .ok a n) : n.Arranged opens ∧ returned a n :=
  Ends.of_ok h ok

theorem Arranges.and_grows {act : Eval Code α} {may : Nat → Value → Prop}
    (h : act.Arranges opens m returned) (g : act.Grows may) :
    act.Arranges opens m fun a n => m.Grows may n ∧ returned a n :=
  ((g m).and h).imp (fun _ _ ended => ⟨ended.2.1, ended.1, ended.2.2⟩) fun _ _ ended => ended.2

/-- A value whose functions are in place. -/
abbrev InPlace (opens : Scopes) (v : Value) (m : Memory Code) : Prop := v.Every (m.Places opens)

theorem arranges_lookup (arranged : m.Arranged opens) (x : String) (env : Env) :
    (lookup (.text x) env).Arranges opens m fun v n => n = m ∧ InPlace opens v n := by
  rw [Arranges, Ends, lookup_apply]
  cases found : m.lookup (.text x) env with
  | ok v => exact ⟨arranged, rfl, arranged.values.lookup found⟩
  | error e => exact arranged

/-- A declaration of the next name gives it its value. -/
theorem arranges_assign {x : String} {v : Value} (arranged : m.Arranged opens)
    (awaits : m.Awaits env (.text x :: rest)) (hv : InPlace opens v m) :
    (assign (.text x) v env).Arranges opens m fun _ n => n.Awaits env rest := by
  rw [Arranges, Ends, assign_apply]
  cases found : m.target (.text x) env with
  | error e => exact arranged
  | ok i =>
      obtain ⟨head, free⟩ := Memory.target_eq_ok found
      obtain ⟨k, head', inside, awaits⟩ := awaits
      obtain rfl : i = k := Option.some.inj (head.symm.trans head')
      have filled : ((m.fill i (.text x) v).frame i).Awaits rest := by
        rw [Memory.frame_fill m _ v inside]
        exact awaits.put free v
      refine ⟨⟨arranged.values.fill hv i (.text x), ?_⟩, i, head, by simpa [Memory.fill], filled⟩
      intro j
      by_cases same : i = j
      · subst same
        exact ⟨rest, filled⟩
      · rw [Memory.frame_fill_of_ne m _ _ same]
        exact arranged.frames j

theorem arranges_mark {v : Value} (arranged : m.Arranged opens) (hv : InPlace opens v m) :
    (mark v).Arranges opens m fun w n => InPlace opens w n ∧ w.isMarker = true := by
  unfold mark
  split
  · exact ⟨arranged, hv, rfl⟩
  · exact ⟨arranged.fresh, ⟨trivial, hv⟩, rfl⟩

theorem arranges_performOperation {args : List Value} (arranged : m.Arranged opens)
    (op : Operation) (hargs : ∀ x ∈ args, InPlace opens x m) :
    (performOperation op args).Arranges opens m (InPlace opens) := by
  simp only [Arranges, performOperation, ends_bind, ends_fresh, ends_ofExcept]
  split
  · rename_i effect performed
    have made := Value.every_perform m.places_of_not_made hargs performed
    split
    · exact ⟨arranged.fresh.write _, made⟩
    · exact ⟨arranged.fresh, made⟩
  · exact arranged.fresh

/-- A block begins with a new frame. -/
theorem arranges_enterScope {locals : List Value} (arranged : m.Arranged opens)
    (names : Names locals) (env : Env) :
    (enterScope locals env).Arranges opens m fun inner n => m.Opened inner [] locals n := by
  have new := Frame.new_unassigned locals
  have listed : (locals.map (·, (none : Option Value))).map (·.1) = locals := new.names
  have made : Frame.unassigned locals = .ok ⟨locals.map (·, none)⟩ :=
    Frame.ofSlots_eq_ok (by rwa [listed])
  rw [Arranges, enterScope, made, ofMishap_ok, pure_bind, ends_push]
  exact ⟨arranged.push (Frame.holds_unassigned made) new.awaits env, m.opened_push new env⟩

theorem slot_isSome {v : Value} (h : InPlace opens v m) : v.slot.isSome := by
  cases v with
  | uninitialized => cases h
  | _ => rfl

/-- And so does a call, with the arguments for the parameters. -/
theorem arranges_enterCall {id : Nat} {params locals args : List Value}
    (arranged : m.Arranged opens) (hf : m.Places opens (.function id params locals))
    (hargs : ∀ x ∈ args, InPlace opens x m) :
    (enterCall (.function id params locals) id params locals args).Arranges opens m
      fun entered n => (Code.close params locals entered.1).InPlace opens ∧
        m.Opened entered.2 params locals n := by
  obtain ⟨c, found, body⟩ := hf
  refine ends_enterCall (fun _ => arranged) (fun _ => arranged) (fun _ => arranged) ?_
  intro c' frame found' arity made
  obtain rfl : c = c' := Option.some.inj (found.symm.trans found')
  have new : (⟨callSlots params locals args⟩ : Frame).New params locals :=
    Frame.new_callSlots arity fun x hx => slot_isSome (hargs x hx)
  have listed : (callSlots params locals args).map (·.1) = params ++ locals := new.names
  have slots := Frame.ofSlots_eq_ok (listed ▸ body.2.2.1)
  have holds := Frame.holds_callSlots made hargs
  obtain rfl : (⟨callSlots params locals args⟩ : Frame) = frame :=
    Except.ok.inj (slots.symm.trans made)
  exact ⟨arranged.push holds new.awaits c.env, body, m.opened_push new c.env⟩

/-- Execution that writes to the innermost frame only, and gives values to the names that the code
declares in the order in which the frame awaits them. -/
structure KeepsArranged (opens : Scopes) (exec : Code → Env → Eval Code Value) : Prop where
  grows : ∀ c env, (exec c env).Grows (Innermost env c.writes)
  arranges : ∀ (c : Code) (env : Env) (m : Memory Code) (rest : List Value), c.InPlace opens →
    m.Arranged opens → m.Awaits env (c.writes ++ rest) →
    (exec c env).Arranges opens m fun v n =>
      InPlace opens v n ∧ (v.isMarker = false → n.Awaits env rest)

namespace KeepsArranged

variable {exec : Code → Env → Eval Code Value} (keeps : KeepsArranged opens exec)

include keeps

/-- Code that declares nothing itself leaves the frame as it is. -/
theorem inert {c : Code} (none : c.writes = []) (hc : c.InPlace opens)
    (arranged : m.Arranged opens) (awaits : m.Awaits env rest) :
    (exec c env).Arranges opens m fun v n =>
      m.Later n ∧ InPlace opens v n ∧ n.Awaits env rest := by
  have own : m.Awaits env (c.writes ++ rest) := by rwa [none, List.nil_append]
  have grows := keeps.grows c env
  rw [none] at grows
  refine ((keeps.arranges c env m rest hc arranged own).and_grows grows).mono ?_
  intro v n ended
  exact ⟨ended.1.later, ended.2.1, awaits.grown ended.1⟩

theorem runAll {xs : List Code} (none : writesAll xs = []) (hxs : InPlaceAll opens xs)
    (arranged : m.Arranged opens) (awaits : m.Awaits env rest) :
    (ConstLang.runAll exec xs env).Arranges opens m fun vs n =>
      m.Later n ∧ (∀ v ∈ vs, InPlace opens v n) ∧ n.Awaits env rest := by
  induction xs generalizing m with
  | nil => exact ⟨arranged, .refl _ m, by simp, awaits⟩
  | cons x xs ih =>
      obtain ⟨first, others⟩ := List.append_eq_nil_iff.mp none
      refine (keeps.inert first hxs.1 arranged awaits).bind ?_
      intro v n arranged ended
      obtain ⟨later, hv, awaits⟩ := ended
      refine (ih others hxs.2 arranged awaits).bind ?_
      intro vs k arranged ended
      obtain ⟨later', hvs, awaits⟩ := ended
      have kept : InPlace opens v k := hv.imp later'.places
      exact ⟨arranged, later.trans later', List.forall_mem_cons.mpr ⟨kept, hvs⟩, awaits⟩

/-- Statements give values to their names one after the other, until one yields a marker. -/
theorem runStatements {cs : List Code} {v : Value} (hcs : InPlaceAll opens cs)
    (hv : InPlace opens v m) (arranged : m.Arranged opens)
    (awaits : m.Awaits env (writesAll cs ++ rest)) :
    (ConstLang.runStatements exec v cs env).Arranges opens m fun w n =>
      InPlace opens w n ∧ (w.isMarker = false → n.Awaits env rest) := by
  induction cs generalizing m v with
  | nil => exact ⟨arranged, hv, fun _ => awaits⟩
  | cons c cs ih =>
      rw [writesAll, List.append_assoc] at awaits
      refine (keeps.arranges c env m _ hcs.1 arranged awaits).bind ?_
      intro w n arranged ended
      obtain ⟨hw, awaits⟩ := ended
      by_cases marked : w.isMarker = true
      · rw [if_pos marked]
        exact ⟨arranged, hw, by simp [marked]⟩
      · rw [if_neg marked]
        exact ih hcs.2 hw arranged (awaits (by simpa using marked))

theorem call {f : Value} {args : List Value} (arranged : m.Arranged opens)
    (hf : InPlace opens f m) (hargs : ∀ x ∈ args, InPlace opens x m) :
    (ConstLang.call exec f args).Arranges opens m (InPlace opens) := by
  cases f with
  | primitive _ _ op => exact arranges_performOperation arranged op hargs
  | function id params locals =>
      refine (arranges_enterCall arranged hf.1 hargs).bind ?_
      intro entered n arranged ended
      obtain ⟨body, inner⟩ := entered
      obtain ⟨⟨-, writes, -, hbody⟩, opened⟩ := ended
      refine (keeps.arranges body inner n [] hbody arranged (opened.awaits writes)).bind ?_
      intro v k arranged ended
      obtain ⟨hv, -⟩ := ended
      refine ⟨arranged, ?_⟩
      cases v with
      | marker _ _ => exact hv.2
      | _ => trivial
  | _ => exact arranged

theorem enter {locals : List Value} {body : Code}
    (hc : (Code.enter locals body).InPlace opens) (arranged : m.Arranged opens) :
    (Code.step exec (.enter locals body) env).Arranges opens m (InPlace opens) := by
  obtain ⟨-, writes, names, hbody⟩ := hc
  refine (arranges_enterScope arranged names env).bind ?_
  intro inner n arranged opened
  have ran := keeps.arranges body inner n [] hbody arranged (opened.awaits writes)
  exact ran.mono fun v k ended => ended.1

theorem apply {f : Code} {xs : List Code} (hc : (Code.apply f xs).InPlace opens)
    (arranged : m.Arranged opens) (awaits : m.Awaits env rest) :
    (Code.step exec (.apply f xs) env).Arranges opens m (InPlace opens) := by
  obtain ⟨⟨noneF, noneX⟩, hf, hxs⟩ := hc
  refine (keeps.inert noneF hf arranged awaits).bind ?_
  intro g n arranged ended
  obtain ⟨-, hg, awaits⟩ := ended
  refine (keeps.runAll noneX hxs arranged awaits).bind ?_
  intro args k arranged ended
  obtain ⟨later, hargs, -⟩ := ended
  exact keeps.call arranged (hg.imp later.places) hargs

/-- A step that declares nothing leaves the names to come as they were. -/
theorem step_of_inert {c : Code} (none : c.writes = []) (awaits : m.Awaits env rest)
    (h : (Code.step exec c env).Arranges opens m (InPlace opens)) :
    (Code.step exec c env).Arranges opens m fun v n =>
      InPlace opens v n ∧ (v.isMarker = false → n.Awaits env rest) := by
  have grows := grows_step keeps.grows c env
  rw [none] at grows
  refine (h.and_grows grows).mono ?_
  intro v n ended
  obtain ⟨grown, hv⟩ := ended
  exact ⟨hv, fun _ => awaits.grown grown⟩

theorem step : KeepsArranged opens (Code.step exec) := by
  refine ⟨grows_step keeps.grows, ?_⟩
  intro c env m rest hc arranged awaits
  cases c with
  | literal v =>
      refine ⟨arranged, ?_, fun _ => awaits⟩
      cases hc with
      | inl scalar => cases v <;> trivial
      | inr same =>
          rw [same]
          trivial
  | name x =>
      refine (arranges_lookup arranged x env).mono ?_
      intro v n ended
      obtain ⟨same, hv⟩ := ended
      rw [same] at hv ⊢
      exact ⟨hv, fun _ => awaits⟩
  | declare x c =>
      obtain ⟨⟨s, rfl⟩, none, hc⟩ := hc
      simp only [Code.writes, none, List.nil_append] at awaits
      refine (keeps.inert none hc arranged awaits).bind ?_
      intro v n arranged ended
      obtain ⟨-, hv, awaits⟩ := ended
      refine (arranges_assign arranged awaits hv).bind ?_
      intro _ k arranged awaits
      exact ⟨arranged, trivial, fun _ => awaits⟩
  | select p c a =>
      obtain ⟨⟨noneP, noneC, noneA⟩, hp, hc, ha⟩ := hc
      simp only [Code.writes, noneP, noneC, noneA, List.nil_append] at awaits
      refine (keeps.inert noneP hp arranged awaits).bind ?_
      intro v n arranged ended
      obtain ⟨-, -, awaits⟩ := ended
      split
      · exact (keeps.inert noneC hc arranged awaits).mono fun w k h => ⟨h.2.1, fun _ => h.2.2⟩
      · exact (keeps.inert noneA ha arranged awaits).mono fun w k h => ⟨h.2.1, fun _ => h.2.2⟩
  | close params locals body =>
      have names := names_append.mp hc.2.2.1
      refine ⟨arranged.close params locals ⟨body, env⟩, ⟨⟨⟨body, env⟩, ?_, hc⟩, ?_⟩, ?_⟩
      · simp
      · exact ⟨Memory.places_names names.1, Memory.places_names names.2.1⟩
      · exact fun _ => awaits
  | sequence cs => exact keeps.runStatements hc trivial arranged awaits
  | enter locals body => exact keeps.step_of_inert rfl awaits (keeps.enter hc arranged)
  | returning c =>
      obtain ⟨none, hc⟩ := hc
      simp only [Code.writes, none, List.nil_append] at awaits
      refine (keeps.inert none hc arranged awaits).bind ?_
      intro v n arranged ended
      obtain ⟨-, hv, -⟩ := ended
      refine (arranges_mark arranged hv).mono ?_
      intro w k ended
      obtain ⟨hw, marked⟩ := ended
      exact ⟨hw, by simp [marked]⟩
  | apply f xs =>
      have none : (Code.apply f xs).writes = [] := by simp [Code.writes, hc.1.1, hc.1.2]
      rw [none, List.nil_append] at awaits
      exact keeps.step_of_inert none awaits (keeps.apply hc arranged awaits)

end KeepsArranged

theorem keepsArranged_run (opens : Scopes) (depth : Nat) : KeepsArranged opens (run depth) := by
  induction depth with
  | zero => exact ⟨grows_run 0, fun c env m rest _ arranged _ => arranged⟩
  | succ depth ih => exact ih.step

end Eval
end ConstLang
