import ConstLang.Proofs.Parallel.Memory

/-!
Two runs in parallel. The same code, in environments that look alike through the names
that are free in it, does the same in both memories, up to the identities that the runs
give out. Code that declares names in its own environment has to run in a new frame, which
blocks and calls provide.
-/

namespace ConstLang
namespace Origin

open Comparison

/-- The code does the same in the two environments: it has no identities but old ones, the
environments look alike through its free names, and it declares nothing in old frames. -/
structure Suits (o : Origin) (m : Memory Code) (c : Code) (env env' : Env) : Prop where
  given : c.Every o.left.Gave
  sees : o.Sees m c.Free env env'
  writes : c.writes = [] ∨ ∃ i rest, env = i :: rest ∧ o.left.frames.size ≤ i

theorem Suits.later {o : Origin} {m n : Memory Code} {c : Code} {env env' : Env}
    (h : o.Suits m c env env') (g : m.Later n) : o.Suits n c env env' :=
  ⟨h.given, h.sees.later g, h.writes⟩

/-- A part of the code that runs in the same environment. -/
theorem Suits.part {o : Origin} {m : Memory Code} {c c' : Code} {env env' : Env}
    (h : o.Suits m c env env') (given : c'.Every o.left.Gave) (free : ∀ x, c'.Free x → c.Free x)
    (writes : c'.writes ⊆ c.writes) : o.Suits m c' env env' := by
  refine ⟨given, h.sees.mono free, h.writes.imp_left fun none => ?_⟩
  rw [none] at writes
  exact List.subset_nil.mp writes

/-- The comparison of two runs from an origin. -/
def comparison (o : Origin) : Comparison Code Code where
  memories := o.Parallel
  ρ := o.ρ
  known := o.Known
  bodies m _ c env c' env' := c' = c ∧ o.Suits m c env env'
  expects _ := True
  excused := o.excused
  fresh h := ⟨h.fresh, (h.nextIdentity 0).symm⟩
  write h := h.write
  known_of_not_function {_ _ v} h := by cases v <;> trivial
  known_later g g' h := h.later g g'
  bodies_later g _ h := ⟨h.1, h.2.later g⟩
  expects_of_kind _ := trivial

variable {o : Origin} {m m' : Memory Code} {env env' : Env}

theorem agree_literal {v : Value} (hm : o.Parallel m m') (given : v.Every o.left.Gave) :
    o.comparison.Agree m m' o.comparison.values (pure v) (pure v) := by
  refine agree_pure hm ⟨(o.leaves.value_eq given).symm, ?_⟩
  exact given.imp (known_of_gave hm.left.later hm.right.later)

theorem agree_lookup {X : String → Prop} {x : String} (hm : o.Parallel m m')
    (sees : o.Sees m X env env') (hx : X x) :
    o.comparison.Agree m m' o.comparison.values (Eval.lookup (.text x) env)
      (Eval.lookup (.text x) env') := by
  rcases hm.lookup sees hx with same | ⟨e, failed, excused⟩
  · rw [Agree, Eval.lookup_apply, Eval.lookup_apply, same]
    cases found : m.lookup (.text x) env with
    | ok v => exact .ok (.refl _ m) (.refl _ m') hm ⟨rfl, hm.holds.lookup found⟩
    | error e => exact .error rfl trivial hm
  · rw [Agree, Eval.lookup_apply, failed]
    exact .excused excused

/-- A new frame on top of environments that look alike through the names it has not. -/
theorem sees_push {X Y : String → Prop} {f : Frame} (hm : o.Parallel m m')
    (sees : o.Sees m X env env') (hY : ∀ x, Y x → .text x ∉ f.names → X x) :
    o.Sees (m.push f env).2 Y (m.frames.size :: env) (m'.frames.size :: env') := by
  have new : (m.push f env).2.frame m.frames.size = f := by rw [Memory.frame_push, if_pos rfl]
  have next := hm.nextFrame 0
  rw [Nat.add_zero, Nat.add_zero] at next
  rw [← next]
  refine .new hm.left.size_le (by simp [Memory.push]) ?_
  rw [new]
  exact (sees.later (m.grows_push _ f env)).mono fun x hx => hY x hx.1 hx.2

theorem agree_enterScope {locals : List Value} {body : Code} (hm : o.Parallel m m')
    (h : o.Suits m (.enter locals body) env env') :
    o.comparison.Agree m m' (fun n _ inner inner' => o.Suits n body inner inner')
      (enterScope locals env) (enterScope locals env') := by
  obtain ⟨⟨hlocals, hbody⟩, sees, -⟩ := h
  have unchanged : Frame.unassigned locals = (Frame.unassigned locals).map (Frame.rename o.ρ) := by
    rw [← Frame.unassigned_rename, o.leaves.items_eq (everyItem_iff.mp hlocals)]
  have framed : o.comparison.Agree m m'
      (fun _ _ f f' => Frame.unassigned locals = .ok f ∧ f' = f.rename o.ρ)
      (Eval.ofMishap (Frame.unassigned locals)) (Eval.ofMishap (Frame.unassigned locals)) :=
    agree_ofMishap hm unchanged fun f made => ⟨made, rfl⟩
  refine framed.bind fun f f' n n' later _ hn hf => ?_
  obtain ⟨made, rfl⟩ := hf
  refine .ok (n.grows_push _ f env) (n'.grows_push _ _ env')
    (hn.push (Frame.holds_unassigned made) env env') ⟨hbody, ?_, ?_⟩
  · refine sees_push hn (sees.later later) fun x free absent => ⟨free, fun mem => absent ?_⟩
    rw [Frame.mem_names_ofSlots made]
    simpa using mem
  · exact .inr ⟨_, _, rfl, hn.left.size_le⟩

theorem agree_close {params locals : List Value} {body : Code} (hm : o.Parallel m m')
    (h : o.Suits m (.close params locals body) env env') :
    o.comparison.Agree m m' o.comparison.values (Eval.close params locals ⟨body, env⟩)
      (Eval.close params locals ⟨body, env'⟩) := by
  obtain ⟨⟨hparams, hlocals, hbody⟩, sees, -⟩ := h
  have g : m.Later (m.close params locals ⟨body, env⟩).2 := m.grows_close _ params locals _
  have g' : m'.Later (m'.close params locals ⟨body, env'⟩).2 := m'.grows_close _ params locals _
  have next := hm.nextClosure 0
  rw [Nat.add_zero, Nat.add_zero] at next
  have given {xs : List Value} (hxs : EveryItem o.left.Gave xs) :
      EveryItem (o.Known (m.close params locals ⟨body, env⟩).2
        (m'.close params locals ⟨body, env'⟩).2) xs :=
    hxs.imp (known_of_gave (hm.left.later.trans g) (hm.right.later.trans g'))
  refine .ok g g' (hm.close hbody params locals params locals env env') ⟨?_, ?_, ?_⟩
  · simp [comparison, next, o.leaves.items_eq (everyItem_iff.mp hparams),
      o.leaves.items_eq (everyItem_iff.mp hlocals)]
  · refine ⟨⟨body, env⟩, ⟨body, env'⟩, ?_, ?_, rfl, sees.later g⟩
    · simp
    · simp [next]
  · exact ⟨given hparams, given hlocals⟩

/-- A declaration reaches the innermost frame, which is new, and its counterpart. -/
theorem agree_assign {i : Nat} {rest : Env} {X : String → Prop} {x v v' : Value}
    (hm : o.Parallel m m') (hi : o.left.frames.size ≤ i) (sees : o.Sees m X (i :: rest) env')
    (hx : x.Every o.left.Gave) (hv : o.comparison.values m m' v v') :
    o.comparison.Agree m m' (fun _ _ _ _ => True) (Eval.assign x v (i :: rest))
      (Eval.assign x v' env') := by
  obtain ⟨rfl, known⟩ := hv
  have fixed := o.leaves.value_eq hx
  cases sees with
  | old inside _ _ => exact absurd (inside i List.mem_cons_self) (by omega)
  | @new _ _ _ rest' _ _ _ =>
      have target : m'.target x (o.ρ.frame i :: rest') =
          o.ρ.result o.ρ.frame (m.target x (i :: rest)) := by
        have slot := Frame.get?_rename o.ρ (m.frame i) x
        rw [fixed] at slot
        simp only [Memory.target, hm.frame hi, slot]
        split
        · rcases (m.frame i).get? x with _ | _ | w <;>
            simp [Renaming.result, Fault.rename, fixed]
        · rfl
      rw [Agree, Eval.assign_apply, Eval.assign_apply, target]
      cases found : m.target x (i :: rest) with
      | error e => exact .error rfl trivial hm
      | ok j =>
          obtain ⟨head, unassigned⟩ := Memory.target_eq_ok found
          obtain rfl : i = j := Option.some.inj head
          have filled := hm.fill hi unassigned known
          have unassigned' := hm.unassigned hi unassigned
          rw [fixed] at filled unassigned'
          exact .ok (Memory.grows_fill unassigned).later (Memory.grows_fill unassigned').later
            filled trivial

/-- A known function is entered in a new frame of its counterpart's environment. -/
theorem agree_enterCall {id : Nat} {params locals args : List Value} (hm : o.Parallel m m')
    (known : o.Known m m' (.function id params locals))
    (hargs : ∀ x ∈ args, x.Every (o.Known m m')) :
    o.comparison.Agree m m'
      (fun n n' entered entered' =>
        o.comparison.bodies n n' entered.1 entered.2 entered'.1 entered'.2)
      (enterCall (.function id params locals) id params locals args)
      (enterCall ((Value.function id params locals).rename o.ρ) (o.ρ.closure id)
        (params.map (Value.rename o.ρ)) (locals.map (Value.rename o.ρ))
        (args.map (Value.rename o.ρ))) := by
  obtain ⟨c, c', hc, hc', body, sees⟩ := known
  simp only [Agree, Eval.enterCall_apply, List.length_map, hc, hc', callSlots_rename,
    Frame.ofSlots_rename]
  by_cases arity : args.length = params.length
  · simp only [arity, if_true]
    cases made : Frame.ofSlots (callSlots params locals args) with
    | error e => exact .error rfl trivial hm
    | ok f =>
        have entered := hm.push (Frame.holds_callSlots made hargs) c.env c'.env
        refine .ok (m.grows_push _ f c.env) (m'.grows_push _ _ c'.env) entered
          ⟨body, hm.bodies id c hc, ?_, .inr ⟨_, _, rfl, hm.left.size_le⟩⟩
        refine sees_push hm sees fun x free absent => ⟨free, fun mem => absent ?_⟩
        rwa [Frame.mem_names_ofSlots made, Frame.map_fst_callSlots arity]
  · simp only [arity, if_false]
    exact .error rfl trivial hm

section Parts

variable {exec exec' : Code → Env → Eval Code Value} (hexec : o.comparison.Follows exec exec')

include hexec

/-- One step is the same on both sides, given that the steps of the parts are. -/
theorem agree_step {c : Code} (hm : o.Parallel m m') (h : o.Suits m c env env') :
    o.comparison.Agree m m' o.comparison.values (c.step exec env) (c.step exec' env') := by
  have run (c' : Code) (suits : o.Suits m c' env env') :
      o.comparison.Agree m m' o.comparison.values (exec c' env) (exec' c' env') :=
    hexec m m' c' env c' env' hm ⟨rfl, suits⟩
  cases c with
  | literal v => exact agree_literal hm h.given
  | name x => exact agree_lookup hm h.sees rfl
  | declare x c =>
      have value : o.Suits m c env env' :=
        h.part h.given.2 (fun _ free => free) (by simp [Code.writes])
      obtain ⟨⟨hx, -⟩, sees, none | ⟨i, rest, rfl, hi⟩⟩ := h
      · simp [Code.writes] at none
      · refine (run c value).bind fun v v' n n' later _ hn hv => ?_
        refine (agree_assign hn hi (sees.later later) hx hv).bind fun _ _ k k' _ _ hk _ => ?_
        exact agree_pure hk (o.comparison.values_undefined k k')
  | select p c a =>
      obtain ⟨hp, hc, ha⟩ := h.given
      refine agree_select hexec hm ⟨rfl, h.part hp (fun _ => .inl) ?_⟩
        ⟨rfl, h.part hc (fun _ free => .inr (.inl free)) ?_⟩
        ⟨rfl, h.part ha (fun _ free => .inr (.inr free)) ?_⟩
      all_goals simp [Code.writes]
  | close params locals body => exact agree_close hm h
  | sequence cs =>
      refine agree_runStatements hexec hm (o.comparison.values_undefined m m')
        (List.forall₂_same.mpr fun c hc => ⟨rfl, h.part (everyCode_iff.mp h.given c hc) ?_ ?_⟩)
      · exact fun x free => freeInAny_iff.mpr ⟨c, hc, free⟩
      · exact subset_writesAll hc
  | enter locals body =>
      refine (agree_enterScope hm h).bind fun inner inner' n n' _ _ hn suits => ?_
      exact hexec n n' body inner body inner' hn ⟨rfl, suits⟩
  | returning c =>
      refine (run c (h.part h.given (fun _ free => free) ?_)).bind
        fun v v' n n' _ _ hn hv => agree_mark hn hv
      exact fun _ => id
  | apply f xs =>
      refine (run f (h.part h.given.1 (fun _ => .inl) ?_)).bind
        fun g g' n n' later later' hn hg => ?_
      · simp [Code.writes]
      have operands : List.Forall₂ (fun x x' => o.comparison.bodies n n' x env x' env') xs xs := by
        refine List.forall₂_same.mpr fun x hx => ⟨rfl, ?_⟩
        refine (h.part (everyCode_iff.mp h.given.2 x hx) ?_ ?_).later later
        · exact fun _ free => .inr (freeInAny_iff.mpr ⟨x, hx, free⟩)
        · exact List.Subset.trans (subset_writesAll hx) (List.subset_append_right _ _)
      refine (agree_runAll hexec hn operands).bind fun args args' k k' later later' hk hargs => ?_
      exact agree_call hexec hk (hg.later later later') hargs
        fun id params locals known hargs => agree_enterCall hk known hargs

end Parts

/-- Runs of any depth go in parallel. -/
theorem follows_run (o : Origin) (depth : Nat) : o.comparison.Follows (run depth) (run depth) := by
  induction depth with
  | zero => exact fun m m' c env c' env' hm _ => agree_throw hm rfl (by simp [Fault.kind])
  | succ depth ih =>
      rintro m m' c env _ env' hm ⟨rfl, suits⟩
      exact agree_step ih hm suits

end Origin
end ConstLang
