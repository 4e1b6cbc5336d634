import ConstLang.Proofs.Comparison
import ConstLang.Proofs.Lexical.Site
import ConstLang.Proofs.Whole

/-!
What a program finds when it starts, and what it keeps. Every closure made on the way has a
body that stands in the program and an environment with the names of the scopes around it;
the frame of a call has the names of the function and nothing else. Functions that were
there before have bodies from elsewhere, of which nothing is known.
-/

namespace ConstLang

theorem Memory.scopes_later {β : Type} {m n : Memory β} {env : Env} (inside : m.Inside env)
    (g : m.Later n) : n.scopes env = m.scopes env :=
  List.map_congr_left fun i hi => (g.frame_fills (inside i hi)).names_eq

theorem Memory.scopes_push {β : Type} {m : Memory β} {env : Env} (inside : m.Inside env)
    (f : Frame) : (m.push f env).2.scopes (m.frames.size :: env) = f.names :: m.scopes env := by
  have new : (m.push f env).2.frame m.frames.size = f := by rw [frame_push, if_pos rfl]
  have old : (m.push f env).2.scopes env = m.scopes env :=
    scopes_later inside (m.grows_push _ f env)
  rw [← old, scopes, List.map_cons, new]
  rfl

/-- A program, and the memory and the global environment that it starts with. Functions from
elsewhere can be met only if they are among the constants of the program or of the global frames. -/
structure Scene where
  program : Value
  base : Memory Code
  global : Env
  foreign : Prop
  textual : Textual program
  whole : base.Whole
  inside : base.Inside global
  given : program.Every base.Gave
  native : program.Every fun v => v.isFunction = true → foreign
  constant : ∀ i ∈ global, (base.frame i).Holds fun v => v.isFunction = true → foreign

namespace Scene

variable (o : Scene)

/-- The names of the global frames. -/
def names : List (List Value) := o.base.scopes o.global

/-- A value that was there before. -/
def Admits (v : Value) : Prop := o.base.Gave v ∧ (v.isFunction = true → o.foreign)

/-- The frames that can be met. -/
def Reach (i : Nat) : Prop := o.foreign ∨ i ∈ o.global ∨ o.base.frames.size ≤ i

/-- The code stands in the program inside the scopes. Those of `own` are still to be entered; the
environment has the names of the others, and then the global ones. -/
structure Placed (m : Memory Site) (scopes own : List (List Value)) (code : Code) (env : Env) :
    Prop where
  occurs : ∃ v, Stands o.program scopes v ∧ v.analyze = .ok code
  names : ∀ ns ∈ own, Names ns
  inside : m.Inside env
  shape : own ++ m.scopes env = scopes ++ o.names

/-- The site can run in the environment once the scopes of `own` have been entered. -/
structure Fit (m : Memory Site) (s : Site) (own : List (List Value)) (env : Env) : Prop where
  given : s.code.Every o.Admits
  reach : ∀ i ∈ env, o.Reach i
  foreign : s.scopes = none → o.foreign
  placed : ∀ scopes, s.scopes = some scopes → o.Placed m scopes own s.code env

/-- The body of the function fits the environment of its closure, once its own scope is entered. -/
def Known (m : Memory Site) : Value → Prop
  | .function id params locals =>
      ∃ c, m.closures[id]? = some c ∧ o.Fit m c.body [params ++ locals] c.env
  | _ => True

/-- The memory of the program and that of its sites, which hold nothing but what is known. -/
structure Kept (m : Memory Code) (m' : Memory Site) : Prop where
  same : SameCode m m'
  later : o.base.unplaced.Later m'
  holds : ∀ i, o.Reach i → (m'.frame i).Holds (o.Known m')

variable {o} {m : Memory Code} {m' n' : Memory Site} {s : Site} {own : List (List Value)}
  {env : Env}

theorem Fit.later (h : o.Fit m' s own env) (g : m'.Later n') : o.Fit n' s own env where
  given := h.given
  reach := h.reach
  foreign := h.foreign
  placed scopes hs :=
    have placed := h.placed scopes hs
    { placed with
      inside := placed.inside.later g
      shape := by rw [Memory.scopes_later placed.inside g, placed.shape] }

/-- The parts of a site fit where it does, each once its scope is entered. -/
theorem Fit.part (h : o.Fit m' s [] env) {c : Code} (hc : (own, c) ∈ s.code.parts) :
    o.Fit m' (s.part own c) own env where
  given := Code.every_part h.given hc
  reach := h.reach
  foreign none := h.foreign (by simpa [Site.part] using none)
  placed scopes hs := by
    obtain ⟨outer, houter, rfl⟩ := Option.map_eq_some_iff.mp hs
    obtain ⟨⟨v, stands, analyzed⟩, -, inside, shape⟩ := h.placed outer houter
    obtain ⟨w, below, ok⟩ := part_of_analyze analyzed hc
    refine ⟨⟨w, stands.trans below, ok⟩, ?_, inside, ?_⟩
    · exact Textual.names_part (o.textual.of_stands stands) analyzed hc
    · rw [← List.nil_append (m'.scopes env), shape, List.append_assoc]

/-- A new frame with the names of the scope that is entered. -/
theorem Fit.push {ns : List Value} {f : Frame} (h : o.Fit m' s [ns] env)
    (grown : o.base.frames.size ≤ m'.frames.size) (hf : Names ns → f.names = ns) :
    o.Fit (m'.push f env).2 s [] (m'.frames.size :: env) where
  given := h.given
  reach := List.forall_mem_cons.mpr ⟨.inr (.inr grown), h.reach⟩
  foreign := h.foreign
  placed scopes hs := by
    obtain ⟨occurs, names, inside, shape⟩ := h.placed scopes hs
    refine ⟨occurs, by simp, Memory.inside_push inside f, ?_⟩
    have own := hf (names ns (List.mem_singleton_self ns))
    rw [List.nil_append, Memory.scopes_push inside, own, ← shape]
    rfl

/-- A site that fits is lexical, and if it is from elsewhere, nothing is asked. -/
theorem Fit.fits (h : o.Fit m' s [] env) : s.Fits o.program o.names m' env := by
  intro scopes hs
  obtain ⟨⟨v, stands, analyzed⟩, -, -, shape⟩ := h.placed scopes hs
  exact Site.lexical_of_shape stands analyzed shape

theorem Known.later {v : Value} (h : o.Known m' v) (g : m'.Later n') : o.Known n' v := by
  cases v with
  | function id params locals =>
      obtain ⟨c, hc, fit⟩ := h
      exact ⟨c, g.closures_getElem? hc, fit.later g⟩
  | _ => trivial

/-- Functions that were there before are known, for what can be known of them. -/
theorem known_of_admits (g : o.base.unplaced.Later m') (v : Value) (h : o.Admits v) :
    o.Known m' v := by
  cases v with
  | function id params locals =>
      have foreign := h.2 rfl
      have there : id < o.base.closures.size := h.1
      have hc : o.base.closures[id]? = some o.base.closures[id] := Array.getElem?_eq_getElem there
      refine ⟨_, g.closures_getElem? (Memory.unplaced_closure hc), ?_⟩
      refine ⟨?_, fun _ _ => .inl foreign, fun _ => foreign, fun scopes hs => by cases hs⟩
      exact (o.whole.bodies id _ hc).imp fun w hw => ⟨hw, fun _ => foreign⟩
  | _ => trivial

theorem every_known (g : o.base.unplaced.Later m') {v : Value} (h : v.Every o.Admits) :
    v.Every (o.Known m') :=
  h.imp (known_of_admits g)

namespace Kept

variable (h : o.Kept m m')

include h

theorem size_le : o.base.frames.size ≤ m'.frames.size := h.later.size_le

/-- Memory that has grown and holds nothing but what was known before. -/
theorem grown {n : Memory Code} (same : SameCode n n') (g : m'.Later n')
    (holds : ∀ i, o.Reach i → (n'.frame i).Holds (o.Known m')) : o.Kept n n' where
  same := same
  later := h.later.trans g
  holds i hi := fun slot hslot v hv => (holds i hi slot hslot v hv).imp fun _ hw => hw.later g

theorem fresh : o.Kept m.fresh.2 m'.fresh.2 :=
  h.grown h.same.fresh (m'.grows_fresh _) h.holds

theorem write (text : String) : o.Kept (m.write text) (m'.write text) :=
  h.grown (h.same.write text) (m'.grows_write _ text) h.holds

theorem push {f : Frame} (hf : f.Holds (o.Known m')) (env : Env) :
    o.Kept (m.push f env).2 (m'.push f env).2 := by
  refine h.grown (h.same.push f env) (m'.grows_push _ f env) fun i hi => ?_
  rw [Memory.frame_push]
  split
  · exact hf
  · exact h.holds i hi

theorem fill {i : Nat} {x v : Value} (unassigned : (m'.frame i).get? x = some none)
    (hv : v.Every (o.Known m')) : o.Kept (m.fill i x v) (m'.fill i x v) :=
  h.grown (h.same.fill i x v) (Memory.grows_fill unassigned).later fun j hj =>
    Memory.holds_frame_fill (h.holds j hj) hv i x

theorem close (params locals : List Value) (s : Site) (env : Env) :
    o.Kept (m.close params locals ⟨s.code, env⟩).2 (m'.close params locals ⟨s, env⟩).2 :=
  h.grown (h.same.close params locals env rfl) (m'.grows_close _ params locals _) h.holds

end Kept

variable (o)

theorem admits_text (x : String) : o.Admits (.text x) := ⟨trivial, fun h => by cases h⟩

theorem every_admits : o.program.Every o.Admits := o.given.and o.native

/-- The memories at the start. -/
theorem kept_start : o.Kept o.base o.base.unplaced where
  same := sameCode_unplaced o.base
  later := .refl _ _
  holds i hi := by
    have frame : o.base.unplaced.frame i = o.base.frame i := rfl
    have admitted : (o.base.frame i).Holds o.Admits := by
      intro slot hslot v hv
      have given := o.whole.holds i slot hslot v hv
      rcases hi with foreign | global | beyond
      · exact given.imp fun w hw => ⟨hw, fun _ => foreign⟩
      · exact given.and (o.constant i global slot hslot v hv)
      · have none : o.base.frame i = Frame.empty := by simp [Memory.frame, beyond]
        rw [none] at hslot
        cases hslot
    rw [frame]
    exact fun slot hslot v hv => every_known (.refl _ _) (admitted slot hslot v hv)

/-- The program as a whole fits the global environment. -/
theorem fit_start {c : Code} (analyzed : o.program.analyze = .ok c) :
    o.Fit o.base.unplaced ⟨some [], c⟩ [] o.global where
  given := Value.every_analyze o.admits_text ⟨trivial, fun h => by cases h⟩ o.every_admits analyzed
  reach i hi := .inr (.inl hi)
  foreign none := by cases none
  placed scopes hs := by
    cases hs
    exact ⟨⟨o.program, .whole, analyzed⟩, by simp, o.inside, rfl⟩

end Scene
end ConstLang
