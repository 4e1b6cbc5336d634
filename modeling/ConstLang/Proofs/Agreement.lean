import Mathlib.Data.List.Forall2
import ConstLang.Proofs.Outcome
import ConstLang.Proofs.Tree.Occurrence
import ConstLang.Walk

/-!
Running code and walking trees. The code that analysis makes of a tree means what the
tree means: both give the same value or fault, the same output and the same frames.
Values are the same on both sides, and only the closures differ, since one side keeps
code where the other keeps trees. Depth does not count: a walk goes down one level at
every sequence, and code none at a sequence of one statement.

One side is followed from its ends: if it ends other than for want of depth, the other
side ends alike from some depth on.
-/

namespace ConstLang

variable {β β' α α' γ γ' : Type}

/-- Memories that differ in the bodies of closures only, which correspond. -/
structure Memory.Alike (bodies : β → β' → Prop) (m : Memory β) (m' : Memory β') : Prop where
  frames : m'.frames = m.frames
  closures : List.Forall₂ (fun c c' => bodies c.body c'.body ∧ c'.env = c.env)
    m.closures.toList m'.closures.toList
  serial : m'.serial = m.serial
  output : m'.output = m.output

namespace Memory.Alike

variable {bodies : β → β' → Prop} {m : Memory β} {m' : Memory β'}

theorem flip (h : Memory.Alike bodies m m') : Memory.Alike (fun b' b => bodies b b') m' m where
  frames := h.frames.symm
  closures := (h.closures.imp fun _ _ hc => ⟨hc.1, hc.2.symm⟩).flip
  serial := h.serial.symm
  output := h.output.symm

theorem frame_eq (h : Memory.Alike bodies m m') (i : Nat) : m'.frame i = m.frame i := by
  rw [Memory.frame, Memory.frame, h.frames]

theorem lookup_eq (h : Memory.Alike bodies m m') (name : Value) (env : Env) :
    m'.lookup name env = m.lookup name env := by
  have inner : m'.lookupIn name env = m.lookupIn name env := by
    induction env with
    | nil => rfl
    | cons i env ih => simp only [Memory.lookupIn, h.frame_eq, ih]
  simp only [Memory.lookup, inner]

theorem target_eq (h : Memory.Alike bodies m m') (name : Value) (env : Env) :
    m'.target name env = m.target name env := by
  cases env with
  | nil => rfl
  | cons i env => simp only [Memory.target, h.frame_eq]

theorem size_closures (h : Memory.Alike bodies m m') : m'.closures.size = m.closures.size := by
  simpa using h.closures.length_eq.symm

/-- The closures of a function correspond, or there is none on either side. -/
theorem closure (h : Memory.Alike bodies m m') (id : Nat) :
    m.closures[id]? = none ∧ m'.closures[id]? = none ∨
      ∃ c c', m.closures[id]? = some c ∧ m'.closures[id]? = some c' ∧ bodies c.body c'.body ∧
        c'.env = c.env := by
  have pairs := h.closures
  simp only [← Array.getElem?_toList]
  generalize m.closures.toList = cs, m'.closures.toList = cs' at pairs
  induction pairs generalizing id with
  | nil => simp
  | cons hc _ ih =>
      cases id with
      | zero => exact .inr ⟨_, _, rfl, rfl, hc⟩
      | succ id => exact ih id

theorem push (h : Memory.Alike bodies m m') (f : Frame) (env : Env) :
    Memory.Alike bodies (m.push f env).2 (m'.push f env).2 :=
  ⟨by simp [Memory.push, h.frames], h.closures, h.serial, h.output⟩

theorem fill (h : Memory.Alike bodies m m') (i : Nat) (name value : Value) :
    Memory.Alike bodies (m.fill i name value) (m'.fill i name value) :=
  ⟨by simp [Memory.fill, h.frames], h.closures, h.serial, h.output⟩

theorem fresh (h : Memory.Alike bodies m m') : Memory.Alike bodies m.fresh.2 m'.fresh.2 :=
  ⟨h.frames, h.closures, by simp [Memory.fresh, h.serial], h.output⟩

theorem write (h : Memory.Alike bodies m m') (text : String) :
    Memory.Alike bodies (m.write text) (m'.write text) :=
  ⟨h.frames, h.closures, h.serial, by simp [Memory.write, h.output]⟩

theorem close (h : Memory.Alike bodies m m') (params locals : List Value) (env : Env) {b : β}
    {b' : β'} (hb : bodies b b') :
    Memory.Alike bodies (m.close params locals ⟨b, env⟩).2
      (m'.close params locals ⟨b', env⟩).2 := by
  refine ⟨h.frames, ?_, h.serial, h.output⟩
  simpa [Memory.close] using List.rel_append h.closures (.cons ⟨hb, rfl⟩ .nil)

end Memory.Alike

namespace Eval

/-- A run that stopped for want of depth. -/
def Exhausted (r : EStateM.Result Fault (Memory β) α) : Prop :=
  ∃ m, r = .error (.mishap .stack) m

/-- A computation comes to an end that no further depth changes. -/
def Settles (act : Nat → Eval β α) (m : Memory β) (r : EStateM.Result Fault (Memory β) α) : Prop :=
  ∃ enough, ∀ depth ≥ enough, act depth m = r

/-- From memories that are alike, the second computation comes to an end like that of the first one,
unless the first lacked depth. -/
def Tracks (bodies : β → β' → Prop) (values : α → α' → Prop) (act : Eval β α)
    (act' : Nat → Eval β' α') : Prop :=
  ∀ m m', Memory.Alike bodies m m' →
    Exhausted (act m) ∨
      ∃ r, Settles act' m' r ∧ Corresponds values Eq (Memory.Alike bodies) (act m) r

section Tracks

variable {bodies : β → β' → Prop} {values : α → α' → Prop} {steps : γ → γ' → Prop}

/-- Computations that do not look at depth. -/
theorem tracks_of_corresponds {act : Eval β α} {act' : Eval β' α'}
    (h : ∀ m m', Memory.Alike bodies m m' →
      Corresponds values Eq (Memory.Alike bodies) (act m) (act' m')) :
    Tracks bodies values act fun _ => act' :=
  fun m m' alike => .inr ⟨act' m', ⟨0, fun _ _ => rfl⟩, h m m' alike⟩

theorem tracks_pure {a : α} {a' : α'} (h : values a a') :
    Tracks bodies values (pure a) fun _ => pure a' :=
  tracks_of_corresponds fun _ _ alike => .ok h alike

theorem tracks_throw (e : Fault) : Tracks bodies values (throw e) fun _ => throw e :=
  tracks_of_corresponds fun _ _ alike => .error rfl alike

theorem Tracks.bind {act : Eval β γ} {act' : Nat → Eval β' γ'} {next : γ → Eval β α}
    {next' : Nat → γ' → Eval β' α'} (h : Tracks bodies steps act act')
    (hn : ∀ c c', steps c c' → Tracks bodies values (next c) fun depth => next' depth c') :
    Tracks bodies values (act >>= next) fun depth => act' depth >>= next' depth := by
  intro m m' alike
  rcases h m m' alike with ⟨m₁, e⟩ | ⟨r, ⟨enough, settled⟩, ends⟩
  · exact .inl ⟨m₁, bind_of_error e next⟩
  · generalize hfirst : act m = first at ends
    cases ends with
    | @ok c c' m₁ m₁' hc alike₁ =>
        rw [bind_of_ok hfirst]
        rcases hn c c' hc m₁ m₁' alike₁ with exhausted | ⟨r', ⟨enough', settled'⟩, ends'⟩
        · exact .inl exhausted
        · refine .inr ⟨r', ⟨max enough enough', fun depth hd => ?_⟩, ends'⟩
          exact (bind_of_ok (settled depth (by omega)) _).trans (settled' depth (by omega))
    | @error e e' m₁ m₁' he alike₁ =>
        rw [bind_of_error hfirst]
        refine .inr ⟨.error e' m₁', ⟨enough, fun depth hd => ?_⟩, .error he alike₁⟩
        exact bind_of_error (settled depth hd) _

theorem Corresponds.flip {r : EStateM.Result Fault (Memory β) α}
    {r' : EStateM.Result Fault (Memory β') α} (h : Corresponds Eq Eq (Memory.Alike bodies) r r') :
    Corresponds Eq Eq (Memory.Alike fun b' b => bodies b b') r' r := by
  cases h with
  | ok hv alike => exact .ok hv.symm alike.flip
  | error he alike => exact .error he.symm alike.flip

/-- One more level of depth is as good as none. -/
theorem Tracks.of_succ {act : Eval β α} {act' : Nat → Eval β' α'}
    (h : Tracks bodies values act fun depth => act' (depth + 1)) :
    Tracks bodies values act act' := by
  intro m m' alike
  rcases h m m' alike with exhausted | ⟨r, ⟨enough, settled⟩, ends⟩
  · exact .inl exhausted
  · refine .inr ⟨r, ⟨enough + 1, fun depth hd => ?_⟩, ends⟩
    obtain ⟨depth, rfl⟩ : ∃ d, depth = d + 1 := ⟨depth - 1, by omega⟩
    exact settled depth (by omega)

theorem tracks_ofExcept (r : Except Fault α) :
    Tracks bodies Eq (ofExcept r) fun _ => ofExcept r := by
  cases r with
  | ok a => exact tracks_pure rfl
  | error e => exact tracks_throw e

theorem tracks_ofMishap (r : Except Mishap α) :
    Tracks bodies Eq (ofMishap r) fun _ => ofMishap r := by
  cases r with
  | ok a => exact tracks_pure rfl
  | error e => exact tracks_throw (.mishap e)

theorem tracks_lookup (name : Value) (env : Env) :
    Tracks bodies Eq (lookup name env) fun _ => lookup name env := by
  refine tracks_of_corresponds fun m m' alike => ?_
  show Corresponds _ _ _ (ofExcept (m.lookup name env) m) (ofExcept (m'.lookup name env) m')
  rw [alike.lookup_eq]
  cases m.lookup name env with
  | ok v => exact .ok rfl alike
  | error e => exact .error rfl alike

theorem tracks_assign (name value : Value) (env : Env) :
    Tracks bodies Eq (assign name value env) fun _ => assign name value env := by
  refine tracks_of_corresponds fun m m' alike => ?_
  show Corresponds _ _ _
    ((ofExcept (m.target name env) >>= fun i => modify (·.fill i name value)) m)
    ((ofExcept (m'.target name env) >>= fun i => modify (·.fill i name value)) m')
  rw [alike.target_eq]
  cases m.target name env with
  | ok i => exact .ok rfl (alike.fill i name value)
  | error e => exact .error rfl alike

theorem tracks_push (f : Frame) (env : Env) :
    Tracks bodies Eq (push f env) fun _ => push f env :=
  tracks_of_corresponds fun _ _ alike => .ok (by simp [alike.frames]) (alike.push f env)

theorem tracks_close (params locals : List Value) (env : Env) {b : β} {b' : β'}
    (hb : bodies b b') :
    Tracks bodies Eq (close params locals ⟨b, env⟩) fun _ => close params locals ⟨b', env⟩ :=
  tracks_of_corresponds fun _ _ alike =>
    .ok (by simp [alike.size_closures]) (alike.close params locals env hb)

theorem tracks_fresh : Tracks bodies Eq fresh fun _ => fresh :=
  tracks_of_corresponds fun _ _ alike => .ok alike.serial.symm alike.fresh

theorem tracks_write (text : String) : Tracks bodies Eq (write text) fun _ => write text :=
  tracks_of_corresponds fun _ _ alike => .ok rfl (alike.write text)

theorem tracks_enterScope (locals : List Value) (env : Env) :
    Tracks bodies Eq (enterScope locals env) fun _ => enterScope locals env := by
  refine (tracks_ofMishap _).bind ?_
  rintro f _ rfl
  exact tracks_push f env

theorem tracks_mark (v : Value) : Tracks bodies Eq (mark v) fun _ => mark v := by
  unfold mark
  split
  · exact tracks_pure rfl
  · refine tracks_fresh.bind ?_
    rintro id _ rfl
    exact tracks_pure rfl

theorem tracks_performOperation (op : Operation) (args : List Value) :
    Tracks bodies Eq (performOperation op args) fun _ => performOperation op args := by
  refine tracks_fresh.bind ?_
  rintro id _ rfl
  refine (tracks_ofExcept _).bind ?_
  rintro effect _ rfl
  dsimp only
  split
  · refine (tracks_write _).bind ?_
    rintro _ _ -
    exact tracks_pure rfl
  · exact tracks_pure rfl

/-- A call is entered on both sides or on neither, with bodies that correspond. -/
theorem tracks_enterCall (f : Value) (id : Nat) (params locals args : List Value) :
    Tracks bodies (fun entry entry' => bodies entry.1 entry'.1 ∧ entry'.2 = entry.2)
      (enterCall f id params locals args) fun _ => enterCall f id params locals args := by
  refine tracks_of_corresponds fun m m' alike => ?_
  rw [enterCall_apply, enterCall_apply]
  split
  · rcases alike.closure id with ⟨hc, hc'⟩ | ⟨c, c', hc, hc', hb, he⟩
    · simp only [hc, hc']
      exact .error rfl alike
    · simp only [hc, hc', he, alike.frames]
      split
      · exact .error rfl alike
      · exact .ok ⟨hb, rfl⟩ (alike.push _ _)
  · exact .error rfl alike

/-- One way of executing bodies is tracked by another, for all bodies that correspond. -/
def Follows (bodies : β → β' → Prop) (exec : β → Env → Eval β Value)
    (exec' : Nat → β' → Env → Eval β' Value) : Prop :=
  ∀ b b' env, bodies b b' → Tracks bodies Eq (exec b env) fun depth => exec' depth b' env

variable {exec : β → Env → Eval β Value} {exec' : Nat → β' → Env → Eval β' Value}
  (hexec : Follows bodies exec exec')

include hexec

theorem tracks_call (f : Value) (args : List Value) :
    Tracks bodies Eq (call exec f args) fun depth => call (exec' depth) f args := by
  cases f with
  | primitive id name op => exact tracks_performOperation op args
  | function id params locals =>
      refine (tracks_enterCall _ id params locals args).bind ?_
      rintro ⟨b, env⟩ ⟨b', env'⟩ ⟨hb, rfl⟩
      refine (hexec b b' _ hb).bind ?_
      rintro v _ rfl
      exact tracks_pure rfl
  | _ => exact tracks_throw _

theorem tracks_runAll {bs : List β} {bs' : List β'} (h : List.Forall₂ bodies bs bs') (env : Env) :
    Tracks bodies Eq (runAll exec bs env) fun depth => runAll (exec' depth) bs' env := by
  induction h with
  | nil => exact tracks_pure rfl
  | cons hb _ ih =>
      refine (hexec _ _ env hb).bind ?_
      rintro v _ rfl
      refine ih.bind ?_
      rintro vs _ rfl
      exact tracks_pure rfl

theorem tracks_runStatements (result : Value) {bs : List β} {bs' : List β'}
    (h : List.Forall₂ bodies bs bs') (env : Env) :
    Tracks bodies Eq (runStatements exec result bs env)
      fun depth => runStatements (exec' depth) result bs' env := by
  induction h generalizing result with
  | nil => exact tracks_pure rfl
  | cons hb _ ih =>
      refine (hexec _ _ env hb).bind ?_
      rintro v _ rfl
      split
      · exact tracks_pure rfl
      · exact ih v

variable {b c a : β} {b' c' a' : β'} (hb : bodies b b')

include hb

theorem tracks_declare (x : Value) (env : Env) :
    Tracks bodies Eq (do assign x (← exec b env) env; return Value.undefined)
      (fun depth => do assign x (← exec' depth b' env) env; return Value.undefined) := by
  refine (hexec b b' env hb).bind ?_
  rintro v _ rfl
  refine (tracks_assign x v env).bind ?_
  rintro _ _ -
  exact tracks_pure rfl

theorem tracks_select (hc : bodies c c') (ha : bodies a a') (env : Env) :
    Tracks bodies Eq (do if (← exec b env).isTrue then exec c env else exec a env)
      (fun depth => do
        if (← exec' depth b' env).isTrue then exec' depth c' env else exec' depth a' env) := by
  refine (hexec b b' env hb).bind ?_
  rintro v _ rfl
  split
  · exact hexec c c' env hc
  · exact hexec a a' env ha

theorem tracks_returning (env : Env) :
    Tracks bodies Eq (do mark (← exec b env)) (fun depth => do mark (← exec' depth b' env)) := by
  refine (hexec b b' env hb).bind ?_
  rintro v _ rfl
  exact tracks_mark v

theorem tracks_enter (locals : List Value) (env : Env) :
    Tracks bodies Eq (do exec b (← enterScope locals env))
      (fun depth => do exec' depth b' (← enterScope locals env)) := by
  refine (tracks_enterScope locals env).bind ?_
  rintro inner _ rfl
  exact hexec b b' inner hb

theorem tracks_apply {bs : List β} {bs' : List β'} (h : List.Forall₂ bodies bs bs') (env : Env) :
    Tracks bodies Eq
      (do
        let f ← exec b env
        call exec f (← runAll exec bs env))
      (fun depth => do
        let f ← exec' depth b' env
        call (exec' depth) f (← runAll (exec' depth) bs' env)) := by
  refine (hexec b b' env hb).bind ?_
  rintro f _ rfl
  refine (tracks_runAll hexec h env).bind ?_
  rintro args _ rfl
  exact tracks_call hexec f args

end Tracks

/-- A sequence of one statement is that statement. -/
theorem runStatements_singleton (exec : α → Env → Eval β Value) (result : Value) (s : α)
    (env : Env) : runStatements exec result [s] env = exec s env := by
  simp only [runStatements, ite_self, bind_pure]

end Eval

open Eval

/-- Analysis makes the code of the tree. -/
def CodeOf (c : Code) (v : Value) : Prop := v.analyze = .ok c

section

variable {n : Node} {c : Code} {depth : Nat}

/-- One step of code is tracked by a walk of the tree, given that the steps of the parts are. -/
theorem run_succ_tracks_walk (ih : Follows CodeOf (run depth) walk)
    (n : Node) (c : Code) (env : Env) (h : n.analyze = .ok c) :
    Tracks CodeOf Eq (run (depth + 1) c env)
      fun depth => walk depth (.node n) env := by
  refine Tracks.of_succ ?_
  cases n with
  | literal v =>
      cases h
      exact tracks_pure rfl
  | name x =>
      cases h
      exact tracks_lookup _ env
  | declaration x v =>
      obtain ⟨c', hc, rfl⟩ := Node.analyze_declaration_eq_ok.mp h
      exact tracks_declare ih hc x env
  | conditional p t f =>
      obtain ⟨p', t', f', hp, ht, hf, rfl⟩ := Node.analyze_conditional_eq_ok.mp h
      exact tracks_select ih hp ht hf env
  | function ps b =>
      obtain ⟨params, locals, both, body, hp, hl, hi, hb, rfl⟩ := Node.analyze_function_eq_ok.mp h
      simp only [walk, Node.walkStep, hp, hl, hi, ofExcept_ok, pure_bind]
      exact tracks_close params locals env hb
  | sequence ss =>
      obtain ⟨vs, cs, hv, hcs, rfl⟩ := Node.analyze_sequence_eq_ok.mp h
      simp only [walk, Node.walkStep, hv, ofMishap_ok, pure_bind]
      have all := hcs.flip
      cases hcs with
      | nil => exact tracks_pure rfl
      | @cons v c vs cs hc rest =>
          cases rest with
          | nil =>
              -- No step of the code stands for this sequence, so the tree gets smaller and the
              -- depth stays.
              obtain ⟨n, rfl, hn⟩ := Value.analyze_eq_ok.mp hc
              have smaller : sizeOf n < sizeOf (Node.sequence ss) :=
                sizeOf_lt_of_mem_parts (by simp [Node.parts, Value.items_eq hv])
              simp only [runStatements_singleton]
              exact run_succ_tracks_walk ih n c env hn
          | cons _ _ => exact tracks_runStatements ih .undefined all env
  | block b =>
      obtain ⟨locals, body, hl, hb, rfl⟩ := Node.analyze_block_eq_ok.mp h
      simp only [walk, Node.walkStep, hl, ofExcept_ok, pure_bind]
      exact tracks_enter ih hb locals env
  | returning e =>
      obtain ⟨c', hc, rfl⟩ := Node.analyze_returning_eq_ok.mp h
      exact tracks_returning ih hc env
  | application f xs =>
      obtain ⟨f', vs, cs, hf, hv, hcs, rfl⟩ := Node.analyze_application_eq_ok.mp h
      simp only [walk, Node.walkStep, hv, ofMishap_ok, pure_bind]
      exact tracks_apply ih hf hcs.flip env
termination_by sizeOf n

theorem run_follows_walk (depth : Nat) :
    Follows CodeOf (run depth) walk := by
  induction depth with
  | zero => exact fun _ _ _ _ m _ _ => .inl ⟨m, rfl⟩
  | succ depth ih =>
      intro c v env h
      obtain ⟨n, rfl, hn⟩ := Value.analyze_eq_ok.mp h
      exact run_succ_tracks_walk ih n c env hn

/-- One step of a walk is tracked by the code, given that the steps of the parts are. -/
theorem walk_succ_tracks_run (ih : Follows (fun v c => CodeOf c v) (walk depth) run)
    (n : Node) (c : Code) (env : Env) (h : n.analyze = .ok c) :
    Tracks (fun v c => CodeOf c v) Eq (walk (depth + 1) (.node n) env)
      fun depth => run depth c env := by
  cases n with
  | literal v =>
      cases h
      exact Tracks.of_succ (tracks_pure rfl)
  | name x =>
      cases h
      exact Tracks.of_succ (tracks_lookup _ env)
  | declaration x v =>
      obtain ⟨c', hc, rfl⟩ := Node.analyze_declaration_eq_ok.mp h
      exact Tracks.of_succ (tracks_declare ih hc x env)
  | conditional p t f =>
      obtain ⟨p', t', f', hp, ht, hf, rfl⟩ := Node.analyze_conditional_eq_ok.mp h
      exact Tracks.of_succ (tracks_select ih hp ht hf env)
  | function ps b =>
      obtain ⟨params, locals, both, body, hp, hl, hi, hb, rfl⟩ := Node.analyze_function_eq_ok.mp h
      simp only [walk, Node.walkStep, hp, hl, hi, ofExcept_ok, pure_bind]
      exact Tracks.of_succ (tracks_close params locals env hb)
  | sequence ss =>
      obtain ⟨vs, cs, hv, hcs, rfl⟩ := Node.analyze_sequence_eq_ok.mp h
      simp only [walk, Node.walkStep, hv, ofMishap_ok, pure_bind]
      have all := hcs
      cases hcs with
      | nil => exact Tracks.of_succ (tracks_pure rfl)
      | @cons v c vs cs hc rest =>
          cases rest with
          | nil =>
              rw [runStatements_singleton]
              exact ih v c env hc
          | cons _ _ => exact Tracks.of_succ (tracks_runStatements ih .undefined all env)
  | block b =>
      obtain ⟨locals, body, hl, hb, rfl⟩ := Node.analyze_block_eq_ok.mp h
      simp only [walk, Node.walkStep, hl, ofExcept_ok, pure_bind]
      exact Tracks.of_succ (tracks_enter ih hb locals env)
  | returning e =>
      obtain ⟨c', hc, rfl⟩ := Node.analyze_returning_eq_ok.mp h
      exact Tracks.of_succ (tracks_returning ih hc env)
  | application f xs =>
      obtain ⟨f', vs, cs, hf, hv, hcs, rfl⟩ := Node.analyze_application_eq_ok.mp h
      simp only [walk, Node.walkStep, hv, ofMishap_ok, pure_bind]
      exact Tracks.of_succ (tracks_apply ih hf hcs env)

theorem walk_follows_run (depth : Nat) :
    Follows (fun v c => CodeOf c v) (walk depth) run := by
  induction depth with
  | zero => exact fun _ _ _ _ m _ _ => .inl ⟨m, rfl⟩
  | succ depth ih =>
      intro v c env h
      obtain ⟨n, rfl, hn⟩ := Value.analyze_eq_ok.mp h
      exact walk_succ_tracks_run ih n c env hn

end

/-- Running the code of a tree and walking the tree come to the same end, and a tree that has no
code is refused with the fault of its analysis before anything is done. -/
theorem run_agrees_with_walk (v : Value) (env : Env) (m : Memory Code) (m' : Memory Value)
    (alike : Memory.Alike CodeOf m m') :
    match v.analyze with
    | .ok c =>
        (∀ depth, Exhausted (run depth c env m) ∨
          ∃ r, Settles (fun depth => walk depth v env) m' r ∧
            Corresponds Eq Eq (Memory.Alike CodeOf) (run depth c env m) r) ∧
        (∀ depth, Exhausted (walk depth v env m') ∨
          ∃ r, Settles (fun depth => run depth c env) m r ∧
            Corresponds Eq Eq (Memory.Alike CodeOf) r (walk depth v env m'))
    | .error e => ∀ depth, evaluate depth v env m = .error e m := by
  cases h : v.analyze with
  | ok c =>
      refine ⟨fun depth => run_follows_walk depth c v env h m m' alike, fun depth => ?_⟩
      rcases walk_follows_run depth v c env h m' m alike.flip with exhausted | ⟨r, settled, ends⟩
      · exact .inl exhausted
      · exact .inr ⟨r, settled, ends.flip⟩
  | error e =>
      intro depth
      rw [evaluate, h]
      rfl

namespace Sample

/-- A call of the function kept as `f`, as the only statement of a sequence. -/
def callTree : Value :=
  .node (.sequence (.tuple [.node (.application (.node (.name "f"))
    (.tuple [.node (.literal (.int 1))]))]))

/-- One frame, in which `f` is a function of one parameter with the given body. -/
def memory {β : Type} (body : β) : Memory β :=
  { frames := #[⟨[(.text "f", some (.function 0 [.text "x"] []))]⟩], closures := #[⟨body, [0]⟩] }

def codeMemory : Memory Code := memory (.returning (.name "x"))

def treeMemory : Memory Value := memory (.node (.returning (.node (.name "x"))))

end Sample

theorem run_agrees_with_walk_on_stored_call :
    Memory.Alike CodeOf Sample.codeMemory Sample.treeMemory ∧
      ∃ r m, Settles (fun depth => walk depth Sample.callTree [0]) Sample.treeMemory r ∧
        evaluate 3 Sample.callTree [0] Sample.codeMemory = .ok (.int 1) m ∧
        Corresponds Eq Eq (Memory.Alike CodeOf) (.ok (.int 1) m) r := by
  have alike : Memory.Alike CodeOf Sample.codeMemory Sample.treeMemory :=
    ⟨rfl, .cons ⟨rfl, rfl⟩ .nil, rfl, rfl⟩
  obtain ⟨m, ends⟩ : ∃ m, run 3 (.ofStatements [.apply (.name "f") [.literal (.int 1)]]) [0]
      Sample.codeMemory = .ok (.int 1) m := ⟨_, rfl⟩
  rcases (run_agrees_with_walk Sample.callTree [0] _ _ alike).1 3 with ⟨m', h⟩ | ⟨r, settled, h⟩
  · cases ends.symm.trans h
  · exact ⟨alike, r, m, settled, ends, ends.symm ▸ h⟩

end ConstLang
