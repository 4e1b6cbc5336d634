import ConstLang.Environment
import ConstLang.Proofs.Contents
import ConstLang.Proofs.Moment
import ConstLang.Proofs.Tree.Parts

/-!
What a call binds. Analysis refuses a function whose parameters and locals are not all different,
so code that was made of trees has none, and neither has memory as long as only such code runs. The
slots of a call therefore do not shadow each other: with as many arguments as parameters, the body
runs in one new frame with a slot for each name, and with more or fewer it does not run.
-/

namespace ConstLang

/-- Code that analysis made of a tree in which all names are texts. -/
def Code.Sourced (c : Code) : Prop := ∃ tree, Textual tree ∧ tree.analyze = .ok c

/-- The parts of such code are such code, and the scopes that it opens have different names. -/
theorem Code.Sourced.part {c : Code} {p : List (List Value) × Code} (h : c.Sourced)
    (hp : p ∈ c.parts) : p.2.Sourced ∧ ∀ names ∈ p.1, Names names := by
  obtain ⟨tree, textual, ok⟩ := h
  obtain ⟨w, stands, made⟩ := part_of_analyze ok hp
  exact ⟨⟨w, textual.of_stands stands, made⟩, textual.names_part ok hp⟩

namespace Memory

/-- Memory in which all functions have bodies that were made of trees. -/
def Sourced (m : Memory Code) : Prop :=
  ∀ (id : Nat) (c : Closure Code), m.closures[id]? = some c → c.body.Sourced

variable {m : Memory Code}

theorem Sourced.close (h : m.Sourced) (params locals : List Value) {c : Closure Code}
    (hc : c.body.Sourced) : (m.close params locals c).2.Sourced := by
  intro id d hd
  simp only [Memory.close, Array.getElem?_push] at hd
  split at hd
  · cases hd
    exact hc
  · exact h id d hd

end Memory

namespace Eval

variable {α γ : Type}

/-- A computation that leaves memory with functions that were made of trees, however it ends. -/
def KeepsSourced (act : Eval Code α) : Prop :=
  ∀ m, m.Sourced → act.Ends m (fun _ => Memory.Sourced) (fun _ => Memory.Sourced)

theorem keepsSourced_pure (a : α) : (pure a : Eval Code α).KeepsSourced := fun _ h => h

theorem keepsSourced_throw (e : Fault) : (throw e : Eval Code α).KeepsSourced := fun _ h => h

theorem KeepsSourced.bind {act : Eval Code γ} {next : γ → Eval Code α} (h : act.KeepsSourced)
    (hn : ∀ c, (next c).KeepsSourced) : (act >>= next).KeepsSourced :=
  fun m hm => (h m hm).bind fun c n hs => hn c n hs

theorem keepsSourced_ofExcept (r : Except Fault α) :
    (ofExcept r : Eval Code α).KeepsSourced := by
  cases r with
  | ok a => exact keepsSourced_pure a
  | error e => exact keepsSourced_throw e

theorem keepsSourced_ofMishap (r : Except Mishap α) :
    (ofMishap r : Eval Code α).KeepsSourced := by
  cases r with
  | ok a => exact keepsSourced_pure a
  | error e => exact keepsSourced_throw _

/-- Only new closures matter; frames, identities and output do not. -/
theorem keepsSourced_modifyGet {f : Memory Code → α × Memory Code}
    (same : ∀ m, (f m).2.closures = m.closures) : (modifyGet f : Eval Code α).KeepsSourced := by
  intro m h
  have kept : (f m).2.Sourced := by
    intro id c hc
    rw [same m] at hc
    exact h id c hc
  exact kept

theorem keepsSourced_lookup (x : Value) (env : Env) : (lookup x env).KeepsSourced :=
  KeepsSourced.bind (fun _ h => h) fun m => keepsSourced_ofExcept (m.lookup x env)

theorem keepsSourced_assign (x v : Value) (env : Env) : (assign x v env).KeepsSourced :=
  KeepsSourced.bind (fun _ h => h) fun m =>
    (keepsSourced_ofExcept (m.target x env)).bind fun _ => keepsSourced_modifyGet fun _ => rfl

theorem keepsSourced_push (f : Frame) (env : Env) : (push f env).KeepsSourced :=
  keepsSourced_modifyGet fun _ => rfl

theorem keepsSourced_mark (v : Value) : (mark v).KeepsSourced := by
  unfold mark
  split
  · exact keepsSourced_pure _
  · exact (keepsSourced_modifyGet fun _ => rfl).bind fun _ => keepsSourced_pure _

theorem keepsSourced_performOperation (op : Operation) (args : List Value) :
    (performOperation op args).KeepsSourced := by
  refine (keepsSourced_modifyGet fun _ => rfl).bind fun id => ?_
  refine (keepsSourced_ofExcept _).bind fun effect => ?_
  dsimp only
  split
  · exact (keepsSourced_modifyGet fun _ => rfl).bind fun _ => keepsSourced_pure _
  · exact keepsSourced_pure _

theorem keepsSourced_enterScope (locals : List Value) (env : Env) :
    (enterScope locals env).KeepsSourced :=
  (keepsSourced_ofMishap _).bind fun f => keepsSourced_push f env

section Parts

variable {exec : Code → Env → Eval Code Value}

/-- Memory has sourced bodies, so calls run sourced code. -/
theorem keepsSourced_call (hexec : ∀ c env, c.Sourced → (exec c env).KeepsSourced) (f : Value)
    (args : List Value) : (call exec f args).KeepsSourced := by
  unfold call
  split
  · exact keepsSourced_performOperation _ args
  · intro m hm
    rw [ends_bind]
    refine ends_enterCall (fun _ => hm) (fun _ => hm) (fun _ => hm) fun c frame hc _ _ => ?_
    have body := hexec c.body (m.frames.size :: c.env) (hm _ c hc)
    exact body.bind (fun v => keepsSourced_pure v.returned) (m.push frame c.env).2 hm
  · exact keepsSourced_throw _

theorem keepsSourced_runAll (hexec : ∀ c env, c.Sourced → (exec c env).KeepsSourced)
    {cs : List Code} (hcs : ∀ c ∈ cs, c.Sourced) (env : Env) :
    (runAll exec cs env).KeepsSourced := by
  induction cs with
  | nil => exact keepsSourced_pure _
  | cons c cs ih =>
      obtain ⟨first, rest⟩ := List.forall_mem_cons.mp hcs
      exact (hexec c env first).bind fun v => (ih rest).bind fun vs => keepsSourced_pure (v :: vs)

theorem keepsSourced_runStatements (hexec : ∀ c env, c.Sourced → (exec c env).KeepsSourced)
    {cs : List Code} (hcs : ∀ c ∈ cs, c.Sourced) (result : Value) (env : Env) :
    (runStatements exec result cs env).KeepsSourced := by
  induction cs generalizing result with
  | nil => exact keepsSourced_pure _
  | cons c cs ih =>
      obtain ⟨first, rest⟩ := List.forall_mem_cons.mp hcs
      refine (hexec c env first).bind fun v => ?_
      split
      · exact keepsSourced_pure v
      · exact ih rest v

/-- One step makes no functions but those whose bodies are parts of the code. -/
theorem keepsSourced_step (hexec : ∀ c env, c.Sourced → (exec c env).KeepsSourced) {c : Code}
    (hc : c.Sourced) (env : Env) : (c.step exec env).KeepsSourced := by
  have part (p : List (List Value) × Code) (hp : p ∈ c.parts) (env : Env) :
      (exec p.2 env).KeepsSourced := hexec p.2 env (hc.part hp).1
  cases c with
  | literal v => exact keepsSourced_pure v
  | name x => exact keepsSourced_lookup _ env
  | declare x c =>
      refine (part ([], c) (by simp [Code.parts]) env).bind fun v => ?_
      exact (keepsSourced_assign x v env).bind fun _ => keepsSourced_pure _
  | select p c a =>
      refine (part ([], p) (by simp [Code.parts]) env).bind fun v => ?_
      split
      · exact part ([], c) (by simp [Code.parts]) env
      · exact part ([], a) (by simp [Code.parts]) env
  | close params locals body =>
      intro m hm
      have inside := (hc.part (p := ([params ++ locals], body)) (by simp [Code.parts])).1
      exact hm.close params locals inside
  | sequence cs =>
      refine keepsSourced_runStatements hexec (fun c h => ?_) _ env
      exact (hc.part (p := ([], c)) (by simp [Code.parts, h])).1
  | enter locals body =>
      refine (keepsSourced_enterScope locals env).bind fun inner => ?_
      exact part ([locals], body) (by simp [Code.parts]) inner
  | returning c =>
      refine (part ([], c) (by simp [Code.parts]) env).bind fun v => keepsSourced_mark v
  | apply f xs =>
      refine (part ([], f) (by simp [Code.parts]) env).bind fun g => ?_
      have operands : (runAll exec xs env).KeepsSourced := by
        refine keepsSourced_runAll hexec (fun x h => ?_) env
        exact (hc.part (p := ([], x)) (by simp [Code.parts, h])).1
      exact operands.bind fun args => keepsSourced_call hexec g args

end Parts

theorem keepsSourced_run (depth : Nat) (c : Code) (env : Env) (hc : c.Sourced) :
    (run depth c env).KeepsSourced := by
  induction depth generalizing c env with
  | zero => exact keepsSourced_throw _
  | succ depth ih => exact keepsSourced_step ih hc env

theorem keepsSourced_applyFunction (depth : Nat) (f : Value) (args : List Value) :
    (applyFunction depth f args).KeepsSourced :=
  keepsSourced_call (keepsSourced_run depth) f args

end Eval

namespace Moment

/-- Sourced code is about to run, or any function to be called, in memory of such functions. -/
structure Sourced (a : Moment) : Prop where
  memory : a.memory.Sourced
  code : ∀ code env, a.task = .run code env → code.Sourced

variable {a b : Moment}

theorem sourced_run {d : Nat} {c : Code} {env : Env} {m : Memory Code} (memory : m.Sourced)
    (code : c.Sourced) : Sourced ⟨d, .run c env, m⟩ := by
  refine ⟨memory, fun c' env' same => ?_⟩
  cases same
  exact code

theorem Sourced.left (h : a.Sourced) : a.left.Sourced := by
  obtain ⟨depth, task, m⟩ := a
  cases task with
  | run c env =>
      exact Eval.ends_after (Eval.keepsSourced_run depth c env (h.code c env rfl) m h.memory)
  | call f args => exact Eval.ends_after (Eval.keepsSourced_applyFunction depth f args m h.memory)

/-- What a moment starts is sourced as it is. -/
theorem Starts.sourced (h : a.Starts b) (ha : a.Sourced) : b.Sourced := by
  have part {c : Code} {env : Env} (run : a.task = .run c env) (p : List (List Value) × Code)
      (hp : p ∈ c.parts) : p.2.Sourced := ((ha.code c env run).part hp).1
  have memory := ha.memory
  have ran {d : Nat} {c : Code} {env : Env} {m n : Memory Code} {v : Value} (hc : c.Sourced)
      (hm : m.Sourced) (ended : ConstLang.run d c env m = .ok v n) : n.Sourced :=
    (Eval.keepsSourced_run d c env hc m hm).of_ok ended
  have ranAll {d : Nat} {cs : List Code} {env : Env} {m n : Memory Code} {vs : List Value}
      (hcs : ∀ c ∈ cs, c.Sourced) (hm : m.Sourced)
      (ended : runAll (ConstLang.run d) cs env m = .ok vs n) : n.Sourced :=
    (Eval.keepsSourced_runAll (Eval.keepsSourced_run d) hcs env m hm).of_ok ended
  cases h with
  | @value d x c env m => exact sourced_run memory (part rfl ([], c) (by simp [Code.parts]))
  | @predicate d p c a env m => exact sourced_run memory (part rfl ([], p) (by simp [Code.parts]))
  | @branch d p c a env m v n decided =>
      refine sourced_run (ran (part rfl ([], p) (by simp [Code.parts])) memory decided) ?_
      split
      · exact part rfl ([], c) (by simp [Code.parts])
      · exact part rfl ([], a) (by simp [Code.parts])
  | @statement d cs before c after env m v n split ended unmarked =>
      subst split
      have each (s : Code) (hs : s ∈ before ++ c :: after) : s.Sourced :=
        part rfl ([], s) (by simpa [Code.parts] using hs)
      have kept := Eval.keepsSourced_runStatements (Eval.keepsSourced_run d)
        (fun s hs => each s (List.mem_append_left _ hs)) Value.undefined env
      exact sourced_run ((kept m memory).of_ok ended) (each c (by simp))
  | @block d locals body env m inner n entered =>
      have inside := (Eval.keepsSourced_enterScope locals env m memory).of_ok entered
      exact sourced_run inside (part rfl ([locals], body) (by simp [Code.parts]))
  | @returned d c env m => exact sourced_run memory (part rfl ([], c) (by simp [Code.parts]))
  | @operator d f xs env m => exact sourced_run memory (part rfl ([], f) (by simp [Code.parts]))
  | @operand d f xs before x after env m g n vs k split operator ended =>
      subst split
      have each (y : Code) (hy : y ∈ before ++ x :: after) : y.Sourced :=
        part rfl ([], y) (List.mem_cons_of_mem _ (List.mem_map_of_mem hy))
      have first := ran (part rfl ([], f) (by simp [Code.parts])) memory operator
      refine sourced_run (ranAll (fun y hy => each y ?_) first ended) (each x (by simp))
      exact List.mem_append_left _ hy
  | @call d f xs env m g n args k operator operands =>
      have first := ran (part rfl ([], f) (by simp [Code.parts])) memory operator
      have rest := ranAll (fun x hx => part rfl ([], x) (by simp [Code.parts, hx])) first operands
      exact ⟨rest, fun _ _ same => by cases same⟩
  | @body d id params locals args m code inner n entered =>
      have body : (enterCall (.function id params locals) id params locals args).Ends m
          (fun c n => n.Sourced ∧ c.1.Sourced) (fun _ _ => True) :=
        Eval.ends_enterCall (fun _ => trivial) (fun _ => trivial) (fun _ => trivial)
          fun c frame hc _ _ => ⟨memory, memory _ c hc⟩
      have inside := body.of_ok entered
      exact sourced_run inside.1 inside.2

theorem Reaches.sourced (h : a.Reaches b) (ha : a.Sourced) : b.Sourced := by
  induction h with
  | refl => exact ha
  | tail _ last ih => exact last.sourced ih

end Moment

section Slots

variable {params locals args : List Value}

/-- The slots of a call are those of one list of names and one list of values, in which every local
is given the missing value. -/
theorem callSlots_eq_zip (arity : args.length = params.length) :
    callSlots params locals args =
      (params ++ locals).zip
        ((args ++ locals.map fun _ => Value.uninitialized).map Value.slot) := by
  have first : params.length = (args.map Value.slot).length := by simp [arity]
  rw [List.map_append, List.zip_append first, callSlots, List.map_map]
  exact congrArg _ List.map_prod_left_eq_zip

/-- The frame of a call: the parameters with the arguments, then the locals without values. -/
structure Frame.Binds (params locals args : List Value) (f : Frame) : Prop where
  names : f.names = params ++ locals
  parameter : ∀ (i : Nat) (h : i < params.length) (h' : i < args.length),
    f.get? params[i] = some args[i].slot
  unassigned : ∀ x ∈ locals, f.get? x = some none

theorem binds_callSlots (arity : args.length = params.length) (names : Names (params ++ locals)) :
    (⟨callSlots params locals args⟩ : Frame).Binds params locals args := by
  have different : Names ((callSlots params locals args).map (·.1)) := by
    rwa [Frame.map_fst_callSlots arity]
  refine ⟨Frame.map_fst_callSlots arity, fun i h h' => ?_, fun x hx => ?_⟩
  · refine Frame.get?_of_mem different (List.mem_append_left _ ?_)
    refine List.mem_iff_getElem.mpr ⟨i, by simp [arity, h], ?_⟩
    simp
  · refine Frame.get?_of_mem different (List.mem_append_right _ ?_)
    exact List.mem_map_of_mem hx

/-- If the names of a function are different, an environment is extended by the frame of a call. -/
theorem Eval.extend_callSlots (arity : args.length = params.length)
    (names : Names (params ++ locals)) (inner : Env) (m : Memory Code) :
    Eval.extend (params ++ locals) (args ++ locals.map fun _ => Value.uninitialized) inner m =
      .ok (m.frames.size :: inner) (m.push ⟨callSlots params locals args⟩ inner).2 := by
  have different : Names ((callSlots params locals args).map (·.1)) := by
    rwa [Frame.map_fst_callSlots arity]
  have slots := Frame.ofSlots_eq_ok different
  rw [callSlots_eq_zip arity] at slots ⊢
  have equal : (params ++ locals).length =
      (args ++ locals.map fun _ => Value.uninitialized).length := by simp [arity]
  simp only [Eval.extend, Eval.extendZip, equal, Frame.ofValues, slots, ne_eq, not_true_eq_false,
    if_false]
  rfl

/-- A call with as many arguments as parameters is the run of the body in the frame of the call. -/
theorem call_of_arity {m : Memory Code} {id : Nat} {c : Closure Code}
    (found : m.closures[id]? = some c) (arity : args.length = params.length)
    (names : Names (params ++ locals)) (exec : Code → Env → Eval Code Value) :
    call exec (.function id params locals) args m =
      (do return (← exec c.body (m.frames.size :: c.env)).returned)
        (m.push ⟨callSlots params locals args⟩ c.env).2 := by
  have different : Names ((callSlots params locals args).map (·.1)) := by
    rwa [Frame.map_fst_callSlots arity]
  have entered : enterCall (.function id params locals) id params locals args m =
      .ok (c.body, m.frames.size :: c.env) (m.push ⟨callSlots params locals args⟩ c.env).2 := by
    simp [Eval.enterCall_apply, arity, found, Frame.ofSlots_eq_ok different]
  exact Eval.bind_of_ok entered _

/-- A call with more or fewer arguments than parameters runs nothing. -/
theorem call_of_not_arity {m : Memory Code} (id : Nat) (arity : args.length ≠ params.length)
    (exec : Code → Env → Eval Code Value) :
    call exec (.function id params locals) args m =
      .error (.arity params.length args.length) m := by
  have refused : enterCall (.function id params locals) id params locals args m =
      .error (.arity params.length args.length) m := by
    rw [Eval.enterCall_apply, if_neg arity]
  exact Eval.bind_of_error refused _

end Slots

/-- Wherever the evaluation of a tree meets a function definition, in whatever function it has
called, the value that the definition yields has different names; and from then on it binds its
arguments exactly, whoever calls it and however bodies are run. With another number of arguments
than parameters the call is refused before its body runs, and the report tells both numbers.
Otherwise the body runs in one new frame on the environment of the definition, with the arguments in
the parameters and with the locals unassigned. All this takes only that the functions that were in
memory before come from such trees, as they do again afterwards. -/
theorem calls_bind_exactly {i : Interpreter} {node : Value} {env : Env} {m : Memory Code}
    (textual : Textual node) (sourced : m.Sourced) :
    (∀ a, i.Visits node env m a → a.left.Sourced) ∧
      ∀ d params locals body inner k,
        i.Visits node env m ⟨d + 1, .run (.close params locals body) inner, k⟩ →
          (params ++ locals).Nodup ∧
            ∃ id n, run (d + 1) (.close params locals body) inner k =
                .ok (.function id params locals) n ∧
              ∀ l, n.Later l → ∀ args : List Value,
                (args.length ≠ params.length →
                  (∀ exec, call exec (.function id params locals) args l =
                    .error (.arity params.length args.length) l) ∧
                  (Fault.arity params.length args.length).report = ⟨.arity, some
                    ((if params.length < args.length then "Too many" else "Too few") ++
                      " arguments supplied: expected " ++ Nat.repr params.length ++ ", got " ++
                      Nat.repr args.length)⟩) ∧
                (args.length = params.length → ∃ frame : Frame,
                  frame.Binds params locals args ∧
                  Eval.extend (params ++ locals) (args ++ locals.map fun _ => .uninitialized)
                    inner l = .ok (l.frames.size :: inner) (l.push frame inner).2 ∧
                  ∀ exec, call exec (.function id params locals) args l =
                    (do return (← exec body (l.frames.size :: inner)).returned)
                      (l.push frame inner).2) := by
  have visited (a : Moment) (h : i.Visits node env m a) : a.Sourced := by
    obtain ⟨limit, code, -, analyzed, reached⟩ := h
    exact reached.sourced (Moment.sourced_run sourced ⟨node, textual, analyzed⟩)
  refine ⟨fun a h => (visited a h).left, ?_⟩
  intro d params locals body inner k h
  have code : (Code.close params locals body).Sourced := (visited _ h).code _ _ rfl
  have names : Names (params ++ locals) :=
    (code.part (List.mem_singleton_self _)).2 _ (List.mem_singleton_self _)
  refine ⟨names.1, k.closures.size, (k.close params locals ⟨body, inner⟩).2, rfl, ?_⟩
  intro l later args
  have found : l.closures[k.closures.size]? = some ⟨body, inner⟩ := by
    refine later.closures_getElem? ?_
    simp [Memory.close]
  constructor
  · intro arity
    exact ⟨fun exec => call_of_not_arity _ arity exec, rfl⟩
  · intro arity
    refine ⟨_, binds_callSlots arity names, Eval.extend_callSlots arity names inner l, ?_⟩
    exact fun exec => call_of_arity found arity names exec

namespace Sample

/-- A function of two parameters that declares a name. -/
def pairing : Node :=
  .function (.tuple [.text "a", .text "b"])
    (.node (.declaration (.text "c") (.node (.name "a"))))

/-- A block that gives the function a name. -/
def pairingBlock : Value := .node (.block (.node (.declaration (.text "f") (.node pairing))))

theorem visits_pairing :
    Interpreter.Visits ⟨[], 0⟩ pairingBlock [] {}
      ⟨997 + 1, .run (.close [.text "a", .text "b"] [.text "c"]
        (.declare (.text "c") (.name "a"))) [0], { frames := #[⟨[(.text "f", none)]⟩] }⟩ :=
  ⟨1000, _, rfl, rfl, .tail (.single (.block rfl)) .value⟩

end Sample

theorem pairing_binds_exactly :
    Textual Sample.pairingBlock ∧ Memory.Sourced {} ∧ ∃ (f : Value) (n : Memory Code),
      (∀ exec, call exec f [.int 1] n = .error (.arity 2 1) n) ∧
        ∃ frame : Frame,
          frame.Binds [.text "a", .text "b"] [.text "c"] [.int 1, .null] ∧
            ∀ exec, call exec f [.int 1, .null] n =
              (do return (← exec (.declare (.text "c") (.name "a")) [1, 0]).returned)
                (n.push frame [0]).2 := by
  have textual : Textual Sample.pairingBlock := by
    simp [Textual, Sample.pairingBlock, Sample.pairing, everyNode_node, Node.parts, Node.names,
      Value.items, Value.iterate]
  have sourced : Memory.Sourced {} := fun id c found => by simp at found
  obtain ⟨-, id, n, made, calls⟩ :=
    (calls_bind_exactly textual sourced).2 _ _ _ _ _ _ Sample.visits_pairing
  obtain ⟨refused, -⟩ := (calls n (.refl _ n) [.int 1]).1 (by decide)
  obtain ⟨frame, binds, -, enters⟩ := (calls n (.refl _ n) [.int 1, .null]).2 rfl
  have size : n.frames.size = 1 := by
    cases made
    rfl
  rw [size] at enters
  exact ⟨textual, sourced, _, n, refused, frame, binds, enters⟩

end ConstLang
