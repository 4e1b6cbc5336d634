import ConstLang.Proofs.Contents
import ConstLang.Proofs.Placement

/-!
Consistency of declarations. Memory is sound if the closure of every function that a
slot holds is tidy. Tidy code that starts in a sound memory, with an unassigned slot
in its innermost frame for every name that it declares, never declares a name that has
no slot or has a value already, and leaves a sound memory. A program whose declarations
are placed in scopes is tidy, so none of its runs is inconsistent.
-/

namespace ConstLang

namespace Memory

/-- A function is known if its closure is there and is tidy, with slots for the names that the body
declares. -/
def Knows (m : Memory Code) : Value → Prop
  | .function id params locals =>
      ∃ c : Closure Code, m.closures[id]? = some c ∧ c.body.Tidy ∧ c.body.writes = locals ∧
        Names (params ++ locals)
  | _ => True

def Sound (m : Memory Code) : Prop := m.Holds m.Knows

/-- The innermost frame has an unassigned slot for each of the names. -/
def Ready (m : Memory Code) (env : Env) (names : List Value) : Prop :=
  ∀ x ∈ names, ∃ i, env.head? = some i ∧ (m.frame i).get? x = some none

variable {m m' : Memory Code} {may : Nat → Value → Prop}

theorem knows_of_not_made (m : Memory Code) (v : Value) (h : v.isMade = false) : m.Knows v := by
  cases v <;> trivial

theorem knows_names {names : List Value} (h : Names names) : EveryItem m.Knows names := by
  rw [everyItem_iff]
  intro x hx
  obtain ⟨s, rfl⟩ := h.2 x hx
  trivial

/-- A function stays known while memory grows. -/
theorem Grows.knows (g : m.Grows may m') (v : Value) (h : m.Knows v) : m'.Knows v := by
  cases v with
  | function id params locals =>
      obtain ⟨c, hc, rest⟩ := h
      exact ⟨c, g.closures_getElem? hc, rest⟩
  | _ => trivial

theorem ready_nil (m : Memory Code) (env : Env) : m.Ready env [] := by
  intro x hx
  cases hx

theorem ready_append {env : Env} {xs ys : List Value} :
    m.Ready env (xs ++ ys) ↔ m.Ready env xs ∧ m.Ready env ys := by
  simp only [Ready, List.mem_append, or_imp, forall_and]

/-- Slots stay unassigned while others are filled. -/
theorem Ready.grown {env : Env} {others names : List Value} (h : m.Ready env names)
    (g : m.Grows (Innermost env others) m') (apart : Names (others ++ names)) :
    m'.Ready env names := by
  intro x hx
  obtain ⟨i, head, unassigned⟩ := h x hx
  cases hf : m.frames[i]? with
  | none => simp [frame, hf, Frame.empty, Frame.get?] at unassigned
  | some f =>
      obtain ⟨f', hf', fills⟩ := g.frames i f hf
      obtain ⟨hothers, hnames, disjoint⟩ := names_append.mp apart
      have other : ∀ y, Innermost env others i y → y.same x = false := by
        rintro y ⟨-, z, hz, same⟩
        obtain ⟨s, rfl⟩ := hothers.2 z hz
        obtain ⟨t, rfl⟩ := hnames.2 x hx
        rw [Value.same_text] at same
        rw [Bool.eq_false_iff, Ne, Value.same_text, same]
        intro e
        exact disjoint _ hz (e ▸ hx)
      refine ⟨i, head, ?_⟩
      have kept := fills.get?_eq other
      simpa [frame, hf, hf'] using kept.trans (by simpa [frame, hf] using unassigned)

/-- A new frame of different names has unassigned slots for those that come without content. -/
theorem ready_push {slots : List (Value × Option Value)} {names : List Value} (m : Memory Code)
    (env : Env) (h : Names (slots.map (·.1))) (hs : ∀ x ∈ names, (x, none) ∈ slots) :
    (m.push ⟨slots⟩ env).2.Ready (m.frames.size :: env) names := by
  intro x hx
  refine ⟨m.frames.size, rfl, ?_⟩
  rw [frame_push, if_pos rfl]
  exact Frame.get?_of_mem h (hs x hx)

theorem Ready.target_eq_ok {env : Env} {names : List Value} (h : m.Ready env names)
    (hn : Names names) {x : Value} (hx : x ∈ names) : ∃ i, m.target x env = .ok i := by
  obtain ⟨i, head, unassigned⟩ := h x hx
  obtain ⟨s, rfl⟩ := hn.2 x hx
  cases env with
  | nil => cases head
  | cons j env =>
      cases head
      exact ⟨i, by simp [target, unassigned]⟩

theorem kind_of_lookup {x : Value} {env : Env} {e : Fault} (h : m.lookup x env = .error e) :
    e.kind ≠ .inconsistent := by
  rcases lookup_eq_error h with rfl | rfl | rfl <;> simp [Fault.kind]

end Memory

theorem Operation.kind_of_perform {op : Operation} {id : Nat} {args : List Value} {e : Fault}
    (h : op.perform id args = .error e) : e.kind ≠ .inconsistent := by
  rcases perform_eq_error h with ⟨m, rfl⟩ | ⟨text, rfl⟩ <;> simp [Fault.kind]

namespace Eval

variable {α : Type}

theorem Ends.and_grows {act : Eval Code α} {m : Memory Code} {may : Nat → Value → Prop}
    {returned : α → Memory Code → Prop} {failed : Fault → Memory Code → Prop}
    (h : act.Ends m returned failed) (g : act.Grows may) :
    act.Ends m (fun a m' => m.Grows may m' ∧ returned a m') failed :=
  ((g m).and h).imp (fun _ _ => id) (fun _ _ => And.right)

/-- A consistent end: no declaration missed its slot, and what is returned and memory are known. -/
def Consistent (act : Eval Code α) (m : Memory Code) (known : α → Memory Code → Prop) : Prop :=
  act.Ends m (fun a m' => m'.Sound ∧ known a m') (fun e _ => e.kind ≠ .inconsistent)

/-- The values that memory knows throughout. -/
def Known (v : Value) (m : Memory Code) : Prop := v.Every m.Knows

section Parts

variable {m : Memory Code}

theorem consistent_lookup (sound : m.Sound) (x : Value) (env : Env) :
    (lookup x env).Consistent m Known := by
  simp only [Consistent, lookup, ends_bind, ends_get, ends_ofExcept]
  split
  · rename_i v found
    exact ⟨sound, sound.lookup found⟩
  · rename_i e missed
    exact Memory.kind_of_lookup missed

theorem consistent_mark {v : Value} (sound : m.Sound) (h : Known v m) :
    (mark v).Consistent m Known := by
  unfold mark
  split
  · exact ⟨sound, h⟩
  · exact ⟨sound, trivial, h⟩

theorem consistent_performOperation (sound : m.Sound) (op : Operation) {args : List Value}
    (h : ∀ x ∈ args, Known x m) : (performOperation op args).Consistent m Known := by
  simp only [Consistent, performOperation, ends_bind, ends_fresh, ends_ofExcept]
  split
  · rename_i effect performed
    have known := Value.every_perform m.knows_of_not_made h performed
    split <;> exact ⟨sound, known⟩
  · rename_i e failed
    exact Operation.kind_of_perform failed

variable {exec : Code → Env → Eval Code Value}

/-- Execution that fills only slots of names that the code declares, and is consistent on tidy code
in a sound memory that has its slots. -/
structure Keeps (exec : Code → Env → Eval Code Value) : Prop where
  grows : ∀ c env, (exec c env).Grows (Innermost env c.writes)
  consistent : ∀ (c : Code) (env : Env) (m : Memory Code), c.Tidy → Names c.writes → m.Sound →
    m.Ready env c.writes → (exec c env).Consistent m Known

/-- One part of some code after which others follow: the slots of those are still unassigned. -/
theorem Keeps.first (keeps : Keeps exec) {c : Code} {env : Env} {rest : List Value}
    (tidy : c.Tidy) (names : Names (c.writes ++ rest)) (sound : m.Sound)
    (ready : m.Ready env (c.writes ++ rest)) :
    (exec c env).Ends m (fun v m' => m'.Sound ∧ Known v m' ∧ m'.Ready env rest)
      (fun e _ => e.kind ≠ .inconsistent) := by
  have own := (names_append.mp names).1
  obtain ⟨readyOwn, readyRest⟩ := Memory.ready_append.mp ready
  have ends := (keeps.consistent c env m tidy own sound readyOwn).and_grows (keeps.grows c env)
  exact ends.mono fun v m' h => ⟨h.2.1, h.2.2, readyRest.grown h.1 names⟩

theorem Keeps.runAll (keeps : Keeps exec) {cs : List Code} {env : Env} (tidy : TidyAll cs)
    (names : Names (writesAll cs)) (sound : m.Sound) (ready : m.Ready env (writesAll cs)) :
    (runAll exec cs env).Consistent m (fun vs m' => ∀ v ∈ vs, Known v m') := by
  induction cs generalizing m with
  | nil => exact ⟨sound, by simp⟩
  | cons c cs ih =>
      refine (keeps.first tidy.1 names sound ready).bind fun v m' h => ?_
      obtain ⟨sound', known, ready'⟩ := h
      have rest := ih tidy.2 (names_append.mp names).2.1 sound' ready'
      refine (rest.and_grows (grows_runAll keeps.grows cs env)).bind fun vs m'' h => ?_
      exact ⟨h.2.1, List.forall_mem_cons.mpr ⟨known.imp h.1.knows, h.2.2⟩⟩

theorem Keeps.runStatements (keeps : Keeps exec) {cs : List Code} {env : Env} {v : Value}
    (tidy : TidyAll cs) (names : Names (writesAll cs)) (sound : m.Sound)
    (known : Known v m) (ready : m.Ready env (writesAll cs)) :
    (runStatements exec v cs env).Consistent m Known := by
  induction cs generalizing m v with
  | nil => exact ⟨sound, known⟩
  | cons c cs ih =>
      refine (keeps.first tidy.1 names sound ready).bind fun w m' h => ?_
      obtain ⟨sound', known', ready'⟩ := h
      split
      · exact ⟨sound', known'⟩
      · exact ih tidy.2 (names_append.mp names).2.1 sound' known' ready'

theorem known_returned {v : Value} (h : Known v m) : Known v.returned m := by
  cases v with
  | marker id content => exact h.2
  | _ => trivial

/-- A call of a known function finds the slots of the body unassigned in its new frame. -/
theorem Keeps.call (keeps : Keeps exec) {f : Value} {args : List Value} (sound : m.Sound)
    (hf : Known f m) (hargs : ∀ x ∈ args, Known x m) : (call exec f args).Consistent m Known := by
  unfold ConstLang.call
  split
  · exact consistent_performOperation sound _ hargs
  · rename_i id params locals
    obtain ⟨⟨c, hc, tidy, writes, names⟩, -⟩ := hf
    rw [Consistent, ends_bind]
    refine ends_enterCall (fun _ => by simp [Fault.kind]) (fun _ => by simp [Fault.kind])
      (fun _ => by simp [Fault.kind]) ?_
    intro c' frame hc' hlen hframe
    obtain rfl : c = c' := Option.some.inj (hc.symm.trans hc')
    have slots : (callSlots params locals args).map (·.1) = params ++ locals :=
      Frame.map_fst_callSlots hlen
    rw [← slots] at names
    have sound' : (m.push frame c.env).2.Sound :=
      sound.push (Frame.holds_callSlots hframe hargs) c.env
    obtain rfl : (⟨callSlots params locals args⟩ : Frame) = frame :=
      Except.ok.inj ((Frame.ofSlots_eq_ok names).symm.trans hframe)
    have ready : (m.push ⟨callSlots params locals args⟩ c.env).2.Ready (m.frames.size :: c.env)
        c.body.writes := by
      refine Memory.ready_push m c.env names fun x hx => ?_
      rw [writes] at hx
      exact List.mem_append_right _ (List.mem_map_of_mem hx)
    rw [slots] at names
    have own : Names c.body.writes := writes ▸ (names_append.mp names).2.1
    refine (keeps.consistent c.body _ _ tidy own sound' ready).bind fun v m' h => ?_
    exact ⟨h.1, known_returned h.2⟩
  · simp [Consistent, Fault.kind]

/-- A block finds the slots of its body unassigned in its new frame. -/
theorem Keeps.enter (keeps : Keeps exec) {locals : List Value} {body : Code} {env : Env}
    (tidy : body.Tidy) (writes : body.writes = locals) (names : Names locals) (sound : m.Sound) :
    (enterScope locals env >>= exec body).Consistent m Known := by
  have slots : (locals.map fun x => (x, (none : Option Value))).map (·.1) = locals := by
    simp [Function.comp_def]
  have frame : Frame.unassigned locals = .ok ⟨locals.map (·, none)⟩ :=
    Frame.ofSlots_eq_ok (by rwa [slots])
  simp only [Consistent, enterScope, ends_bind, frame, ofMishap_ok, ends_pure, ends_push]
  refine keeps.consistent body _ _ tidy (writes ▸ names) ?_ ?_
  · exact sound.push (Frame.holds_unassigned frame) env
  · refine Memory.ready_push m env (by rwa [slots]) fun x hx => ?_
    rw [writes] at hx
    exact List.mem_map_of_mem hx

theorem consistent_assign {x v : Value} {env : Env} (sound : m.Sound) (known : Known v m)
    (names : Names [x]) (ready : m.Ready env [x]) :
    (assign x v env).Consistent m (fun _ _ => True) := by
  obtain ⟨i, target⟩ := ready.target_eq_ok names List.mem_cons_self
  simp only [Consistent, assign, ends_bind, ends_get, target, ofExcept_ok, ends_pure]
  exact ⟨sound.fill known i x, trivial⟩

theorem consistent_close {params locals : List Value} {body : Code} {env : Env}
    (tidy : body.Tidy) (writes : body.writes = locals) (names : Names (params ++ locals))
    (sound : m.Sound) : (close params locals ⟨body, env⟩).Consistent m Known := by
  have grown := m.grows_close (fun _ _ => False) params locals ⟨body, env⟩
  refine ⟨sound.imp grown.knows, ⟨⟨body, env⟩, ?_, tidy, writes, names⟩, ?_⟩
  · simp
  · obtain ⟨hparams, hlocals, -⟩ := names_append.mp names
    exact ⟨Memory.knows_names hparams, Memory.knows_names hlocals⟩

theorem Keeps.step (keeps : Keeps exec) : Keeps (Code.step exec) := by
  refine ⟨grows_step keeps.grows, ?_⟩
  intro c env m tidy names sound ready
  cases c with
  | literal v =>
      refine ⟨sound, ?_⟩
      rcases tidy with scalar | rfl
      · cases v <;> trivial
      · trivial
  | name x => exact consistent_lookup sound (.text x) env
  | declare x c =>
      simp only [Code.writes] at names ready
      refine (keeps.first (c := c) tidy names sound ready).bind fun v m' h => ?_
      obtain ⟨sound', known, ready'⟩ := h
      have assigned := consistent_assign sound' known (names_append.mp names).2.1 ready'
      exact assigned.bind fun _ _ h => ⟨h.1, trivial⟩
  | select p c a =>
      simp only [Code.writes, List.append_assoc] at names ready
      refine (keeps.first tidy.1 names sound ready).bind fun v m' h => ?_
      obtain ⟨sound', -, ready'⟩ := h
      obtain ⟨readyC, readyA⟩ := Memory.ready_append.mp ready'
      obtain ⟨namesC, namesA, -⟩ := names_append.mp (names_append.mp names).2.1
      split
      · exact keeps.consistent c env m' tidy.2.1 namesC sound' readyC
      · exact keeps.consistent a env m' tidy.2.2 namesA sound' readyA
  | close params locals body => exact consistent_close tidy.1 tidy.2.1 tidy.2.2 sound
  | sequence cs => exact keeps.runStatements tidy names sound trivial ready
  | enter locals body => exact keeps.enter tidy.1 tidy.2.1 tidy.2.2 sound
  | returning c =>
      refine (keeps.consistent c env m tidy names sound ready).bind fun v m' h => ?_
      exact consistent_mark h.1 h.2
  | apply f xs =>
      refine (keeps.first tidy.1 names sound ready).bind fun g m' h => ?_
      obtain ⟨sound', known, ready'⟩ := h
      have args := keeps.runAll tidy.2 (names_append.mp names).2.1 sound' ready'
      refine (args.and_grows (grows_runAll keeps.grows xs env)).bind fun vs m'' h => ?_
      exact keeps.call h.2.1 (known.imp h.1.knows) h.2.2

theorem keeps_run (depth : Nat) : Keeps (run depth) := by
  induction depth with
  | zero =>
      refine ⟨grows_run 0, fun c env m _ _ _ _ => ?_⟩
      simp [Consistent, Fault.kind]
  | succ depth ih => exact ih.step

/-- A placed program runs consistently over any sound memory. -/
theorem consistent_runProgram {program : Node} (regular : Regular (.node program))
    (placed : program.placed true) (sound : m.Sound) (limit : Nat) (env : Env) :
    (runProgram limit (.node program) env).Consistent m (fun _ _ => True) := by
  have block : Regular (.node (.block (.node program))) := regular.block
  have evaluated : (evaluate limit (.node (Node.makeBlock (.node program))) env).Ends m
      (fun _ m' => m'.Sound) (fun e _ => e.kind ≠ .inconsistent) := by
    simp only [evaluate, ends_bind, ends_ofExcept]
    rcases block.okOrDuplicate_analyze with ⟨c, analyzed⟩ | ⟨x, analyzed⟩
    · have suits : c.Suits false _ := block.suits placed analyzed
      have none : c.writes = [] := suits.inert rfl
      have ends := (keeps_run limit).consistent c env m suits.tidy (none ▸ names_nil) sound
        (none ▸ m.ready_nil env)
      have kept := ends.mono fun _ _ h => h.1
      simpa [Node.makeBlock, Value.asNode, analyzed] using kept
    · simp [Node.makeBlock, Value.asNode, analyzed, Fault.kind]
  refine (evaluated.guardDepth limit (by simp [Fault.kind])).bind fun v m' sound' => ?_
  split
  · simp [Fault.kind]
  · exact ⟨sound', trivial⟩

/-- The bound values of a table have what its entries have, and only identities are used up. -/
theorem ends_bindTable {P : Value → Prop} (routine : ∀ v : Value, v.isMade = false → P v)
    {t : Table} (h : ∀ e ∈ t, e.2.Every P) (m : Memory Code) :
    (Table.bind t : Eval Code (List Value)).Ends m
      (fun vs m' => m' = { m with serial := m.serial + t.length } ∧ ∀ v ∈ vs, v.Every P)
      (fun _ _ => False) := by
  induction t generalizing m with
  | nil => exact ⟨rfl, by simp⟩
  | cons e t ih =>
      obtain ⟨name, v⟩ := e
      have called : (Value.text name).Every P := routine (.text name) rfl
      have bound : (v.bindTo m.serial (.text name)).Every P :=
        Value.every_bindTo routine (h _ List.mem_cons_self) called m.serial
      simp only [Table.bind, bindNew, ends_bind, ends_fresh, ends_pure]
      refine (ih (fun e he => h e (List.mem_cons_of_mem _ he)) m.fresh.2).mono ?_
      rintro vs m' ⟨rfl, rest⟩
      refine ⟨by simp [Memory.fresh, Nat.add_assoc, Nat.add_comm 1], ?_⟩
      exact List.forall_mem_cons.mpr ⟨bound, rest⟩

/-- The global environment of a table without functions or markers is sound. -/
theorem consistent_environment {t : Table} (sound : m.Sound) (h : ∀ e ∈ t, Known e.2 m) :
    (Table.environment t).Consistent m (fun _ _ => True) := by
  simp only [Consistent, Table.environment, ends_bind]
  refine (ends_bindTable m.knows_of_not_made h m).imp ?_ (fun _ _ => False.elim)
  rintro vs m' ⟨rfl, known⟩
  rw [ends_ofMishap]
  split
  · rename_i frame made
    refine ⟨Memory.Holds.push ?_ (Frame.holds_ofValues made known) [], trivial⟩
    exact sound
  · simp [Fault.kind]

end Parts

end Eval

theorem Memory.sound_empty : ({} : Memory Code).Sound := by
  intro i s hs
  simp [frame, Frame.empty] at hs

theorem standard_known (m : Memory Code) : ∀ e ∈ Table.standard, Eval.Known e.2 m := by
  simp [Table.standard, Eval.Known, Value.Every, Memory.Knows]

theorem Setting.kind_of_depthLimit {setting : Option String} {e : Fault}
    (h : depthLimit setting = .error e) : e.kind ≠ .inconsistent := by
  unfold depthLimit positive at h
  repeat' split at h
  all_goals cases h
  all_goals simp [Fault.kind]

/-- An interpreter over a table without functions starts from a sound memory. -/
theorem Eval.consistent_create {t : Table} {m : Memory Code} (sound : m.Sound)
    (known : ∀ e ∈ t, Known e.2 m) (maxDepth : Option Int) (setting : Option String) :
    (Interpreter.create t maxDepth setting).Consistent m (fun _ _ => True) := by
  refine Ends.bind (consistent_environment sound known) ?_
  rintro env m ⟨sound, -⟩
  split
  · exact ⟨sound, trivial⟩
  · simp only [ends_bind, ends_ofExcept]
    split
    · exact ⟨sound, trivial⟩
    · rename_i refused
      exact Setting.kind_of_depthLimit refused

/-- A new interpreter over such a table runs a placed program consistently. -/
theorem Eval.consistent_runTagged {t : Table} {tree : Value} {program : Node} {m : Memory Code}
    (sound : m.Sound) (known : ∀ e ∈ t, Known e.2 m) (read : tree.read = .ok program)
    (placed : program.placed true) (maxDepth : Option Int) (setting : Option String) :
    (Interpreter.create t maxDepth setting >>= fun i => i.runTagged tree).Consistent m
      (fun _ _ => True) := by
  refine Ends.bind (consistent_create sound known maxDepth setting) fun i n h => ?_
  simp only [Interpreter.runTagged, read, ofExcept_ok, pure_bind, Interpreter.runProgram, ends_bind,
    ends_ofMishap]
  split
  · exact consistent_runProgram (Value.regular_of_read read) placed h.1 _ _
  · simp [Fault.kind]

/-- No run of a program whose declarations are direct statements of scopes is inconsistent, whatever
the program defines and calls: a declaration that runs finds its slot, and finds it unassigned. -/
theorem placed_program_is_consistent {tree : Value} {program : Node}
    (read : tree.read = .ok program) (placed : program.placed true) {maxDepth : Option Int}
    {setting : Option String} {fault : Fault}
    (failed : (Interpreter.create Table.standard maxDepth setting >>= fun i =>
      i.runTagged tree).fault? {} = some fault) :
    fault.kind ≠ .inconsistent := by
  have sound := Memory.sound_empty
  have known := standard_known {}
  -- From here on only what is known of the table counts; the terms below would unfold it.
  generalize Table.standard = t, ({} : Memory Code) = m at sound known failed
  obtain ⟨m', ended⟩ := Eval.fault?_eq_some.mp failed
  have ran := Eval.consistent_runTagged sound known read placed maxDepth setting
  exact Eval.Ends.of_error ran ended

namespace Sample

/-- A function that declares a name of its own is declared and called with two arguments in turn. -/
def placedTree : Value :=
  .list [.text "sequence", .list [
    .list [.text "constant_declaration", .text "f",
      .list [.text "function_definition", .list [.text "x"],
        .list [.text "sequence", .list [
          .list [.text "constant_declaration", .text "y", .list [.text "name", .text "x"]],
          .list [.text "return_statement", .list [.text "name", .text "y"]]]]]],
    .list [.text "application", .list [.text "name", .text "f"], .list [.int 1]],
    .list [.text "application", .list [.text "name", .text "f"], .list [.text "a"]],
    .list [.text "application", .list [.text "name", .text "z"], .list []]]]

end Sample

theorem placed_program_is_consistent_on_calls :
    ∃ program fault, Sample.placedTree.read = .ok program ∧ program.placed true ∧
      (Interpreter.create Table.standard none none >>= fun i =>
        i.runTagged Sample.placedTree).fault? {} = some fault ∧ fault.kind ≠ .inconsistent := by
  have checked : Sample.placedTree.read.toOption.any (·.placed true) = true := by decide +kernel
  have fails : ((Interpreter.create Table.standard none none >>= fun i =>
      i.runTagged Sample.placedTree).fault? {}).map Fault.kind = some .unbound := by decide +kernel
  obtain ⟨fault, failed, -⟩ := Option.map_eq_some_iff.mp fails
  cases read : Sample.placedTree.read with
  | error e => simp [read, Except.toOption] at checked
  | ok program =>
      have placed : program.placed true := by simpa [read, Except.toOption] using checked
      exact ⟨program, fault, rfl, placed, failed, placed_program_is_consistent read placed failed⟩

end ConstLang
