import ConstLang.Proofs.Initialization.Scope

/-!
Initialization of the scopes of a program. If every declaration of a program that was read is a
direct statement of a scope, then its code is in place, with the blocks and functions of the
program for scopes. So the frames of its run get their values in the order of the program, and
have all of them when the body of the scope has come to its end.
-/

namespace ConstLang

/-- The scopes of a tree: its blocks, and its functions with their parameters, each with the names
that the body declares, in their order, and with the code of the body. -/
inductive Opens (whole : Value) : Scopes
  | block {scopes b body} (stands : Stands whole scopes (.node (.block b)))
      (declared : b.localNames = .ok b.declared) (analyzed : b.analyze = .ok body) :
      Opens whole none b.declared body
  | function {scopes ps b body} (stands : Stands whole scopes (.node (.function ps b)))
      (parameters : ps.paramNames = .ok ps.items) (declared : b.localNames = .ok b.declared)
      (analyzed : b.analyze = .ok body) : Opens whole (some ps.items) b.declared body

theorem Code.inPlace_ofStatements {opens : Scopes} {cs : List Code} (h : InPlaceAll opens cs) :
    (ofStatements cs).InPlace opens := by
  match cs with
  | [] => exact .inr rfl
  | [c] => exact h.1
  | _ :: _ :: _ => exact h

theorem inPlaceAll_analyzed {opens : Scopes} {vs : List Value} {cs : List Code}
    (each : List.Forall₂ (fun v c => v.analyze = .ok c) vs cs)
    (h : ∀ v ∈ vs, ∀ c, v.analyze = .ok c → c.InPlace opens) : InPlaceAll opens cs := by
  refine inPlaceAll_iff.mpr ?_
  intro c hc
  obtain ⟨v, hv, analyzed⟩ := exists_of_mem_analyzed each hc
  exact h v hv c analyzed

/-- The code of a tree is in place where the tree is, with the scopes of the whole. -/
theorem Regular.inPlace {whole v : Value} (h : Regular v) {scopes : List (List Value)}
    {direct : Bool} {c : Code} (stands : Stands whole scopes v) (placed : v.placed direct)
    (analyzed : v.analyze = .ok c) : c.InPlace (Opens whole) := by
  induction h generalizing scopes direct c with
  | literal scalar =>
      cases analyzed
      exact .inl scalar
  | name _ =>
      cases analyzed
      trivial
  | @declaration x v hv ih =>
      obtain ⟨c', hc, rfl⟩ := Node.analyze_declaration_eq_ok.mp analyzed
      simp only [Value.placed, Node.placed, Bool.and_eq_true] at placed
      have value : Stands whole _ v := stands.part List.mem_cons_self
      exact ⟨⟨x, rfl⟩, (hv.suits placed.2 hc).inert rfl, ih value placed.2 hc⟩
  | @conditional p c a hp hc ha ihp ihc iha =>
      obtain ⟨p', c', a', hp', hc', ha', rfl⟩ := Node.analyze_conditional_eq_ok.mp analyzed
      simp only [Value.placed, Node.placed, Bool.and_eq_true] at placed
      obtain ⟨⟨placedP, placedC⟩, placedA⟩ := placed
      have part {w : Value} (hw : w ∈ [p, c, a]) : Stands whole _ w := stands.part hw
      refine ⟨⟨(hp.suits placedP hp').inert rfl, (hc.suits placedC hc').inert rfl,
        (ha.suits placedA ha').inert rfl⟩, ?_⟩
      exact ⟨ihp (part (by simp)) placedP hp', ihc (part (by simp)) placedC hc',
        iha (part (by simp)) placedA ha'⟩
  | @function xs b hb ih =>
      obtain ⟨params, locals, both, body, parameters, declared, distinct, hb', rfl⟩ :=
        Node.analyze_function_eq_ok.mp analyzed
      obtain rfl := Value.paramNames_eq_items parameters
      obtain rfl := Value.localNames_eq_declared declared
      have inner : Stands whole _ b := stands.part List.mem_cons_self
      have suits : body.Suits true b := hb.suits placed hb'
      exact ⟨.function stands parameters declared hb', suits.writes _ declared,
        names_of_function hb parameters declared distinct, ih inner placed hb'⟩
  | @sequence ss _ ih =>
      obtain ⟨vs, cs, items, each, rfl⟩ := Node.analyze_sequence_eq_ok.mp analyzed
      cases items
      have all : ∀ s ∈ ss, s.placed direct := placedAll_iff.mp placed
      refine Code.inPlace_ofStatements (inPlaceAll_analyzed each ?_)
      intro s hs c hc
      exact ih s hs (stands.part hs) (all s hs) hc
  | @block b hb ih =>
      obtain ⟨locals, body, declared, hb', rfl⟩ := Node.analyze_block_eq_ok.mp analyzed
      obtain rfl := Value.localNames_eq_declared declared
      have inner : Stands whole _ b := stands.part List.mem_cons_self
      have suits : body.Suits true b := hb.suits placed hb'
      exact ⟨.block stands declared hb', suits.writes _ declared,
        hb.names_localNames declared, ih inner placed hb'⟩
  | @returning e he ih =>
      obtain ⟨c', hc, rfl⟩ := Node.analyze_returning_eq_ok.mp analyzed
      have value : Stands whole _ e := stands.part List.mem_cons_self
      exact ⟨(he.suits placed hc).inert rfl, ih value placed hc⟩
  | @application f xs hf hx ihf ihx =>
      obtain ⟨f', vs, cs, hf', items, each, rfl⟩ := Node.analyze_application_eq_ok.mp analyzed
      cases items
      simp only [Value.placed, Node.placed, Bool.and_eq_true] at placed
      have all : ∀ x ∈ xs, x.placed false := placedAll_iff.mp placed.2
      have operands := suits_all each fun x hx' c => (hx x hx').suits (all x hx')
      refine ⟨⟨(hf.suits placed.1 hf').inert rfl, operands.2.1 rfl⟩, ?_, ?_⟩
      · exact ihf (stands.part List.mem_cons_self) placed.1 hf'
      · refine inPlaceAll_analyzed each ?_
        intro x hx c hc
        exact ihx x hx (stands.part (List.mem_cons_of_mem f hx)) (all x hx) hc

namespace Eval

variable {opens : Scopes} {m : Memory Code}

/-- A global environment has values for all of its names. -/
theorem arranges_environment {t : Table} (arranged : m.Arranged opens)
    (h : ∀ e ∈ t, InPlace opens e.2 m) :
    (Table.environment t).Arranges opens m fun env n => n.Awaits env [] := by
  rw [Arranges, Table.environment, ends_bind]
  refine (ends_bindTable m.places_of_not_made h m).imp ?_ (fun _ _ => False.elim)
  intro vs n ended
  obtain ⟨same, values⟩ := ended
  have kept : n.Arranged opens := by
    rw [same]
    exact ⟨arranged.values, arranged.frames⟩
  have held : ∀ v ∈ vs, InPlace opens v n := by
    rw [same]
    exact values
  rw [ends_bind, ends_ofMishap]
  cases framed : Frame.ofValues (t.map fun e => .text e.1) vs with
  | error e => exact kept
  | ok frame =>
      have assigned : frame.Awaits [] := by
        refine Frame.awaits_nil.mpr ?_
        intro s hs
        obtain ⟨slot, hslot, content⟩ := Frame.mem_slots_ofSlots framed hs
        obtain ⟨v, hv, stored⟩ := List.mem_map.mp (List.of_mem_zip hslot).2
        rw [content, ← stored]
        exact slot_isSome (held v hv)
      have global : (n.push frame []).2.Awaits (n.push frame []).1 [] := by
        refine ⟨n.frames.size, rfl, by simp [Memory.push], ?_⟩
        rwa [Memory.frame_push, if_pos rfl]
      exact ⟨kept.push (Frame.holds_ofValues framed held) assigned [], global⟩

theorem arranges_create {t : Table} (arranged : m.Arranged opens)
    (h : ∀ e ∈ t, InPlace opens e.2 m) (maxDepth : Option Int) (setting : Option String) :
    (Interpreter.create t maxDepth setting).Arranges opens m
      fun i n => n.Awaits i.globalEnv [] := by
  refine (arranges_environment arranged h).bind ?_
  intro env n arranged global
  cases maxDepth with
  | some limit => exact ⟨arranged, global⟩
  | none =>
      rw [Arranges, ends_bind, ends_ofExcept]
      cases Setting.depthLimit setting with
      | ok limit => exact ⟨arranged, global⟩
      | error e => exact arranged

end Eval

/-- A new interpreter over a table without functions starts with arranged memory. -/
theorem Memory.arranged_of_create {opens : Scopes} {t : Table} {m n : Memory Code} {i : Interpreter}
    {maxDepth : Option Int} {setting : Option String} (arranged : m.Arranged opens)
    (h : ∀ e ∈ t, Eval.InPlace opens e.2 m)
    (created : Interpreter.create t maxDepth setting m = .ok i n) :
    n.Arranged opens ∧ n.Awaits i.globalEnv [] :=
  (Eval.arranges_create arranged h maxDepth setting).of_ok created

theorem Memory.arranged_empty (opens : Scopes) : ({} : Memory Code).Arranged opens := by
  refine ⟨?_, ?_⟩
  · intro k s hs
    simp [frame, Frame.empty] at hs
  · intro k
    refine ⟨[], Frame.awaits_nil.mpr ?_⟩
    simp [frame, Frame.empty]

theorem standard_inPlace (opens : Scopes) (m : Memory Code) :
    ∀ e ∈ Table.standard, Eval.InPlace opens e.2 m := by
  simp [Table.standard, Eval.InPlace, Value.Every, Memory.Places]

/-- The run of a program by a new interpreter is arranged from its beginning on. -/
theorem arranged_program {program : Node} (regular : Regular (.node program))
    (placed : program.placed true) {maxDepth : Option Int} {setting : Option String}
    {i : Interpreter} {m : Memory Code}
    (created : Interpreter.create Table.standard maxDepth setting {} = .ok i m) {code : Code}
    (analyzed : (Value.node (Node.makeBlock (.node program))).analyze = .ok code) (limit : Nat) :
    Moment.Arranged (Opens (.node (Node.makeBlock (.node program))))
      ⟨limit, .run code i.globalEnv, m⟩ := by
  have block : Regular (.node (Node.makeBlock (.node program))) := regular.block
  have inside : (Value.node (Node.makeBlock (.node program))).placed false := placed
  obtain ⟨arranged, global⟩ := Memory.arranged_of_create (Memory.arranged_empty _)
    (standard_inPlace _ {}) created
  refine ⟨arranged, block.inPlace .whole inside analyzed, [], ?_⟩
  rwa [(block.suits inside analyzed).inert rfl]

theorem guardDepth_eq_ok {limit : Nat} {act : Eval Code Value} {m n : Memory Code} {v : Value}
    (h : guardDepth limit act m = .ok v n) : act m = .ok v n := by
  unfold guardDepth at h
  split at h
  · cases h
  · exact h

/-- A program that ends has entered its own scope, and ends as the body does. -/
theorem Interpreter.enters_of_runTagged {i : Interpreter} {tree : Value} {program : Node}
    {m n : Memory Code} {v : Value} (read : tree.read = .ok program)
    (ran : i.runTagged tree m = .ok v n) :
    ∃ a b locals, i.Visits (.node (Node.makeBlock (.node program))) [] m a ∧
      a.Enters m.frames.size none locals b ∧ b.ending = .ok v n ∧ v.isMarker = false := by
  rw [runTagged, read, Eval.ofExcept_ok, pure_bind, Interpreter.runProgram] at ran
  cases inForce : limitInForce i.maxDepth with
  | error e =>
      rw [inForce] at ran
      cases ran
  | ok limit =>
      rw [inForce, Eval.ofMishap_ok, pure_bind] at ran
      obtain ⟨w, n', guarded, checked⟩ := Eval.bind_eq_ok.mp ran
      have evaluated := guardDepth_eq_ok guarded
      rw [ConstLang.evaluate] at evaluated
      cases analyzed : (Value.node (Node.makeBlock (.node program))).analyze with
      | error e =>
          rw [analyzed] at evaluated
          cases evaluated
      | ok code =>
          rw [analyzed, Eval.ofExcept_ok, pure_bind] at evaluated
          obtain ⟨locals, body, -, -, rfl⟩ := Node.analyze_block_eq_ok.mp analyzed
          cases limit with
          | zero => cases evaluated
          | succ d =>
              obtain ⟨inner, k, entered, ended⟩ := Eval.bind_eq_ok.mp evaluated
              by_cases marked : w.isMarker = true
              · rw [if_pos marked] at checked
                cases checked
              · rw [if_neg marked] at checked
                cases checked
                exact ⟨_, _, locals, ⟨_, _, inForce, analyzed, .refl⟩, .block entered, ended,
                  by simpa using marked⟩

/-- Memory as it is at the beginning or at the end of some moment of the evaluation of a tree. -/
def Interpreter.Meets (i : Interpreter) (node : Value) (m n : Memory Code) : Prop :=
  ∃ a, i.Visits node [] m a ∧ (n = a.memory ∨ n = a.left)

/-- A scope of the tree that a run has entered at a place, and in which `b` runs the body. -/
structure Interpreter.Initializes (i : Interpreter) (whole : Value) (m : Memory Code) (k : Nat)
    (params : Option (List Value)) (locals : List Value) (b : Moment) : Prop where
  scope : ∃ body inner, b.task = .run body inner ∧ Opens whole params locals body
  /-- The parameters have values, and then the names get theirs in their order. -/
  order : ∀ n, i.Meets whole m n → k < n.frames.size → (n.frame k).InStep (params.getD []) locals
  /-- A body that has come to its end without a return has given values to all names. -/
  complete : ∀ v n, b.ending = .ok v n → v.isMarker = false → ∀ s ∈ (n.frame k).slots, s.2.isSome
  /-- No name of the scope lacks a value after that, wherever it is read. -/
  kept : ∀ v n, b.ending = .ok v n → v.isMarker = false → ∀ later env x, n.Later later →
    env.find? (fun j => ((later.frame j).get? (.text x)).isSome) = some k →
    ∃ w, later.lookup (.text x) env = .ok w

/-- Scopes give values to their names in the order of the declarations, and to all of them. Every
frame that the run of a program makes is that of a block or a function that was entered. -/
theorem scopes_initialize_in_order {tree : Value} {program : Node} (read : tree.read = .ok program)
    (placed : program.placed true) {maxDepth : Option Int} {setting : Option String}
    {i : Interpreter} {m : Memory Code}
    (created : Interpreter.create Table.standard maxDepth setting {} = .ok i m) :
    (∀ n k, i.Meets (.node (Node.makeBlock (.node program))) m n →
      m.frames.size ≤ k → k < n.frames.size →
      ∃ a b params locals, i.Visits (.node (Node.makeBlock (.node program))) [] m a ∧
        a.Enters k params locals b) ∧
    ∀ a b k params locals, i.Visits (.node (Node.makeBlock (.node program))) [] m a →
      a.Enters k params locals b →
      i.Initializes (.node (Node.makeBlock (.node program))) m k params locals b := by
  have regular := Value.regular_of_read read
  refine ⟨?_, ?_⟩
  · intro n k met old inside
    obtain ⟨c, ⟨limit, code, inForce, analyzed, reached⟩, state⟩ := met
    obtain ⟨a, params, locals, b, entered, enters⟩ :=
      Moment.exists_enters reached state old inside
    exact ⟨a, b, params, locals, ⟨limit, code, inForce, analyzed, entered⟩, enters⟩
  · intro a b k params locals visited enters
    obtain ⟨limit, code, inForce, analyzed, reached⟩ := visited
    have begins := arranged_program regular placed created analyzed limit
    have arranged := reached.arranged begins
    refine ⟨?_, ?_, ?_, ?_⟩
    · obtain ⟨body, inner, task, opens, -, -⟩ := enters.opened arranged
      exact ⟨body, inner, task, opens⟩
    · intro n met inside
      obtain ⟨c, ⟨limit', code', inForce', analyzed', reached'⟩, state⟩ := met
      obtain rfl : limit = limit' := Except.ok.inj (inForce.symm.trans inForce')
      obtain rfl : code = code' := Except.ok.inj (analyzed.symm.trans analyzed')
      exact enters.inStep begins reached reached' state inside
    · intro v n ended unmarked
      exact Frame.awaits_nil.mp (enters.completed arranged ended unmarked).1
    · intro v n ended unmarked later env x grown nearest
      obtain ⟨complete, inside⟩ := enters.completed arranged ended unmarked
      have same := complete.fills_nil (Memory.Grows.frame_fills grown inside)
      exact Memory.lookup_of_awaits_nil (by rwa [same]) nearest

namespace Sample

/-- A block declares a name and yields a function that reads it, called when the block has ended. -/
def keepingTree : Value :=
  .list [.text "sequence", .list [
    .list [.text "constant_declaration", .text "get",
      .list [.text "block",
        .list [.text "sequence", .list [
          .list [.text "constant_declaration", .text "y", .int 1],
          .list [.text "function_definition", .list [],
            .list [.text "return_statement", .list [.text "name", .text "y"]]]]]]],
    .list [.text "application", .list [.text "name", .text "get"], .list []]]]

end Sample

theorem scopes_initialize_in_order_of_closures :
    ∃ program i m a b locals v n, Sample.keepingTree.read = .ok program ∧ program.placed true ∧
      Interpreter.create Table.standard none none {} = .ok i m ∧
      i.Visits (.node (Node.makeBlock (.node program))) [] m a ∧
      a.Enters m.frames.size none locals b ∧ b.ending = .ok v n ∧ v.isMarker = false ∧
      i.Initializes (.node (Node.makeBlock (.node program))) m m.frames.size none locals b := by
  have checked : Sample.keepingTree.read.toOption.any (fun n => n.placed true) = true := by
    decide +kernel
  have succeeds : ((Interpreter.create Table.standard none none >>= fun i =>
      i.runTagged Sample.keepingTree).fault? {}).isNone = true := by decide +kernel
  cases read : Sample.keepingTree.read with
  | error e => simp [read, Except.toOption] at checked
  | ok program =>
      have placed : program.placed true := by simpa [read, Except.toOption] using checked
      cases created : Interpreter.create Table.standard none none {} with
      | error e m => simp [Eval.fault?, Eval.bind_of_error created] at succeeds
      | ok i m =>
          cases ran : i.runTagged Sample.keepingTree m with
          | error e n => simp [Eval.fault?, Eval.bind_of_ok created, ran] at succeeds
          | ok v n =>
              obtain ⟨a, b, locals, visited, enters, ended, unmarked⟩ :=
                Interpreter.enters_of_runTagged read ran
              have initializes :=
                (scopes_initialize_in_order read placed created).2 a b _ none locals visited enters
              exact ⟨program, i, m, a, b, locals, v, n, rfl, placed, rfl, visited, enters, ended,
                unmarked, initializes⟩

end ConstLang
