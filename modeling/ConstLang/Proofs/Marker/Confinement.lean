import ConstLang.Proofs.Consistency
import ConstLang.Proofs.Marker.Order
import ConstLang.Proofs.Raised
import ConstLang.Proofs.Tree.Parts

/-!
Confinement of markers. Statements stand in the body of a function and in a program, and there in
sequences, blocks and the branches of conditionals; operators, operands, predicates and the
values of declarations and returns are no statements. If every return of a program is a
statement, markers never leave the statements: no slot gets one, and no call is given one.
A marker that leaves the program comes from a return that is inside of no function.
-/

namespace ConstLang

mutual

/-- Whether every return in a tree, or in a list of trees, is a statement; the flag tells whether
the tree stands itself where statements do. -/
def Value.returnsStated (statement : Bool) : Value → Bool
  | .node n => n.returnsStated statement
  | .list vs | .tuple vs => returnsStatedAll statement vs
  | _ => true

def Node.returnsStated (statement : Bool) : Node → Bool
  | .literal _ | .name _ => true
  | .declaration _ v => v.returnsStated false
  | .conditional p c a =>
      p.returnsStated false && c.returnsStated statement && a.returnsStated statement
  | .function _ b => b.returnsStated true
  | .sequence ss => ss.returnsStated statement
  | .block b => b.returnsStated statement
  | .returning e => statement && e.returnsStated false
  | .application f xs => f.returnsStated false && xs.returnsStated false

def returnsStatedAll (statement : Bool) : List Value → Bool
  | [] => true
  | v :: vs => v.returnsStated statement && returnsStatedAll statement vs

end

mutual

/-- Whether every return in a tree, or in a list of trees, is inside of a function. -/
def Value.returnsEnclosed : Value → Bool
  | .node n => n.returnsEnclosed
  | .list vs | .tuple vs => returnsEnclosedAll vs
  | _ => true

def Node.returnsEnclosed : Node → Bool
  | .literal _ | .name _ | .function _ _ => true
  | .declaration _ v => v.returnsEnclosed
  | .conditional p c a => p.returnsEnclosed && c.returnsEnclosed && a.returnsEnclosed
  | .sequence ss => ss.returnsEnclosed
  | .block b => b.returnsEnclosed
  | .returning _ => false
  | .application f xs => f.returnsEnclosed && xs.returnsEnclosed

def returnsEnclosedAll : List Value → Bool
  | [] => true
  | v :: vs => v.returnsEnclosed && returnsEnclosedAll vs

end

theorem returnsStatedAll_iff {statement : Bool} {vs : List Value} :
    returnsStatedAll statement vs ↔ ∀ v ∈ vs, v.returnsStated statement := by
  induction vs with
  | nil => simp [returnsStatedAll]
  | cons v vs ih => simp [returnsStatedAll, ih]

theorem returnsEnclosedAll_iff {vs : List Value} :
    returnsEnclosedAll vs ↔ ∀ v ∈ vs, v.returnsEnclosed := by
  induction vs with
  | nil => simp [returnsEnclosedAll]
  | cons v vs ih => simp [returnsEnclosedAll, ih]

theorem Code.stated_ofStatements {statement : Bool} {cs : List Code} (h : StatedAll statement cs) :
    (ofStatements cs).Stated statement := by
  match cs with
  | [] => trivial
  | [c] => exact h.1
  | _ :: _ :: _ => exact h

theorem statedAll_analyzed {statement : Bool} {vs : List Value} {cs : List Code}
    (each : List.Forall₂ (fun v c => v.analyze = .ok c) vs cs)
    (h : ∀ v ∈ vs, ∀ c, v.analyze = .ok c → c.Stated statement) : StatedAll statement cs := by
  refine statedAll_iff.mpr ?_
  intro c hc
  obtain ⟨v, hv, analyzed⟩ := exists_of_mem_analyzed each hc
  exact h v hv c analyzed

namespace Regular

variable {v : Value}

/-- Code returns where its tree does. -/
theorem stated (h : Regular v) {statement : Bool} {c : Code}
    (stated : v.returnsStated statement) (analyzed : v.analyze = .ok c) : c.Stated statement := by
  induction h generalizing statement c with
  | literal _ | name _ =>
      cases analyzed
      trivial
  | declaration x _ ih =>
      obtain ⟨c', hv, rfl⟩ := Node.analyze_declaration_eq_ok.mp analyzed
      have value : c'.Stated false := ih stated hv
      exact value
  | conditional _ _ _ ihp ihc iha =>
      obtain ⟨p', c', a', hp, hc, ha, rfl⟩ := Node.analyze_conditional_eq_ok.mp analyzed
      simp only [Value.returnsStated, Node.returnsStated, Bool.and_eq_true] at stated
      exact ⟨ihp stated.1.1 hp, ihc stated.1.2 hc, iha stated.2 ha⟩
  | function xs _ ih =>
      obtain ⟨_, _, _, body, -, -, -, hb, rfl⟩ := Node.analyze_function_eq_ok.mp analyzed
      have inner : body.Stated true := ih stated hb
      exact inner
  | @sequence ss _ ih =>
      obtain ⟨vs, cs, items, each, rfl⟩ := Node.analyze_sequence_eq_ok.mp analyzed
      cases items
      have all : ∀ s ∈ ss, s.returnsStated statement := returnsStatedAll_iff.mp stated
      refine Code.stated_ofStatements (statedAll_analyzed each ?_)
      intro s hs c hc
      exact ih s hs (all s hs) hc
  | block _ ih =>
      obtain ⟨_, body, -, hb, rfl⟩ := Node.analyze_block_eq_ok.mp analyzed
      have inner : body.Stated statement := ih stated hb
      exact inner
  | returning _ ih =>
      obtain ⟨c', he, rfl⟩ := Node.analyze_returning_eq_ok.mp analyzed
      simp only [Value.returnsStated, Node.returnsStated, Bool.and_eq_true] at stated
      exact ⟨stated.1, ih stated.2 he⟩
  | @application f xs _ _ ihf ihx =>
      obtain ⟨f', vs, cs, hf, items, each, rfl⟩ := Node.analyze_application_eq_ok.mp analyzed
      cases items
      simp only [Value.returnsStated, Node.returnsStated, Bool.and_eq_true] at stated
      have all : ∀ x ∈ xs, x.returnsStated false := returnsStatedAll_iff.mp stated.2
      refine ⟨ihf stated.1 hf, statedAll_analyzed each ?_⟩
      intro x hx c hc
      exact ihx x hx (all x hx) hc

/-- A program in which every return is inside of a function may stand where no statement does. -/
theorem stated_of_enclosed (h : Regular v) {statement : Bool} (stated : v.returnsStated statement)
    (enclosed : v.returnsEnclosed) : v.returnsStated false := by
  induction h generalizing statement with
  | literal _ | name _ => rfl
  | declaration _ _ _ | function _ _ _ | application _ _ _ _ => exact stated
  | conditional _ _ _ _ ihc iha =>
      simp only [Value.returnsStated, Node.returnsStated, Bool.and_eq_true] at stated ⊢
      simp only [Value.returnsEnclosed, Node.returnsEnclosed, Bool.and_eq_true] at enclosed
      exact ⟨⟨stated.1.1, ihc stated.1.2 enclosed.1.2⟩, iha stated.2 enclosed.2⟩
  | @sequence ss _ ih =>
      have all : ∀ s ∈ ss, s.returnsStated statement := returnsStatedAll_iff.mp stated
      have inside : ∀ s ∈ ss, s.returnsEnclosed := returnsEnclosedAll_iff.mp enclosed
      refine returnsStatedAll_iff.mpr ?_
      intro s hs
      exact ih s hs (all s hs) (inside s hs)
  | block _ ih => exact ih stated enclosed
  | returning _ _ => cases enclosed

/-- There is no marker in a tree that was read. -/
theorem every_orderly {anywhere : Prop} (h : Regular v) : v.Every (Value.Orderly anywhere) := by
  have plain {w : Value} (h : w.isMarker = false) : w.Orderly anywhere :=
    Value.orderly_of_not_marker h
  induction h with
  | @literal v scalar =>
      refine ⟨plain rfl, ?_⟩
      cases v <;> first | exact plain rfl | cases scalar
  | name x => exact ⟨plain rfl, trivial⟩
  | declaration x _ ih => exact ⟨plain rfl, plain rfl, ih⟩
  | conditional _ _ _ ihp ihc iha => exact ⟨plain rfl, ihp, ihc, iha⟩
  | function xs _ ih =>
      refine ⟨plain rfl, ⟨plain rfl, everyItem_iff.mpr ?_⟩, ih⟩
      intro x hx
      obtain ⟨s, -, rfl⟩ := List.mem_map.mp hx
      exact plain rfl
  | sequence _ ih => exact ⟨plain rfl, plain rfl, everyItem_iff.mpr ih⟩
  | block _ ih | returning _ ih => exact ⟨plain rfl, ih⟩
  | application _ _ ihf ihx => exact ⟨plain rfl, ihf, plain rfl, everyItem_iff.mpr ihx⟩

theorem orderly (h : Regular v) {statement : Bool} {c : Code}
    (stated : v.returnsStated statement) (analyzed : v.analyze = .ok c) :
    c.Orderly False statement where
  values := Value.every_analyze (fun _ => Value.orderly_of_not_marker rfl)
    (Value.orderly_of_not_marker rfl) h.every_orderly analyzed
  returns := .inr (h.stated stated analyzed)

end Regular

namespace Eval

variable {anywhere : Prop} {m : Memory Code}

/-- A global environment is in order, if the entries of its table are. -/
theorem inOrder_environment {t : Table} (orderly : m.Orderly anywhere)
    (h : ∀ e ∈ t, e.2.Every (Value.Orderly anywhere)) :
    (Table.environment t).InOrder anywhere m (fun _ => True) := by
  rw [InOrder, Table.environment, ends_bind]
  refine (ends_bindTable Value.orderly_of_not_made h m).imp ?_ (fun _ _ => False.elim)
  intro vs n made
  have same : n.Orderly anywhere := by
    rw [made.1]
    exact ⟨orderly.slots, orderly.bodies⟩
  rw [ends_bind, ends_ofMishap]
  cases framed : Frame.ofValues (t.map fun e => .text e.1) vs with
  | error e => exact ⟨same, trivial⟩
  | ok frame => exact ⟨same.push (Frame.holds_ofValues framed made.2) [], trivial⟩

theorem inOrder_create {t : Table} (orderly : m.Orderly anywhere)
    (h : ∀ e ∈ t, e.2.Every (Value.Orderly anywhere)) (maxDepth : Option Int)
    (setting : Option String) :
    (Interpreter.create t maxDepth setting).Ends m (fun _ n => n.Orderly anywhere)
      (fun _ _ => True) := by
  refine Ends.bind ((inOrder_environment orderly h).imp (fun _ _ => id) fun _ _ _ => trivial) ?_
  intro env n made
  cases maxDepth with
  | some limit => exact made.1
  | none =>
      rw [ends_bind, ends_ofExcept]
      cases Setting.depthLimit setting with
      | ok limit => exact made.1
      | error e => trivial

end Eval

theorem Memory.orderly_empty (anywhere : Prop) : ({} : Memory Code).Orderly anywhere := by
  refine ⟨?_, by simp⟩
  intro i s hs
  simp [frame, Frame.empty] at hs

theorem standard_orderly (anywhere : Prop) :
    ∀ e ∈ Table.standard, e.2.Every (Value.Orderly anywhere) := by
  simp [Table.standard, Value.Every, Value.Orderly, Value.isMarker, Value.Unnested]

/-- No slot holds a marker, before and after, and no call is given one. -/
structure Moment.Confined (a : Moment) : Prop where
  memory : a.memory.Holds (fun v => v.isMarker = false)
  left : a.left.Holds (fun v => v.isMarker = false)
  args : ∀ f args, a.task = .call f args → ∀ x ∈ args, x.isMarker = false

theorem Value.bare_of_orderly (v : Value) (h : v.Orderly False) : v.isMarker = false := by
  by_contra marked
  exact h.1 (by simpa using marked)

theorem Moment.Orderly.confined {a : Moment} (h : a.Orderly False) : a.Confined where
  memory := h.memory.slots.imp Value.bare_of_orderly
  left := h.left.slots.imp Value.bare_of_orderly
  args := by
    intro f args called x hx
    have orderly := h.task
    rw [called] at orderly
    exact x.bare_of_orderly (orderly.2 x hx).self

namespace Eval

variable {m : Memory Code} {program : Node}

/-- A marker leaves no program, if its returns are statements and it is none itself. -/
theorem ends_runProgram_of_stated {statement : Bool} (orderly : m.Orderly False)
    (regular : Regular (.node program)) (stated : program.returnsStated statement) (limit : Nat)
    (env : Env) :
    (runProgram limit (.node program) env).Ends m (fun _ n => n.Orderly False)
      (fun e n => n.Orderly False ∧ (statement = false → e ≠ .strayReturn)) := by
  have evaluated : (evaluate limit (.node (Node.makeBlock (.node program))) env).Ends m
      (fun v n => n.Orderly False ∧ Yielded False statement v)
      (fun e n => n.Orderly False ∧ (statement = false → e ≠ .strayReturn)) := by
    rw [evaluate, ends_bind, ends_ofExcept]
    have block : Regular (.node (Node.makeBlock (.node program))) := regular.block
    cases block.okOrDuplicate_analyze with
    | inl made =>
        obtain ⟨code, analyzed⟩ := made
        rw [analyzed]
        have stands := block.orderly stated analyzed
        have ran := keepsOrder_run limit statement code env m stands orderly
        refine (ran.and (raises_run limit code env m)).imp (fun v n h => h.1) ?_
        intro e n failed
        refine ⟨failed.1.1, ?_⟩
        intro _ stray
        rw [stray] at failed
        cases failed.2
    | inr clash =>
        obtain ⟨x, refused⟩ := clash
        rw [refused]
        exact ⟨orderly, by simp⟩
  refine Ends.bind (evaluated.guardDepth limit fun n h => ⟨h.1, by simp⟩) ?_
  intro v n h
  by_cases marked : v.isMarker = true
  · rw [if_pos marked]
    refine ⟨h.1, ?_⟩
    intro none
    have yielded := h.2
    rw [none] at yielded
    have bare := v.bare_of_orderly yielded.every.self
    rw [bare] at marked
    cases marked
  · rw [if_neg marked]
    exact h.1

theorem ends_runTagged_of_stated {tree : Value} {statement : Bool} (orderly : m.Orderly False)
    (read : tree.read = .ok program) (stated : program.returnsStated statement)
    (i : Interpreter) :
    (i.runTagged tree).Ends m (fun _ n => n.Orderly False)
      (fun e n => n.Orderly False ∧ (statement = false → e ≠ .strayReturn)) := by
  rw [Interpreter.runTagged, read, ofExcept_ok, pure_bind, Interpreter.runProgram, ends_bind,
    ends_ofMishap]
  cases limitInForce i.maxDepth with
  | error e => exact ⟨orderly, by simp⟩
  | ok limit =>
      have regular := Value.regular_of_read read
      exact ends_runProgram_of_stated orderly regular stated limit i.globalEnv

end Eval

/-- A new interpreter over a table without markers starts with a memory in order. -/
theorem Memory.orderly_of_create {t : Table} {m n : Memory Code} {i : Interpreter}
    {maxDepth : Option Int} {setting : Option String} (orderly : m.Orderly False)
    (h : ∀ e ∈ t, e.2.Every (Value.Orderly False))
    (created : Interpreter.create t maxDepth setting m = .ok i n) : n.Orderly False :=
  (Eval.inOrder_create orderly h maxDepth setting).of_ok created

/-- Markers stay confined to statements. If every return of a program is a statement, then at no
moment of its run does a slot hold a marker or a call get one, and if every return is inside of
a function, none of them leaves the program. -/
theorem markers_stay_confined {tree : Value} {program : Node} (read : tree.read = .ok program)
    (stated : program.returnsStated true) {maxDepth : Option Int} {setting : Option String}
    {i : Interpreter} {m : Memory Code}
    (created : Interpreter.create Table.standard maxDepth setting {} = .ok i m) :
    m.Holds (fun v => v.isMarker = false) ∧
    ((i.runTagged tree).after m).Holds (fun v => v.isMarker = false) ∧
    (∀ a, i.Visits (.node (Node.makeBlock (.node program))) [] m a → a.Confined) ∧
    (program.returnsEnclosed → (i.runTagged tree).fault? m ≠ some .strayReturn) := by
  have orderly := Memory.orderly_of_create (Memory.orderly_empty False) (standard_orderly False)
    created
  have regular := Value.regular_of_read read
  refine ⟨orderly.slots.imp Value.bare_of_orderly, ?_, ?_, ?_⟩
  · have ended := Eval.ends_runTagged_of_stated orderly read stated i
    have left := Eval.ends_after (ended.imp (fun _ _ h => h) fun _ _ h => h.1)
    exact left.slots.imp Value.bare_of_orderly
  · intro a visited
    obtain ⟨limit, code, -, analyzed, reached⟩ := visited
    have block : Regular (.node (Node.makeBlock (.node program))) := regular.block
    exact (reached.orderly ⟨orderly, true, block.orderly stated analyzed⟩).confined
  · intro enclosed failed
    obtain ⟨n, ended⟩ := Eval.fault?_eq_some.mp failed
    have unstated : program.returnsStated false := regular.stated_of_enclosed stated enclosed
    exact ((Eval.ends_runTagged_of_stated orderly read unstated i).of_error ended).2 rfl rfl

namespace Sample

/-- A function returns from the branches of a conditional, from one of them what it returns when it
is called again. -/
def returningTree : Value :=
  .list [.text "sequence", .list [
    .list [.text "constant_declaration", .text "f",
      .list [.text "function_definition", .list [.text "x"],
        .list [.text "conditional_expression",
          .list [.text "name", .text "x"],
          .list [.text "return_statement",
            .list [.text "application", .list [.text "name", .text "f"], .list [.bool false]]],
          .list [.text "block", .list [.text "return_statement", .int 1]]]]],
    .list [.text "application", .list [.text "name", .text "f"], .list [.bool true]]]]

end Sample

theorem markers_stay_confined_in_calls :
    ∃ program i m, Sample.returningTree.read = .ok program ∧ program.returnsStated true ∧
      Interpreter.create Table.standard none none {} = .ok i m ∧ program.returnsEnclosed ∧
      (∀ a, i.Visits (.node (Node.makeBlock (.node program))) [] m a → a.Confined) ∧
      (i.runTagged Sample.returningTree).fault? m ≠ some .strayReturn := by
  have checked : Sample.returningTree.read.toOption.any
      (fun n => n.returnsStated true && n.returnsEnclosed) = true := by decide +kernel
  have succeeds : ((Interpreter.create Table.standard none none).fault? {}).isNone = true := by
    decide +kernel
  cases read : Sample.returningTree.read with
  | error e => simp [read, Except.toOption] at checked
  | ok program =>
      simp only [read, Except.toOption, Option.any_some, Bool.and_eq_true] at checked
      cases created : Interpreter.create Table.standard none none {} with
      | error e m => simp [Eval.fault?, created] at succeeds
      | ok i m =>
          obtain ⟨-, -, visited, unfailed⟩ := markers_stay_confined read checked.1 created
          exact ⟨program, i, m, rfl, checked.1, rfl, checked.2, visited, unfailed checked.2⟩

end ConstLang
