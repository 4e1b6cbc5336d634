import Mathlib.Algebra.Group.Nat.Defs
import ConstLang.Proofs.Raised
import ConstLang.Proofs.Regular
import ConstLang.Proofs.Tree.LocalNames

/-!
What analysis refuses. A tree is in order if every tree in it, however deep, is a node and no
scope in it has a name twice; the names of a scope are its parameters and the names that its
body declares. Analysis makes code of the trees in order and of no others. The fault that it
refuses a tree with points at something in the tree: at a name that a scope has twice, or at
a part that is no node. Running code never brings up either.
-/

namespace ConstLang

/-- Whether the lists of a node are tuples. -/
def Node.tupled : Node → Bool
  | .function (.tuple _) _ | .sequence (.tuple _) | .application _ (.tuple _) => true
  | .function _ _ | .sequence _ | .application _ _ => false
  | _ => true

/-- Every list of parameters, statements or operands is a tuple. -/
abbrev Tupled : Value → Prop := EveryNode fun n => n.tupled

/-- A scope somewhere in the tree has the name twice. -/
def Repeats (whole x : Value) : Prop :=
  ∃ scopes n, Stands whole scopes (.node n) ∧ ∃ names ∈ n.scope, names.Duplicate x

/-- A part somewhere in the tree, or the tree itself, is no node. -/
def Strays (whole w : Value) : Prop :=
  w.isNode = false ∧ ∃ scopes, Stands whole scopes w

/-- All trees in the tree are nodes, and no scope has a name twice. -/
def InOrder (whole : Value) : Prop :=
  (∀ scopes w, Stands whole scopes w → w.isNode) ∧
    EveryNode (fun n => ∀ names ∈ n.scope, names.Nodup) whole

section Parts

variable {n : Node} {p x w : Value}

theorem Repeats.of_part (h : Repeats p x) (hp : p ∈ n.parts) : Repeats (.node n) x := by
  obtain ⟨_, m, stands, twice⟩ := h
  exact ⟨_, m, stands.of_part hp, twice⟩

theorem Strays.of_part (h : Strays p w) (hp : p ∈ n.parts) : Strays (.node n) w := by
  obtain ⟨stray, _, stands⟩ := h
  exact ⟨stray, _, stands.of_part hp⟩

end Parts

theorem inOrder_node {n : Node} (own : ∀ names ∈ n.scope, names.Nodup)
    (parts : ∀ p ∈ n.parts, InOrder p) : InOrder (.node n) := by
  constructor
  · intro scopes w stands
    rcases stands_node.mp stands with ⟨-, rfl⟩ | ⟨p, hp, _, stands, -⟩
    · rfl
    · exact (parts p hp).1 _ w stands
  · exact everyNode_node.mpr ⟨own, fun p hp => (parts p hp).2⟩

theorem InOrder.not_repeats {whole x : Value} (h : InOrder whole) : ¬ Repeats whole x := by
  rintro ⟨scopes, n, stands, names, mem, twice⟩
  exact twice.not_nodup (h.2 scopes n stands names mem)

theorem InOrder.not_strays {whole w : Value} (h : InOrder whole) : ¬ Strays whole w := by
  rintro ⟨stray, scopes, stands⟩
  have node := h.1 scopes w stands
  rw [stray] at node
  cases node

/-- The names of a scope are found unless one of them is declared twice. -/
theorem localNames_cases {v : Value} (textual : Textual v) (tupled : Tupled v) :
    v.localNames = .ok v.declared ∧ v.declared.Nodup ∨
      ∃ x, v.localNames = .error (.duplicate x) ∧ v.declared.Duplicate x := by
  refine Value.localNames_cases (fun x w reached => ?_) fun ss reached => ?_
  · obtain ⟨scopes, stands⟩ := reached.stands
    exact textual scopes _ stands x (List.mem_singleton_self x)
  · obtain ⟨scopes, stands⟩ := reached.stands
    have tuple := tupled scopes _ stands
    cases ss with
    | tuple xs => exact ⟨xs, rfl⟩
    | _ => cases tuple

/-- A result of analysing a tree or some of its parts: it is there if they are fine, and otherwise a
fault tells where the tree is not in order. -/
inductive Judged {α : Type} (whole : Value) (fine : Prop) : Except Fault α → Prop
  | ok (a : α) : fine → Judged whole fine (.ok a)
  | duplicate {x : Value} : Repeats whole x → Judged whole fine (.error (.duplicate x))
  | unknownNode {w : Value} : Strays whole w → Judged whole fine (.error (.unknownNode w))

namespace Judged

variable {α γ : Type} {whole : Value} {fine fine' : Prop} {r : Except Fault α}

theorem bind {next : α → Except Fault γ} (h : Judged whole fine r)
    (hn : ∀ a, r = .ok a → fine → Judged whole fine' (next a)) :
    Judged whole fine' (r >>= next) := by
  cases h with
  | ok a ha => exact hn a rfl ha
  | duplicate hx => exact .duplicate hx
  | unknownNode hw => exact .unknownNode hw

theorem of_part {n : Node} {p : Value} (h : Judged p fine r) (hp : p ∈ n.parts) :
    Judged (.node n) fine r := by
  cases h with
  | ok a ha => exact .ok a ha
  | duplicate hx => exact .duplicate (hx.of_part hp)
  | unknownNode hw => exact .unknownNode (hw.of_part hp)

end Judged

theorem judged_analyzeAll {n : Node} {ss : List Value} (hss : ∀ s ∈ ss, s ∈ n.parts)
    (each : ∀ s ∈ ss, Judged s (InOrder s) s.analyze) :
    Judged (.node n) (∀ s ∈ ss, InOrder s) (analyzeAll ss) := by
  induction ss with
  | nil => exact .ok [] (by simp)
  | cons s ss ih =>
      have first := (each s List.mem_cons_self).of_part (hss s List.mem_cons_self)
      have rest := ih (fun t ht => hss t (List.mem_cons_of_mem _ ht))
        fun t ht => each t (List.mem_cons_of_mem _ ht)
      refine first.bind fun c _ fine => rest.bind fun cs _ fines => .ok _ ?_
      exact List.forall_mem_cons.mpr ⟨fine, fines⟩

/-- The names of the scope that a block or function opens, of which the second list is judged. -/
theorem judged_localNames {n : Node} {b : Value} {outer : List Value}
    (hn : outer ++ b.declared ∈ n.scope) (textual : Textual b) (tupled : Tupled b) :
    Judged (.node n) b.declared.Nodup b.localNames := by
  rcases localNames_cases textual tupled with ⟨ok, nodup⟩ | ⟨x, refused, twice⟩
  · rw [ok]
    exact .ok _ nodup
  · rw [refused]
    have inside := twice.mono_sublist (List.sublist_append_right outer b.declared)
    exact .duplicate ⟨[], n, .whole, _, hn, inside⟩

theorem judged_paramNames {ps : List Value} {b : Value}
    (texts : ∀ x ∈ ps, ∃ s, x = .text s) :
    Judged (.node (.function (.tuple ps) b)) True (Value.tuple ps).paramNames := by
  have names : (Value.tuple ps).paramNames = insertAll ps [] := rfl
  rw [names]
  rcases insertAll_cases texts [] with ⟨ok, -, -⟩ | ⟨x, refused, twice⟩
  · rw [ok]
    exact .ok _ trivial
  · rw [refused]
    have inside : (ps ++ b.declared).Duplicate x := by
      refine twice.mono_sublist ?_
      simp
    exact .duplicate ⟨[], _, .whole, _, List.mem_singleton_self _, inside⟩

theorem judged_function {ps : List Value} {b : Value}
    (textual : Textual (.node (.function (.tuple ps) b)))
    (tupled : Tupled (.node (.function (.tuple ps) b)))
    (body : Judged b (InOrder b) b.analyze) :
    Judged (.node (.function (.tuple ps) b)) (InOrder (.node (.function (.tuple ps) b)))
      (Node.function (.tuple ps) b).analyze := by
  have inside : b ∈ (Node.function (.tuple ps) b).parts := List.mem_singleton_self b
  have texts : ∀ x ∈ ps, ∃ s, x = .text s := textual.self
  refine (judged_paramNames texts).bind fun params hp _ => ?_
  obtain rfl : params = ps := (insertAll_eq_append hp).trans (List.append_nil ps)
  refine (judged_localNames (List.mem_singleton_self _) (textual.of_node inside)
    (tupled.of_node inside)).bind fun locals hl nodup => ?_
  rcases localNames_cases (textual.of_node inside) (tupled.of_node inside) with
    ⟨ok, -⟩ | ⟨x, refused, -⟩
  · obtain rfl : b.declared = locals := Except.ok.inj (ok.symm.trans hl)
    rcases insertAll_cases texts b.declared with ⟨all, nodup', apart⟩ | ⟨x, refused, twice⟩
    · rw [all]
      refine (body.of_part inside).bind fun c _ fine => .ok _ (inOrder_node ?_ ?_)
      · intro names mem
        obtain rfl := List.mem_singleton.mp mem
        refine List.nodup_append.mpr ⟨nodup', nodup, ?_⟩
        rintro x hx _ hy rfl
        exact apart x hx hy
      · intro p hp
        rw [List.mem_singleton.mp hp]
        exact fine
    · rw [refused]
      exact .duplicate ⟨[], _, .whole, _, List.mem_singleton_self _, twice⟩
  · cases refused.symm.trans hl

theorem judged_block {b : Value} (textual : Textual (.node (.block b)))
    (tupled : Tupled (.node (.block b))) (body : Judged b (InOrder b) b.analyze) :
    Judged (.node (.block b)) (InOrder (.node (.block b))) (Node.block b).analyze := by
  have inside : b ∈ (Node.block b).parts := List.mem_singleton_self b
  have names : Judged (.node (.block b)) b.declared.Nodup b.localNames :=
    have scope : [] ++ b.declared ∈ (Node.block b).scope := List.mem_singleton_self _
    judged_localNames scope (textual.of_node inside) (tupled.of_node inside)
  refine names.bind fun locals _ nodup => (body.of_part inside).bind fun c _ fine => .ok _ ?_
  refine inOrder_node (fun names mem => ?_) fun p hp => ?_
  · rw [List.mem_singleton.mp mem]
    exact nodup
  · rw [List.mem_singleton.mp hp]
    exact fine

/-- Analysis judges every tree rightly, whatever stands in it. -/
theorem judged_analyze {v : Value} (textual : Textual v) (tupled : Tupled v) :
    Judged v (InOrder v) v.analyze := by
  induction v using Value.parts_induction with
  | leaf v leaf =>
      have refused : v.analyze = .error (.unknownNode v) := by
        cases v <;> first | rfl | cases leaf
      rw [refused]
      exact .unknownNode ⟨leaf, [], .whole⟩
  | node n ih =>
      have part (p : Value) (hp : p ∈ n.parts) : Judged (.node n) (InOrder p) p.analyze :=
        (ih p hp (textual.of_node hp) (tupled.of_node hp)).of_part hp
      -- Nodes that open no scope are in order if their parts are.
      have plain (none : n.scope = []) (h : ∀ p ∈ n.parts, InOrder p) : InOrder (.node n) :=
        inOrder_node (by simp [none]) h
      cases n with
      | literal v => exact .ok _ (plain rfl (by simp [Node.parts]))
      | name x => exact .ok _ (plain rfl (by simp [Node.parts]))
      | declaration x v =>
          refine (part v (by simp [Node.parts])).bind fun c _ fine => .ok _ (plain rfl ?_)
          simpa [Node.parts] using fine
      | returning e =>
          refine (part e (by simp [Node.parts])).bind fun c _ fine => .ok _ (plain rfl ?_)
          simpa [Node.parts] using fine
      | conditional p c a =>
          refine (part p (by simp [Node.parts])).bind fun _ _ fineP => ?_
          refine (part c (by simp [Node.parts])).bind fun _ _ fineC => ?_
          refine (part a (by simp [Node.parts])).bind fun _ _ fineA => .ok _ (plain rfl ?_)
          simp [Node.parts, fineP, fineC, fineA]
      | function ps b =>
          have tuple := tupled.self
          have inside : b ∈ (Node.function ps b).parts := List.mem_singleton_self b
          cases ps with
          | tuple ps =>
              exact judged_function textual tupled
                (ih b inside (textual.of_node inside) (tupled.of_node inside))
          | _ => cases tuple
      | block b =>
          have inside : b ∈ (Node.block b).parts := List.mem_singleton_self b
          exact judged_block textual tupled
            (ih b inside (textual.of_node inside) (tupled.of_node inside))
      | sequence ss =>
          have tuple := tupled.self
          cases ss with
          | tuple ss =>
              have all := judged_analyzeAll (n := .sequence (.tuple ss)) (fun s hs => hs)
                fun s hs => ih s hs (textual.of_node hs) (tupled.of_node hs)
              exact all.bind fun cs _ fines => .ok _ (plain rfl fines)
          | _ => cases tuple
      | application f xs =>
          have tuple := tupled.self
          cases xs with
          | tuple xs =>
              have operand {x : Value} (hx : x ∈ xs) :
                  x ∈ (Node.application f (.tuple xs)).parts := List.mem_cons_of_mem f hx
              have all := judged_analyzeAll (n := .application f (.tuple xs))
                (fun x hx => operand hx)
                fun x hx => ih x (operand hx) (textual.of_node (operand hx))
                  (tupled.of_node (operand hx))
              refine (part f List.mem_cons_self).bind fun _ _ fine => ?_
              refine all.bind fun cs _ fines => .ok _ (plain rfl ?_)
              exact List.forall_mem_cons.mpr ⟨fine, fines⟩
          | _ => cases tuple

theorem Node.analyze_eq_ok_iff {n : Node} (textual : Textual (.node n))
    (tupled : Tupled (.node n)) :
    (∃ c, n.analyze = .ok c) ↔ InOrder (.node n) := by
  have judged : Judged (.node n) (InOrder (.node n)) n.analyze := judged_analyze textual tupled
  constructor
  · rintro ⟨c, ok⟩
    rw [ok] at judged
    cases judged with
    | ok _ fine => exact fine
  · intro fine
    generalize n.analyze = r at judged
    cases judged with
    | ok c _ => exact ⟨c, rfl⟩
    | duplicate twice => exact absurd twice fine.not_repeats
    | unknownNode stray => exact absurd stray fine.not_strays

/-- The name that a scope has twice is a text, as all names are. -/
theorem Repeats.text {whole x : Value} (h : Repeats whole x) (textual : Textual whole) :
    ∃ s, x = .text s := by
  obtain ⟨scopes, n, stands, names, mem, twice⟩ := h
  have own : Textual (.node n) := textual.of_stands stands
  have inside : x ∈ names := twice.mem
  cases n with
  | block b =>
      obtain rfl := List.mem_singleton.mp mem
      exact Textual.declared (own.of_node (List.mem_singleton_self b)) x inside
  | function ps b =>
      obtain rfl := List.mem_singleton.mp mem
      rcases List.mem_append.mp inside with param | declared
      · exact own.self x param
      · exact Textual.declared (own.of_node (List.mem_singleton_self b)) x declared
  | _ => cases mem

/-- A report is of the kind of its fault, unless its wording could not be made. -/
theorem Fault.report_cases (e : Fault) :
    e.report.kind = e.kind ∨ ∃ m : Mishap, e.report = m.report := by
  unfold report
  cases e.message with
  | ok text => exact .inl rfl
  | error m => exact .inr ⟨m, rfl⟩

/-- A part that has no text is reported as the mishap that prevents one. -/
theorem Fault.report_unknownNode_of_error {w : Value} {m : Mishap} (h : w.inspect = .error m) :
    (unknownNode w).report = m.report := by
  simp only [report, message, h, bind, Except.bind]

theorem Fault.kind_report_unknownNode {w : Value} {text : String} (h : w.inspect = .ok text) :
    (unknownNode w).report.kind = .unknownNode := by
  simp only [report, message, h, bind, Except.bind, pure, Except.pure, kind]

/-- A number with more digits than the limit has no text. -/
theorem Value.inspect_int_eq_error {n : Nat} (h : 10 ^ Text.digitLimit ≤ n) :
    (Value.int n).inspect = .error .domain := by
  have long : ¬ (Nat.repr n).length ≤ Text.digitLimit := by
    rw [Nat.length_repr_le_iff (by decide)]
    exact Nat.not_lt.mpr h
  simp only [inspect, showInt, Text.writeInt?, Int.natAbs_natCast, long, if_false]

/-- A run is never reported to have met a name declared twice or something that is no tree. -/
theorem Fault.report_of_arisesInRuns {e : Fault} (h : e.arisesInRuns) :
    e.report.kind ≠ .duplicate ∧ e.report.kind ≠ .unknownNode := by
  rcases e.report_cases with kind | ⟨m, report⟩
  · rw [kind]
    cases e <;> simp_all [arisesInRuns, Fault.kind]
  · simp [report, Mishap.report]

/-- Analysis makes code of a node exactly if the node is in order, and otherwise names what is not:
a name that one scope has twice, or a part that is no node. Only a part that has no text
keeps the second from being reported as such. Whatever may be wrong is found before code runs; and
what is read from the tagged form has no part that is no node. -/
theorem analysis_finds_what_is_out_of_order {n : Node} (textual : Textual (.node n))
    (tupled : Tupled (.node n)) :
    ((∃ c, n.analyze = .ok c) ↔ InOrder (.node n)) ∧
      (∀ e, n.analyze = .error e →
        (e.report.kind = .duplicate ∧ ∃ x, e = .duplicate x ∧ Repeats (.node n) x) ∨
          ∃ w, e = .unknownNode w ∧ Strays (.node n) w ∧
            (e.report.kind = .unknownNode ∨ ∃ m, w.inspect = .error m ∧ e.report = m.report)) ∧
      (∀ c, n.analyze = .ok c → ∀ depth env m e, (run depth c env).fault? m = some e →
        e.report.kind ≠ .duplicate ∧ e.report.kind ≠ .unknownNode) ∧
      (∀ (tree : Value) (made : Node), tree.read = .ok made →
        ∀ w, made.analyze ≠ .error (.unknownNode w)) := by
  refine ⟨Node.analyze_eq_ok_iff textual tupled, fun e refused => ?_, fun c _ depth env m e h => ?_,
    fun tree made read w refused => ?_⟩
  · have judged : Judged (.node n) (InOrder (.node n)) n.analyze := judged_analyze textual tupled
    rw [refused] at judged
    cases judged with
    | duplicate twice =>
        obtain ⟨s, rfl⟩ := twice.text textual
        exact .inl ⟨rfl, _, rfl, twice⟩
    | @unknownNode w stray =>
        refine .inr ⟨w, rfl, stray, ?_⟩
        cases shown : w.inspect with
        | ok text => exact .inl (Fault.kind_report_unknownNode shown)
        | error m => exact .inr ⟨m, rfl, Fault.report_unknownNode_of_error shown⟩
  · exact Fault.report_of_arisesInRuns (Eval.arisesInRuns_of_run h)
  · have result : OkOrDuplicate made.analyze := (Value.regular_of_read read).okOrDuplicate_analyze
    rw [refused] at result
    rcases result with ⟨_, h⟩ | ⟨_, h⟩ <;> cases h

namespace Sample

/-- A branch that is never taken holds a function that declares its parameter again, behind a nested
sequence. -/
def untaken : Node :=
  .conditional (.node (.literal (.bool true))) (.node (.name "x"))
    (.node (.function (.tuple [.text "x"]) (.node (.sequence (.tuple
      [.node (.sequence (.tuple [.node (.declaration (.text "x") (.node (.literal .null)))]))])))))

/-- The first number that has more digits than a text may show. -/
def huge : Nat := 10 ^ Text.digitLimit

theorem le_huge : 10 ^ Text.digitLimit ≤ huge := by
  unfold huge
  exact Nat.le_refl _

/-- A block around such a number. -/
def wordless : Node := .block (.int huge)

end Sample

theorem analysis_finds_repeated_parameter :
    Textual (.node Sample.untaken) ∧ Tupled (.node Sample.untaken) ∧
      ¬ InOrder (.node Sample.untaken) := by
  have textual : Textual (.node Sample.untaken) := by
    simp [Textual, Sample.untaken, everyNode_node, Node.parts, Node.names, Value.items,
      Value.iterate]
  have tupled : Tupled (.node Sample.untaken) := by
    simp [Tupled, Sample.untaken, everyNode_node, Node.parts, Node.tupled, Value.items,
      Value.iterate]
  refine ⟨textual, tupled, fun inOrder => ?_⟩
  obtain ⟨c, ok⟩ := (analysis_finds_what_is_out_of_order textual tupled).1.mpr inOrder
  have refused : Sample.untaken.analyze = .error (.duplicate (.text "x")) := by rfl
  cases refused.symm.trans ok

/-- The report has to show the part that is no node. Where it cannot, it is about that and no longer
about the part. -/
theorem stray_part_without_text_is_reported_otherwise :
    Textual (.node Sample.wordless) ∧ Tupled (.node Sample.wordless) ∧
      ∃ e, Sample.wordless.analyze = .error e ∧ e.report = Mishap.report .domain ∧
        e.report.kind ≠ .duplicate ∧ e.report.kind ≠ .unknownNode := by
  have block {Q : Node → Prop} (own : Q Sample.wordless) : EveryNode Q (.node Sample.wordless) := by
    refine everyNode_node.mpr ⟨own, fun p hp => ?_⟩
    rw [List.mem_singleton.mp hp]
    exact everyNode_of_not_node rfl
  have report : (Fault.unknownNode (.int Sample.huge)).report = Mishap.report .domain :=
    Fault.report_unknownNode_of_error (Value.inspect_int_eq_error Sample.le_huge)
  have nameless : ∀ x ∈ Sample.wordless.names, ∃ s, x = .text s := fun x hx => by cases hx
  refine ⟨block nameless, block rfl, _, rfl, report, ?_, ?_⟩
  all_goals
    rw [report]
    simp [Mishap.report]

end ConstLang
