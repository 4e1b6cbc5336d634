import ConstLang.Proofs.Equivalence
import ConstLang.Proofs.Tree.Declaration

/-!
Sequences inside sequences. A sequence that stands as a statement of another one may be replaced
by its own statements: the same names are declared, the trees have code together, and the code
comes to the same ends, also as the body of a block or of functions. Only where the inner
sequence is empty and nothing follows it, its value would be lost.
-/

namespace ConstLang

open Eval Code

/-- Statements that follow others run unless these end with a marker. -/
theorem runStatements_append_bind (exec : Code → Env → Eval Code Value) {v : Value}
    (unmarked : v.isMarker = false) (xs ys : List Code) (env : Env) :
    runStatements exec v (xs ++ ys) env = (do
      let w ← runStatements exec v xs env
      if w.isMarker then return w else runStatements exec w ys env) := by
  induction xs generalizing v with
  | nil => simp [runStatements, unmarked]
  | cons x xs ih =>
      simp only [List.cons_append, runStatements, bind_assoc]
      congr 1
      funext w
      by_cases marked : w.isMarker = true
      · simp [marked]
      · simp only [marked, Bool.false_eq_true, if_false]
        exact ih (by simpa using marked)

private theorem deepens_rest (v : Value) (cs : List Code) (env : Env) :
    Deepens fun depth =>
      (if v.isMarker then return v else runStatements (run depth) v cs env : Eval Code Value) := by
  by_cases marked : v.isMarker = true
  · simp only [marked, if_true]
    exact (extends_pure v).deepens
  · simp only [marked, Bool.false_eq_true, if_false]
    exact deepens_runStatements v cs env

/-- The value that statements start from counts only if there are none. -/
theorem runStatements_of_ne_nil (exec : Code → Env → Eval Code Value) {cs : List Code}
    (some : cs ≠ []) (v w : Value) (env : Env) :
    runStatements exec v cs env = runStatements exec w cs env := by
  cases cs with
  | nil => exact absurd rfl some
  | cons c cs => rfl

section Splice

variable {ys zs : List Code} (some : ys ≠ [] ∨ zs ≠ [])

include some

theorem same_splice_first (v : Value) (env : Env) :
    Same (fun depth => runStatements (run depth) v (.ofStatements ys :: zs) env)
      fun depth => runStatements (run depth) v (ys ++ zs) env := by
  have ne : ys ++ zs ≠ [] := by simpa [imp_iff_not_or] using some
  have joined (depth : Nat) := runStatements_append_bind (run depth) (v := .undefined) rfl ys zs env
  simp only [runStatements_of_ne_nil _ ne v .undefined, joined]
  exact (same_ofStatements ys env).bind (fun w => .refl _) (deepens_run _ env)
    (deepens_runStatements _ ys env) (fun w => deepens_rest w zs env) fun w => deepens_rest w zs env

theorem same_splice (xs : List Code) (env : Env) :
    Same (fun depth => runStatements (run depth) .undefined (xs ++ .ofStatements ys :: zs) env)
      fun depth => runStatements (run depth) .undefined (xs ++ (ys ++ zs)) env := by
  simp only [runStatements_append_bind _ (v := .undefined) rfl xs]
  refine (Same.refl _).bind (fun w => ?_) (deepens_runStatements _ xs env)
    (deepens_runStatements _ xs env) (fun w => deepens_rest w _ env) fun w => deepens_rest w _ env
  by_cases marked : w.isMarker = true
  · simp only [marked, if_true]
    exact .refl _
  · simp only [marked, Bool.false_eq_true, if_false]
    exact same_splice_first some w env

/-- Code of nested statements is equivalent to the code of the spliced ones. -/
theorem equivalent_splice (xs : List Code) :
    (ofStatements (xs ++ .ofStatements ys :: zs)).Equivalent
      (.ofStatements (xs ++ (ys ++ zs))) := by
  intro env
  refine (same_ofStatements _ env).trans ((same_splice some xs env).trans ?_)
  exact (same_ofStatements _ env).symm

end Splice

section Trees

/-- The sequence with another one among its statements. -/
def Node.nested (xs ys zs : List Value) : Node :=
  .sequence (.tuple (xs ++ .node (.sequence (.tuple ys)) :: zs))

/-- The sequence with the statements of the inner one in its place. -/
def Node.spliced (xs ys zs : List Value) : Node := .sequence (.tuple (xs ++ (ys ++ zs)))

variable {xs ys zs : List Value}

theorem localNames_nested {names : List Value} :
    (Node.nested xs ys zs).localNames = .ok names ↔
      (Node.spliced xs ys zs).localNames = .ok names := by
  simp only [Node.nested, Node.spliced, Node.localNames, localNamesAll_eq_ok,
    forall₂_append_left_iff, List.forall₂_cons_left_iff, Value.localNames]
  refine and_congr_right fun apart => ?_
  constructor
  · rintro ⟨_, ⟨as, _, hx, ⟨_, bs, ⟨-, cs, hy, rfl⟩, hz, rfl⟩, rfl⟩, rfl⟩
    exact ⟨as ++ (cs ++ bs), ⟨as, cs ++ bs, hx, ⟨cs, bs, hy, hz, rfl⟩, rfl⟩, by simp⟩
  · rintro ⟨_, ⟨as, _, hx, ⟨cs, bs, hy, hz, rfl⟩, rfl⟩, rfl⟩
    have inner : Apart cs.flatten := by
      refine apart.sublist ?_
      simp
    exact ⟨as ++ cs.flatten :: bs,
      ⟨as, cs.flatten :: bs, hx, ⟨cs.flatten, bs, ⟨inner, cs, hy, rfl⟩, hz, rfl⟩, rfl⟩, by simp⟩

theorem analyze_nested {c : Code} :
    (Node.nested xs ys zs).analyze = .ok c ↔
      ∃ as bs cs, analyzeAll xs = .ok as ∧ analyzeAll ys = .ok bs ∧ analyzeAll zs = .ok cs ∧
        c = .ofStatements (as ++ .ofStatements bs :: cs) := by
  simp only [Node.nested, Node.analyze_statements_eq_ok, forall₂_append_left_iff,
    List.forall₂_cons_left_iff, Value.analyze, analyzeAll_eq_ok]
  constructor
  · rintro ⟨_, ⟨as, _, hx, ⟨_, cs, ⟨bs, hy, rfl⟩, hz, rfl⟩, rfl⟩, rfl⟩
    exact ⟨as, bs, cs, hx, hy, hz, rfl⟩
  · rintro ⟨as, bs, cs, hx, hy, hz, rfl⟩
    exact ⟨_, ⟨as, _, hx, ⟨_, cs, ⟨bs, hy, rfl⟩, hz, rfl⟩, rfl⟩, rfl⟩

theorem analyze_spliced {c : Code} :
    (Node.spliced xs ys zs).analyze = .ok c ↔
      ∃ as bs cs, analyzeAll xs = .ok as ∧ analyzeAll ys = .ok bs ∧ analyzeAll zs = .ok cs ∧
        c = .ofStatements (as ++ (bs ++ cs)) := by
  simp only [Node.spliced, Node.analyze_statements_eq_ok, forall₂_append_left_iff,
    analyzeAll_eq_ok]
  constructor
  · rintro ⟨_, ⟨as, _, hx, ⟨bs, cs, hy, hz, rfl⟩, rfl⟩, rfl⟩
    exact ⟨as, bs, cs, hx, hy, hz, rfl⟩
  · rintro ⟨as, bs, cs, hx, hy, hz, rfl⟩
    exact ⟨_, ⟨as, _, hx, ⟨bs, cs, hy, hz, rfl⟩, rfl⟩, rfl⟩

/-- The trees have code together. -/
theorem exists_code_nested :
    (∃ c, (Node.nested xs ys zs).analyze = .ok c) ↔
      ∃ c, (Node.spliced xs ys zs).analyze = .ok c := by
  simp only [analyze_nested, analyze_spliced]
  constructor
  · rintro ⟨_, as, bs, cs, hx, hy, hz, -⟩
    exact ⟨_, as, bs, cs, hx, hy, hz, rfl⟩
  · rintro ⟨_, as, bs, cs, hx, hy, hz, -⟩
    exact ⟨_, as, bs, cs, hx, hy, hz, rfl⟩

theorem equivalent_nested (some : ys ≠ [] ∨ zs ≠ []) {c c' : Code}
    (nested : (Node.nested xs ys zs).analyze = .ok c)
    (spliced : (Node.spliced xs ys zs).analyze = .ok c') : c.Equivalent c' := by
  obtain ⟨as, bs, cs, hx, hy, hz, rfl⟩ := analyze_nested.mp nested
  obtain ⟨as', bs', cs', hx', hy', hz', rfl⟩ := analyze_spliced.mp spliced
  cases hx.symm.trans hx'
  cases hy.symm.trans hy'
  cases hz.symm.trans hz'
  have lengthY := (analyzeAll_eq_ok.mp hy).length_eq
  have lengthZ := (analyzeAll_eq_ok.mp hz).length_eq
  refine equivalent_splice ?_ as
  simp only [ne_eq, ← List.length_eq_zero_iff] at some ⊢
  omega

end Trees

/-- A sequence inside a sequence may be replaced by its statements. -/
theorem nested_sequences_splice (xs ys zs : List Value) (some : ys ≠ [] ∨ zs ≠ []) :
    (∀ names, (Node.nested xs ys zs).localNames = .ok names ↔
      (Node.spliced xs ys zs).localNames = .ok names) ∧
    ((∃ c, (Node.nested xs ys zs).analyze = .ok c) ↔
      ∃ c, (Node.spliced xs ys zs).analyze = .ok c) ∧
    ∀ c c', (Node.nested xs ys zs).analyze = .ok c → (Node.spliced xs ys zs).analyze = .ok c' →
      Interchangeable (.node (Node.nested xs ys zs)) (.node (Node.spliced xs ys zs)) c c' := by
  refine ⟨fun _ => localNames_nested, exists_code_nested, ?_⟩
  intro c c' nested spliced
  exact (equivalent_nested some nested spliced).interchangeable nested spliced
    fun _ => localNames_nested

-- An empty sequence at the end is a statement of its own, whose value is undefined.
example :
    run 2 (.ofStatements [.literal (.int 1), .ofStatements []]) [] {} = .ok .undefined {} ∧
      run 2 (.ofStatements [.literal (.int 1)]) [] {} = .ok (.int 1) {} :=
  ⟨rfl, rfl⟩

namespace Sample

/-- A declaration, and a sequence that returns what was declared before its last statement. -/
def declaring : List Value := [.node (.declaration (.text "x") (.node (.literal (.int 1))))]

def leaving : List Value :=
  [.node (.returning (.node (.name "x"))), .node (.literal (.int 2))]

end Sample

theorem nested_sequences_splice_at_return :
    (Sample.leaving ≠ [] ∨ ([] : List Value) ≠ []) ∧
    ∃ c c', (Node.nested Sample.declaring Sample.leaving []).analyze = .ok c ∧
      (Node.spliced Sample.declaring Sample.leaving []).analyze = .ok c' ∧
      (Node.spliced Sample.declaring Sample.leaving []).localNames = .ok [.text "x"] ∧
      Interchangeable (.node (Node.nested Sample.declaring Sample.leaving []))
        (.node (Node.spliced Sample.declaring Sample.leaving [])) c c' := by
  have some : Sample.leaving ≠ [] ∨ ([] : List Value) ≠ [] := .inl (by simp [Sample.leaving])
  obtain ⟨names, -, same⟩ := nested_sequences_splice Sample.declaring Sample.leaving [] some
  exact ⟨some, _, _, rfl, rfl, (names _).mp rfl, same _ _ rfl rfl⟩

end ConstLang
