import Mathlib.Data.List.Forall2
import ConstLang.Code
import ConstLang.Proofs.Outcome

/-!
What analysis makes of a tree, kind by kind. A tree becomes code exactly if its parts
do and its scopes declare no name twice; the code then has the code of the parts.
-/

namespace ConstLang

theorem Value.analyze_eq_ok {v : Value} {c : Code} :
    v.analyze = .ok c ↔ ∃ n, v = .node n ∧ n.analyze = .ok c := by
  cases v <;> simp [Value.analyze]

theorem analyzeAll_eq_ok {vs : List Value} {cs : List Code} :
    analyzeAll vs = .ok cs ↔ List.Forall₂ (fun v c => v.analyze = .ok c) vs cs := by
  induction vs generalizing cs with
  | nil => simp [analyzeAll, eq_comm]
  | cons v vs ih =>
      simp only [analyzeAll, except_bind_eq_ok, except_pure_eq_ok, ih, List.forall₂_cons_left_iff]
      constructor
      · rintro ⟨c, hc, cs', hcs, rfl⟩
        exact ⟨c, cs', hc, hcs, rfl⟩
      · rintro ⟨c, cs', hc, hcs, rfl⟩
        exact ⟨c, hc, cs', hcs, rfl⟩

theorem forall₂_append_left_iff {α γ : Type} {R : α → γ → Prop} {xs ys : List α} {cs : List γ} :
    List.Forall₂ R (xs ++ ys) cs ↔
      ∃ as bs, List.Forall₂ R xs as ∧ List.Forall₂ R ys bs ∧ cs = as ++ bs := by
  induction xs generalizing cs with
  | nil => simp
  | cons x xs ih =>
      simp only [List.cons_append, List.forall₂_cons_left_iff, ih]
      constructor
      · rintro ⟨a, _, first, ⟨as, bs, hx, hy, rfl⟩, rfl⟩
        exact ⟨a :: as, bs, ⟨a, as, first, hx, rfl⟩, hy, rfl⟩
      · rintro ⟨_, bs, ⟨a, as, first, hx, rfl⟩, hy, rfl⟩
        exact ⟨a, as ++ bs, first, ⟨as, bs, hx, hy, rfl⟩, rfl⟩

theorem exists_code_of_mem {vs : List Value} {cs : List Code} {v : Value}
    (h : List.Forall₂ (fun v c => v.analyze = .ok c) vs cs) (hv : v ∈ vs) :
    ∃ c ∈ cs, v.analyze = .ok c := by
  obtain ⟨before, after, rfl⟩ := List.append_of_mem hv
  obtain ⟨as, _, -, rest, rfl⟩ := forall₂_append_left_iff.mp h
  obtain ⟨c, bs, hc, -, rfl⟩ := List.forall₂_cons_left_iff.mp rest
  exact ⟨c, by simp, hc⟩

/-- Statements and operands are what iteration yields. -/
theorem Value.analyzeItems_eq (v : Value) :
    v.analyzeItems = liftMishap v.iterate >>= analyzeAll := by
  cases v with
  | list _ | tuple _ => rfl
  | text s =>
      cases h : s.toList <;>
        simp [analyzeItems, iterate, h, liftMishap, bind, Except.bind, analyzeAll, analyze]
  | dict es => exact analyzeKeys_eq es
  | _ => rfl

/-- So are the statements whose names are looked for. -/
theorem Node.localNames_sequence (ss : Value) :
    (sequence ss).localNames = liftMishap ss.iterate >>= localNamesAll := by
  cases ss with
  | list _ | tuple _ => rfl
  | dict es => exact localNamesKeys_eq es
  | text s =>
      have nameless (cs : List Char) :
          localNamesAll (cs.map fun c => .text (String.singleton c)) = .ok [] := by
        induction cs with
        | nil => rfl
        | cons c cs ih => simp only [List.map_cons, localNamesAll, ih, bind, Except.bind,
            Value.localNames, insertAll]
      exact (nameless s.toList).symm
  | _ => rfl

theorem Node.localNames_sequence_eq_ok {ss : Value} {names : List Value} :
    (sequence ss).localNames = .ok names ↔
      ∃ vs, ss.iterate = .ok vs ∧ localNamesAll vs = .ok names := by
  rw [localNames_sequence, except_bind_eq_ok]
  simp only [liftMishap_eq_ok]

theorem Node.localNames_sequence_of_iterate {ss : Value} {vs : List Value}
    (h : ss.iterate = .ok vs) : (sequence ss).localNames = localNamesAll vs := by
  rw [localNames_sequence, h]
  rfl

theorem Value.analyzeItems_eq_ok {v : Value} {cs : List Code} :
    v.analyzeItems = .ok cs ↔
      ∃ vs, v.iterate = .ok vs ∧ List.Forall₂ (fun v c => v.analyze = .ok c) vs cs := by
  rw [analyzeItems_eq, except_bind_eq_ok]
  simp only [liftMishap_eq_ok, analyzeAll_eq_ok]

namespace Node

variable {c : Code}

theorem analyze_declaration_eq_ok {x v : Value} :
    (declaration x v).analyze = .ok c ↔ ∃ c', v.analyze = .ok c' ∧ c = .declare x c' := by
  simp only [analyze, except_bind_eq_ok, except_pure_eq_ok]

theorem analyze_conditional_eq_ok {p t f : Value} :
    (conditional p t f).analyze = .ok c ↔
      ∃ p' t' f', p.analyze = .ok p' ∧ t.analyze = .ok t' ∧ f.analyze = .ok f' ∧
        c = .select p' t' f' := by
  simp only [analyze, except_bind_eq_ok, except_pure_eq_ok]
  constructor
  · rintro ⟨p', hp, t', ht, f', hf, rfl⟩
    exact ⟨p', t', f', hp, ht, hf, rfl⟩
  · rintro ⟨p', t', f', hp, ht, hf, rfl⟩
    exact ⟨p', hp, t', ht, f', hf, rfl⟩

theorem analyze_function_eq_ok {ps b : Value} :
    (function ps b).analyze = .ok c ↔
      ∃ params locals both body, ps.paramNames = .ok params ∧ b.localNames = .ok locals ∧
        insertAll params locals = .ok both ∧ b.analyze = .ok body ∧
        c = .close params locals body := by
  simp only [analyze, except_bind_eq_ok, except_pure_eq_ok]
  constructor
  · rintro ⟨params, hp, locals, hl, both, hi, body, hb, rfl⟩
    exact ⟨params, locals, both, body, hp, hl, hi, hb, rfl⟩
  · rintro ⟨params, locals, both, body, hp, hl, hi, hb, rfl⟩
    exact ⟨params, hp, locals, hl, both, hi, body, hb, rfl⟩

theorem analyze_sequence_eq_ok {ss : Value} :
    (sequence ss).analyze = .ok c ↔
      ∃ vs cs, ss.iterate = .ok vs ∧ List.Forall₂ (fun v c => v.analyze = .ok c) vs cs ∧
        c = .ofStatements cs := by
  simp only [analyze, except_bind_eq_ok, except_pure_eq_ok, Value.analyzeItems_eq_ok]
  constructor
  · rintro ⟨cs, ⟨vs, hv, hcs⟩, rfl⟩
    exact ⟨vs, cs, hv, hcs, rfl⟩
  · rintro ⟨vs, cs, hv, hcs, rfl⟩
    exact ⟨cs, ⟨vs, hv, hcs⟩, rfl⟩

theorem analyze_statements_eq_ok {ss : List Value} :
    (sequence (.tuple ss)).analyze = .ok c ↔
      ∃ cs, List.Forall₂ (fun v c => v.analyze = .ok c) ss cs ∧ c = .ofStatements cs := by
  simp only [analyze_sequence_eq_ok, Value.iterate, Except.ok.injEq, exists_and_left,
    exists_eq_left']

theorem analyze_block_eq_ok {b : Value} :
    (block b).analyze = .ok c ↔
      ∃ locals body, b.localNames = .ok locals ∧ b.analyze = .ok body ∧
        c = .enter locals body := by
  simp only [analyze, except_bind_eq_ok, except_pure_eq_ok]
  constructor
  · rintro ⟨locals, hl, body, hb, rfl⟩
    exact ⟨locals, body, hl, hb, rfl⟩
  · rintro ⟨locals, body, hl, hb, rfl⟩
    exact ⟨locals, hl, body, hb, rfl⟩

theorem analyze_returning_eq_ok {e : Value} :
    (returning e).analyze = .ok c ↔ ∃ c', e.analyze = .ok c' ∧ c = .returning c' := by
  simp only [analyze, except_bind_eq_ok, except_pure_eq_ok]

theorem analyze_application_eq_ok {f xs : Value} :
    (application f xs).analyze = .ok c ↔
      ∃ f' vs cs, f.analyze = .ok f' ∧ xs.iterate = .ok vs ∧
        List.Forall₂ (fun v c => v.analyze = .ok c) vs cs ∧ c = .apply f' cs := by
  simp only [analyze, except_bind_eq_ok, except_pure_eq_ok, Value.analyzeItems_eq_ok]
  constructor
  · rintro ⟨f', hf, cs, ⟨vs, hv, hcs⟩, rfl⟩
    exact ⟨f', vs, cs, hf, hv, hcs, rfl⟩
  · rintro ⟨f', vs, cs, hf, hv, hcs, rfl⟩
    exact ⟨f', hf, cs, ⟨vs, hv, hcs⟩, rfl⟩

end Node
end ConstLang
