import ConstLang.Proofs.Moment

/-!
Moments in time. Of two moments of one run, one happens inside of the other, or one has ended
before the other begins. So memory at the one has grown into memory at the other, and what one
of them adds to memory is new.
-/

namespace ConstLang

/-- Of two places in a list, one is the other or comes before it. -/
theorem append_cons_eq_append_cons {α : Type} {before before' after after' : List α} {c c' : α}
    (h : before ++ c :: after = before' ++ c' :: after') :
    (before = before' ∧ c = c') ∨ (∃ mid, before' = before ++ c :: mid) ∨
      ∃ mid, before = before' ++ c' :: mid := by
  rcases List.append_eq_append_iff.mp h with ⟨mid, hb, hm⟩ | ⟨mid, hb, hm⟩
  · cases mid with
    | nil =>
        obtain ⟨rfl, -⟩ := List.cons.inj hm
        exact .inl ⟨by simpa using hb.symm, rfl⟩
    | cons d mid =>
        obtain ⟨rfl, -⟩ := List.cons.inj hm
        exact .inr (.inl ⟨mid, hb⟩)
  · cases mid with
    | nil =>
        obtain ⟨rfl, -⟩ := List.cons.inj hm
        exact .inl ⟨by simpa using hb, rfl⟩
    | cons d mid =>
        obtain ⟨rfl, -⟩ := List.cons.inj hm
        exact .inr (.inr ⟨mid, hb⟩)

namespace Moment

variable {root a b c : Moment}

theorem left_of_ok {d : Nat} {code : Code} {env : Env} {m n : Memory Code} {v : Value}
    (ran : ConstLang.run d code env m = .ok v n) : (Moment.mk d (.run code env) m).left = n := by
  simp only [left, act, Eval.after, ran]

section Lists

variable {d : Nat} {env : Env} {m n k : Memory Code}

/-- A statement has ended before a later one begins. -/
theorem statement_later {before mid : List Code} {c : Code} {v w : Value}
    (ran : runStatements (ConstLang.run d) .undefined before env m = .ok v n)
    (unmarked : v.isMarker = false)
    (later : runStatements (ConstLang.run d) .undefined (before ++ c :: mid) env m = .ok w k) :
    (Moment.mk d (.run c env) n).left.Later k := by
  rw [runStatements_append _ ran unmarked] at later
  obtain ⟨u, l, own, rest⟩ := Eval.bind_eq_ok.mp later
  rw [left_of_ok own]
  by_cases marked : u.isMarker = true
  · rw [if_pos marked] at rest
    cases rest
    exact .refl _ _
  · rw [if_neg marked] at rest
    exact (Eval.grows_runStatements_any d u mid env l).of_ok rest

/-- So has an operator before the operands. -/
theorem operator_later {f : Code} {xs : List Code} {g : Value} {vs : List Value}
    (operator : ConstLang.run d f env m = .ok g n)
    (ran : runAll (ConstLang.run d) xs env n = .ok vs k) :
    (Moment.mk d (.run f env) m).left.Later k := by
  rw [left_of_ok operator]
  exact (Eval.grows_runAll_any d xs env n).of_ok ran

/-- And so has an operand. -/
theorem operand_later {before mid : List Code} {x : Code} {vs ws : List Value}
    (ran : runAll (ConstLang.run d) before env m = .ok vs n)
    (later : runAll (ConstLang.run d) (before ++ x :: mid) env m = .ok ws k) :
    (Moment.mk d (.run x env) n).left.Later k := by
  rw [runAll_append _ ran] at later
  obtain ⟨us, l, rest, ended⟩ := Eval.bind_eq_ok.mp later
  cases ended
  obtain ⟨u, l, own, rest⟩ := Eval.bind_eq_ok.mp rest
  obtain ⟨us, j, rest, ended⟩ := Eval.bind_eq_ok.mp rest
  cases ended
  rw [left_of_ok own]
  exact (Eval.grows_runAll_any d mid env l).of_ok rest

end Lists

/-- What one moment starts, it starts one after the other. -/
theorem Starts.ordered (h : a.Starts b) (h' : a.Starts c) :
    b = c ∨ b.left.Later c.memory ∨ c.left.Later b.memory := by
  cases h with
  | value | returned =>
      cases h'
      exact .inl rfl
  | predicate =>
      cases h' with
      | predicate => exact .inl rfl
      | branch decided =>
          refine .inr (.inl ?_)
          rw [left_of_ok decided]
          exact .refl _ _
  | branch decided =>
      cases h' with
      | predicate =>
          refine .inr (.inr ?_)
          rw [left_of_ok decided]
          exact .refl _ _
      | branch decided' =>
          cases decided.symm.trans decided'
          exact .inl rfl
  | statement split ran unmarked =>
      cases h' with
      | statement split' ran' unmarked' =>
          subst split
          rcases append_cons_eq_append_cons split' with ⟨rfl, rfl⟩ | ⟨mid, rfl⟩ | ⟨mid, rfl⟩
          · cases ran.symm.trans ran'
            exact .inl rfl
          · exact .inr (.inl (statement_later ran unmarked ran'))
          · exact .inr (.inr (statement_later ran' unmarked' ran))
  | block entered =>
      cases h' with
      | block entered' =>
          cases entered.symm.trans entered'
          exact .inl rfl
  | operator =>
      cases h' with
      | operator => exact .inl rfl
      | operand _ operator ran => exact .inr (.inl (operator_later operator ran))
      | call operator operands => exact .inr (.inl (operator_later operator operands))
  | operand split operator ran =>
      cases h' with
      | operator => exact .inr (.inr (operator_later operator ran))
      | operand split' operator' ran' =>
          subst split
          cases operator.symm.trans operator'
          rcases append_cons_eq_append_cons split' with ⟨rfl, rfl⟩ | ⟨mid, rfl⟩ | ⟨mid, rfl⟩
          · cases ran.symm.trans ran'
            exact .inl rfl
          · exact .inr (.inl (operand_later ran ran'))
          · exact .inr (.inr (operand_later ran' ran))
      | call operator' operands =>
          subst split
          cases operator.symm.trans operator'
          exact .inr (.inl (operand_later ran operands))
  | call operator operands =>
      cases h' with
      | operator => exact .inr (.inr (operator_later operator operands))
      | operand split' operator' ran' =>
          subst split'
          cases operator.symm.trans operator'
          exact .inr (.inr (operand_later ran' operands))
      | call operator' operands' =>
          cases operator.symm.trans operator'
          cases operands.symm.trans operands'
          exact .inl rfl
  | body entered =>
      cases h' with
      | body entered' =>
          cases entered.symm.trans entered'
          exact .inl rfl

/-- Of two moments of a run, one happens inside of the other, or one has ended before the other
begins. -/
theorem Reaches.ordered (h : root.Reaches a) (h' : root.Reaches b) :
    a.Reaches b ∨ b.Reaches a ∨ a.left.Later b.memory ∨ b.left.Later a.memory := by
  induction h using Relation.ReflTransGen.head_induction_on with
  | refl => exact .inl h'
  | head first rest ih =>
      cases Relation.ReflTransGen.cases_head h' with
      | inl same =>
          rw [← same]
          exact .inr (.inl (.head first rest))
      | inr other =>
          obtain ⟨c, first', rest'⟩ := other
          rcases first.ordered first' with rfl | earlier | earlier
          · exact ih rest'
          · have inside := (Reaches.later rest).2.trans (earlier.trans (Reaches.later rest').1)
            exact .inr (.inr (.inl inside))
          · have inside := (Reaches.later rest').2.trans (earlier.trans (Reaches.later rest).1)
            exact .inr (.inr (.inr inside))

end Moment
end ConstLang
