import ConstLang.Run

/-!
Subtraction and negation. One operation is both: it subtracts two strict numbers, and in any other
case it negates its first operand and leaves the second aside. Sums and negations take truth values
for integers and subtraction does not, so that a difference is undone by a sum for integers only.
-/

namespace ConstLang

section Call

variable {β : Type}

theorem Operation.perform_of_computes {op : Operation} (display : op ≠ .display)
    (error : op ≠ .error) (id : Nat) (args : List Value) :
    op.perform id args = do return { value := ← liftMishap (op.compute id args) } := by
  unfold Operation.perform
  split
  · exact absurd rfl display
  · exact absurd rfl error
  · exact absurd rfl error
  · rfl

/-- An operation that only computes leaves no trace but the identity it was given. -/
theorem call_of_computes (exec : β → Env → Eval β Value) {op : Operation} (display : op ≠ .display)
    (error : op ≠ .error) (args : List Value) (i : Nat) (name : Value) (m : Memory β) :
    call exec (.primitive i name op) args m =
      match op.compute m.serial args with
      | .ok v => .ok v m.fresh.2
      | .error e => .error (.mishap e) m.fresh.2 := by
  change (Eval.ofExcept (op.perform m.serial args) >>= _) m.fresh.2 = _
  rw [Operation.perform_of_computes display error]
  cases op.compute m.serial args <;> rfl

end Call

namespace Arithmetic

variable {x y : Value} {a b : Int} {id : Nat}

theorem negate_integer (h : x.integer? = some a) : negate id x = .ok (.int (-a)) := by
  cases x <;> cases h <;> rfl

theorem add_int_integer (h : y.integer? = some b) : add id (.int a) y = .ok (.int (a + b)) := by
  cases y <;> cases h <;> rfl

theorem add_int_of_not_number (h : y.number? = none) : add id (.int a) y = .error .kind := by
  cases y <;> first | rfl | cases h

/-- Both operands are integers, and none is a truth value. -/
def BothIntegers (x y : Value) : Prop := ∃ a b, x = .int a ∧ y = .int b

theorem subtract_integers (a b : Int) : subtract id (.int a) (.int b) = .ok (.int (a - b)) := rfl

theorem subtract_null (x : Value) : subtract id x .null = negate id x := by
  cases x <;> rfl

/-- Where it does not subtract, the operation negates. -/
theorem subtract_eq_negate (whole : x.integer? = some a)
    (noDouble : y.number?.isSome → y.integer?.isSome) (h : ¬ BothIntegers x y) :
    subtract id x y = negate id x := by
  cases x with
  | bool _ => rfl
  | int i =>
      cases y with
      | int j => exact absurd ⟨i, j, rfl, rfl⟩ h
      | float _ | nan _ => cases noDouble rfl
      | _ => rfl
  | _ => cases whole

/-- An integer is the same as an integer or truth value that stands for it. -/
theorem int_same_iff (whole : x.integer? = some a) : (Value.int b).same x ↔ b = a := by
  cases x <;> simp_all [Value.integer?, Value.same, Value.number?, Number.equal, Number.compare?]

end Arithmetic

section Sum

variable {β : Type} (exec : β → Env → Eval β Value)

theorem call_add (d : Int) (y : Value) (i : Nat) (name : Value) (m : Memory β) :
    call exec (.primitive i name .add) [.int d, y] m =
      match Arithmetic.add m.serial (.int d) y with
      | .ok v => .ok v m.fresh.2
      | .error e => .error (.mishap e) m.fresh.2 :=
  call_of_computes exec (by decide) (by decide) _ i name m

theorem call_subtract (x y : Value) (i : Nat) (name : Value) (m : Memory β) :
    call exec (.primitive i name .subtract) [x, y] m =
      match Arithmetic.subtract m.serial x y with
      | .ok v => .ok v m.fresh.2
      | .error e => .error (.mishap e) m.fresh.2 :=
  call_of_computes exec (by decide) (by decide) _ i name m

/-- With one operand there is nothing to subtract. -/
theorem call_negate (x : Value) (i : Nat) (name : Value) (m : Memory β) :
    call exec (.primitive i name .subtract) [x] m =
      match Arithmetic.negate m.serial x with
      | .ok v => .ok v m.fresh.2
      | .error e => .error (.mishap e) m.fresh.2 := by
  rw [← Arithmetic.subtract_null]
  exact call_of_computes exec (by decide) (by decide) _ i name m

/-- The sum of a number and the second value can be formed, and is the same as the first value. -/
def SumIs (d : Int) (y x : Value) : Prop :=
  ∀ i name m, ∃ s, call exec (.primitive i name .add) [.int d, y] m = .ok s m.fresh.2 ∧
    s.same x = true

variable {exec : β → Env → Eval β Value} {x y : Value} {a d : Int}

/-- The sum can be formed if the second value is an integer or a truth value. -/
theorem sumIs_iff (whole : x.integer? = some a) (noDouble : y.number?.isSome → y.integer?.isSome) :
    SumIs exec d y x ↔ ∃ b, y.integer? = some b ∧ d + b = a := by
  constructor
  · intro sum
    obtain ⟨s, formed, same⟩ := sum 0 .null {}
    rw [call_add] at formed
    cases integer : y.integer? with
    | none =>
        have number : y.number? = none := by
          rw [integer] at noDouble
          exact Option.not_isSome_iff_eq_none.mp fun some => by cases noDouble some
        rw [Arithmetic.add_int_of_not_number number] at formed
        cases formed
    | some b =>
        rw [Arithmetic.add_int_integer integer] at formed
        cases formed
        exact ⟨b, rfl, (Arithmetic.int_same_iff whole).mp same⟩
  · rintro ⟨b, integer, total⟩ i name m
    refine ⟨.int (d + b), ?_, (Arithmetic.int_same_iff whole).mpr total⟩
    rw [call_add, Arithmetic.add_int_integer integer]

end Sum

/-- On an integer or truth value and a second value that is no double, the operation always yields
an integer. If both are integers it is their difference, since adding the second gives the first
again. In any other case the second is left aside, as if it had not been there, and the first is
negated. Then adding the second gives the first again only if it happens to stand for twice as much,
and the sum cannot be formed if the second is no number. -/
theorem subtraction_needs_two_integers {β : Type} (exec : β → Env → Eval β Value) {x y : Value}
    {a : Int} (whole : x.integer? = some a) (noDouble : y.number?.isSome → y.integer?.isSome) :
    ∃ d : Int,
      (∀ i name m, call exec (.primitive i name .subtract) [x, y] m = .ok (.int d) m.fresh.2) ∧
      (Arithmetic.BothIntegers x y → SumIs exec d y x) ∧
      (¬ Arithmetic.BothIntegers x y → d = -a ∧
        (∀ i name m, call exec (.primitive i name .subtract) [x] m = .ok (.int d) m.fresh.2) ∧
        (SumIs exec d y x ↔ y.integer? = some (2 * a)) ∧
        (y.number? = none → ∀ i name m,
          call exec (.primitive i name .add) [.int d, y] m = .error (.mishap .kind) m.fresh.2)) := by
  by_cases both : Arithmetic.BothIntegers x y
  · obtain ⟨a, b, rfl, rfl⟩ := both
    refine ⟨a - b, fun i name m => ?_, fun _ => ?_, fun h => absurd ⟨a, b, rfl, rfl⟩ h⟩
    · rw [call_subtract, Arithmetic.subtract_integers]
    · exact (sumIs_iff rfl noDouble).mpr ⟨b, rfl, Int.sub_add_cancel a b⟩
  · refine ⟨-a, fun i name m => ?_, fun h => absurd h both, fun _ => ⟨rfl, ?_, ?_, ?_⟩⟩
    · rw [call_subtract, Arithmetic.subtract_eq_negate whole noDouble both,
        Arithmetic.negate_integer whole]
    · intro i name m
      rw [call_negate, Arithmetic.negate_integer whole]
    · rw [sumIs_iff whole noDouble]
      constructor
      · rintro ⟨b, integer, total⟩
        rw [integer]
        congr 1
        omega
      · intro integer
        exact ⟨2 * a, integer, by omega⟩
    · intro number i name m
      rw [call_add, Arithmetic.add_int_of_not_number number]

theorem subtraction_needs_two_integers_beside_text :
    ((Value.int 5).integer? = some 5 ∧
        ((Value.text "a").number?.isSome → (Value.text "a").integer?.isSome)) ∧
      call (run 9) (.primitive 3 (.text "-") .subtract) [.int 5, .text "a"] {} =
        call (run 9) (.primitive 3 (.text "-") .subtract) [.int 5] {} ∧
      ¬ SumIs (run 9) (-5) (.text "a") (.int 5) ∧
      (∃ d, call (run 9) (.primitive 3 (.text "-") .subtract) [.int 3, .int 8] {} =
          .ok (.int d) { serial := 1 } ∧ SumIs (run 9) d (.int 8) (.int 3)) ∧
      SumIs (run 9) (-1) (.int 2) (.bool true) := by
  have whole (i : Int) : (Value.int i).integer? = some i := rfl
  have truth : (Value.bool true).integer? = some 1 := rfl
  have text : (Value.text "a").number?.isSome → (Value.text "a").integer?.isSome := nofun
  have strict (i : Int) : (Value.int i).number?.isSome → (Value.int i).integer?.isSome :=
    fun _ => rfl
  obtain ⟨_, two, -, others⟩ := subtraction_needs_two_integers (run 9) (whole 5) text
  obtain ⟨rfl, one, sum, -⟩ := others (by rintro ⟨_, _, -, second⟩; cases second)
  obtain ⟨d, ended, difference, -⟩ :=
    subtraction_needs_two_integers (run 9) (whole 3) (strict 8)
  obtain ⟨_, -, -, others'⟩ := subtraction_needs_two_integers (run 9) truth (strict 2)
  obtain ⟨rfl, -, sum', -⟩ := others' (by rintro ⟨_, _, first, -⟩; cases first)
  refine ⟨⟨rfl, text⟩, (two 3 _ {}).trans (one 3 _ {}).symm, fun h => ?_, ?_, sum'.mpr rfl⟩
  · cases sum.mp h
  · exact ⟨d, ended 3 _ {}, difference ⟨3, 8, rfl, rfl⟩⟩

/-- The operation refuses the operands, or adding the second one to what it yields gives the first. -/
def Undone {β : Type} (exec : β → Env → Eval β Value) (x y : Value) : Prop :=
  ∀ i name m,
    call exec (.primitive i name .subtract) [x, y] m = .error (.mishap .kind) m.fresh.2 ∨
      ∃ d, call exec (.primitive i name .subtract) [x, y] m = .ok (.int d) m.fresh.2 ∧
        SumIs exec d y x

theorem subtraction_leaves_text_and_truth_value_aside :
    ¬ Undone (run 9) (.int 5) (.text "a") ∧ ¬ Undone (run 9) (.int 5) (.bool true) ∧
      ¬ Undone (run 9) (.bool true) (.int 1) := by
  have negated {x y : Value} {a : Int} (whole : x.integer? = some a)
      (noDouble : y.number?.isSome → y.integer?.isSome)
      (ended : ∀ id, Arithmetic.subtract id x y = .ok (.int (-a)))
      (apart : ∀ b, y.integer? = some b → -a + b ≠ a) : ¬ Undone (run 9) x y := by
    intro undone
    have here := undone 0 .null {}
    rw [call_subtract, ended] at here
    rcases here with refused | ⟨d, yielded, sum⟩
    · cases refused
    · cases yielded
      obtain ⟨b, integer, total⟩ := (sumIs_iff whole noDouble).mp sum
      exact apart b integer total
  refine ⟨negated rfl nofun (fun _ => rfl) nofun, negated rfl (fun _ => rfl) (fun _ => rfl) ?_,
    negated rfl (fun _ => rfl) (fun _ => rfl) ?_⟩
  · intro b integer
    cases integer
    decide
  · intro b integer
    cases integer
    decide

end ConstLang
