import ConstLang.Arithmetic
import ConstLang.Proofs.Renaming.Tree

/-!
Operations under a renaming. An operation makes of renamed operands the renamed result,
if the identity that it is given is renamed too.
-/

namespace ConstLang

open Renaming

variable (ρ : Renaming)

/-- A new number is renamed by renaming its identity. -/
theorem ofNumber_rename (id : Nat) (r : Except Mishap Number) :
    (r >>= fun n => pure (Value.ofNumber (ρ.identity id) n)) =
      (r >>= fun n => pure (Value.ofNumber id n)).map (Value.rename ρ) := by
  cases r <;> simp [bind, Except.bind, Except.map, pure, Except.pure]

namespace Arithmetic

theorem add_rename (id : Nat) (x y : Value) :
    add (ρ.identity id) (x.rename ρ) (y.rename ρ) = (add id x y).map (Value.rename ρ) := by
  cases x with
  | text _ => cases y <;> rfl
  | list _ | tuple _ => cases y <;> simp [add, Value.number?, Except.map]
  | bool _ | int _ | float _ | nan _ =>
      cases y with
      | bool _ | int _ | float _ | nan _ => exact ofNumber_rename ρ id _
      | _ => rfl
  | _ => cases y <;> rfl

theorem negate_rename (id : Nat) (x : Value) :
    negate (ρ.identity id) (x.rename ρ) = (negate id x).map (Value.rename ρ) := by
  simp only [negate, Value.number?_rename]
  cases x.number? <;> simp [Except.map]

theorem subtract_rename (id : Nat) (x y : Value) :
    subtract (ρ.identity id) (x.rename ρ) (y.rename ρ) =
      (subtract id x y).map (Value.rename ρ) := by
  simp only [subtract, Value.strictNumber?_rename]
  split
  · exact ofNumber_rename ρ id _
  · exact negate_rename ρ id x

theorem repeatText_rename (s : String) (i : Int) :
    (repeatText s i).map (Value.rename ρ) = repeatText s i := by
  simp only [repeatText]
  cases repetitions i with
  | error e => rfl
  | ok n =>
      simp only [bind, Except.bind]
      split
      · rfl
      · cases holdable s.length n <;> rfl

theorem repeatItems_rename (xs : List Value) (i : Int) :
    repeatItems (xs.map (Value.rename ρ)) i =
      (repeatItems xs i).map (List.map (Value.rename ρ)) := by
  simp only [repeatItems, List.length_map, List.isEmpty_map, bind, Except.bind]
  cases repetitions i with
  | error e => rfl
  | ok n =>
      dsimp only
      generalize holdable xs.length n = r
      cases r with
      | error e => rfl
      | ok _ => cases xs <;> simp [pure, Except.pure, Except.map, List.map_flatten]

theorem wrapped_repeat_rename (wrap : List Value → Value)
    (h : ∀ xs, (wrap xs).rename ρ = wrap (renameItems ρ xs)) (xs : List Value) (i : Int) :
    (do return wrap (← repeatItems (renameItems ρ xs) i)) =
      (do return wrap (← repeatItems xs i)).map (Value.rename ρ) := by
  rw [renameItems_eq_map, repeatItems_rename]
  exact mishap_bind _ fun ys => by simp [pure, Except.pure, Except.map, h]

theorem multiply_rename (id : Nat) (x y : Value) :
    multiply (ρ.identity id) (x.rename ρ) (y.rename ρ) =
      (multiply id x y).map (Value.rename ρ) := by
  cases x with
  | text _ =>
      cases y with
      | bool _ | int _ => exact (repeatText_rename ρ _ _).symm
      | _ => rfl
  | list _ =>
      cases y with
      | bool _ | int _ => exact wrapped_repeat_rename ρ .list (fun _ => rfl) _ _
      | _ => rfl
  | tuple _ =>
      cases y with
      | bool _ | int _ => exact wrapped_repeat_rename ρ .tuple (fun _ => rfl) _ _
      | _ => rfl
  | bool _ | int _ =>
      cases y with
      | bool _ | int _ | float _ | nan _ => exact ofNumber_rename ρ id _
      | text _ => exact (repeatText_rename ρ _ _).symm
      | list _ => exact wrapped_repeat_rename ρ .list (fun _ => rfl) _ _
      | tuple _ => exact wrapped_repeat_rename ρ .tuple (fun _ => rfl) _ _
      | _ => rfl
  | float _ | nan _ =>
      cases y with
      | bool _ | int _ | float _ | nan _ => exact ofNumber_rename ρ id _
      | _ => rfl
  | _ => cases y <;> rfl

theorem divideByZero_rename (x : Value) (zero : Number) :
    divideByZero (x.rename ρ) zero = (divideByZero x zero).map (Value.rename ρ) := by
  simp only [divideByZero, Value.number?_rename]
  split
  · rfl
  · split <;> rfl

theorem divide_rename (id : Nat) (x y : Value) :
    divide (ρ.identity id) (x.rename ρ) (y.rename ρ) = (divide id x y).map (Value.rename ρ) := by
  simp only [divide, Value.number?_rename]
  split
  · rfl
  · split
    · exact divideByZero_rename ρ x _
    · split
      · rfl
      · exact ofNumber_rename ρ id _

@[simp] theorem toDouble_rename (x : Value) : toDouble (x.rename ρ) = toDouble x := by
  simp [toDouble]

theorem remainder_rename (id : Nat) (x y : Value) :
    remainder (ρ.identity id) (x.rename ρ) (y.rename ρ) =
      (remainder id x y).map (Value.rename ρ) := by
  simp only [remainder, toDouble_rename, Value.number?_rename, Value.integer?_rename, bind,
    Except.bind]
  split
  · rfl
  · split
    · rfl
    · generalize toDouble x = a, toDouble y = b
      rcases a with _ | a <;> rcases b with _ | b <;> try rfl
      rcases a with _ | a <;> rcases b with _ | b <;> try rfl
      dsimp only
      cases a.rem? b <;> rfl

mutual

theorem order_rename (r : Relation) : ∀ x y : Value,
    order r (x.rename ρ) (y.rename ρ) = order r x y
  | .list xs, y | .tuple xs, y => by
      cases y <;> simp [order, Value.number?, orderItems_rename r xs]
  | .text _, y | .node _, y | .dict _, y | .nan _, y | .primitive _ _ _, y | .function _ _ _, y
  | .marker _ _, y | .null, y | .undefined, y | .uninitialized, y | .bool _, y | .int _, y
  | .float _, y | .operation _, y => by cases y <;> rfl

theorem orderItems_rename (r : Relation) : ∀ xs ys : List Value,
    orderItems r (xs.map (Value.rename ρ)) (ys.map (Value.rename ρ)) = orderItems r xs ys
  | [], ys => by simp [orderItems]
  | x :: xs, [] => by simp [orderItems]
  | x :: xs, y :: ys => by
      simp only [List.map_cons, orderItems, Value.same_rename, orderItems_rename r xs ys,
        order_rename r x y]

end

end Arithmetic

namespace Operation

@[simp] theorem errorText_rename (value message : Value) :
    errorText (value.rename ρ) (message.rename ρ) = errorText value message := by
  have shown := message.label_rename ρ
  cases message <;> simp_all [errorText]

theorem compute_rename (op : Operation) (id : Nat) (args : List Value) :
    op.compute (ρ.identity id) (args.map (Value.rename ρ)) =
      (op.compute id args).map (Value.rename ρ) := by
  have compared (r : Except Mishap Bool) :
      (do return Value.bool (← r)) = (do return Value.bool (← r) : Except Mishap Value).map
        (Value.rename ρ) := by
    cases r <;> rfl
  rcases args with _ | ⟨x, _ | ⟨y, _ | ⟨z, rest⟩⟩⟩
  · cases op <;> rfl
  · cases op with
    | subtract => exact Arithmetic.subtract_rename ρ id x .null
    | not | isNumber => simp [compute, Except.map]
    | render =>
        simp only [List.map_cons, List.map_nil, compute, Value.display_rename]
        cases x.display <;> rfl
    | _ => rfl
  · cases op with
    | add => exact Arithmetic.add_rename ρ id x y
    | subtract => exact Arithmetic.subtract_rename ρ id x y
    | multiply => exact Arithmetic.multiply_rename ρ id x y
    | divide => exact Arithmetic.divide_rename ρ id x y
    | remainder => exact Arithmetic.remainder_rename ρ id x y
    | equal | unequal => simp [compute, Except.map]
    | less | lessEq | greater | greaterEq =>
        simp only [List.map_cons, List.map_nil, compute, Arithmetic.order_rename]
        exact compared _
    | bindTo => simp [compute, Except.map, Value.bindTo_rename]
    | _ => rfl
  · cases op <;> rfl

end Operation

/-- What an operation makes, renamed; the text it writes shows no identity. -/
def Effect.rename (e : Effect) : Effect := { e with value := e.value.rename ρ }

theorem Operation.perform_rename (op : Operation) (id : Nat) (args : List Value) :
    op.perform (ρ.identity id) (args.map (Value.rename ρ)) =
      ρ.result (Effect.rename ρ) (op.perform id args) := by
  have computed : (do return { value := ← liftMishap (op.compute (ρ.identity id)
        (args.map (Value.rename ρ))) } : Except Fault Effect) =
      ρ.result (Effect.rename ρ) (do return { value := ← liftMishap (op.compute id args) }) := by
    rw [compute_rename, result_liftMishap ρ]
    exact result_bind _ fun v => rfl
  have gaveUp (value message : Value) : (do .error (.program (← liftMishap (errorText
        (value.rename ρ) (message.rename ρ)))) : Except Fault Effect) =
      ρ.result (Effect.rename ρ)
        (do .error (.program (← liftMishap (errorText value message)))) := by
    rw [errorText_rename]
    cases errorText value message <;> rfl
  cases op with
  | display =>
      rcases args with _ | ⟨x, _ | ⟨y, rest⟩⟩
      · exact computed
      · simp only [List.map_cons, List.map_nil, perform, Value.display_rename]
        cases x.display <;> rfl
      · exact computed
  | error =>
      rcases args with _ | ⟨x, _ | ⟨y, _ | ⟨z, rest⟩⟩⟩
      · exact computed
      · exact gaveUp x .null
      · exact gaveUp x y
      · exact computed
  | _ => exact computed

end ConstLang
