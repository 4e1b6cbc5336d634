import ConstLang.Proofs.Outcome

/-!
Properties of values and of everything inside them. Operations take values apart and
put them together, but make no function and no marker, so what they make has any
property that their operands have throughout and that only functions and markers can
lack.
-/

namespace ConstLang

mutual

/-- The property holds of the value and of every value inside it. -/
def Value.Every (P : Value → Prop) : Value → Prop
  | .list xs => P (.list xs) ∧ EveryItem P xs
  | .tuple xs => P (.tuple xs) ∧ EveryItem P xs
  | .dict es => P (.dict es) ∧ EveryEntry P es
  | .node n => P (.node n) ∧ n.Every P
  | .primitive id name op => P (.primitive id name op) ∧ name.Every P
  | .function id params locals =>
      P (.function id params locals) ∧ EveryItem P params ∧ EveryItem P locals
  | .marker id content => P (.marker id content) ∧ content.Every P
  | v => P v

def EveryItem (P : Value → Prop) : List Value → Prop
  | [] => True
  | x :: xs => x.Every P ∧ EveryItem P xs

def EveryEntry (P : Value → Prop) : List (Value × Value) → Prop
  | [] => True
  | (key, x) :: es => key.Every P ∧ x.Every P ∧ EveryEntry P es

def Node.Every (P : Value → Prop) : Node → Prop
  | .literal v => v.Every P
  | .name _ => True
  | .declaration x v => x.Every P ∧ v.Every P
  | .conditional p c a => p.Every P ∧ c.Every P ∧ a.Every P
  | .function ps b => ps.Every P ∧ b.Every P
  | .sequence ss => ss.Every P
  | .block b => b.Every P
  | .returning e => e.Every P
  | .application f xs => f.Every P ∧ xs.Every P

end

theorem everyItem_iff {P : Value → Prop} {xs : List Value} :
    EveryItem P xs ↔ ∀ x ∈ xs, x.Every P := by
  induction xs with
  | nil => simp [EveryItem]
  | cons x xs ih => simp [EveryItem, ih]

theorem everyEntry_iff {P : Value → Prop} {es : List (Value × Value)} :
    EveryEntry P es ↔ ∀ e ∈ es, e.1.Every P ∧ e.2.Every P := by
  induction es with
  | nil => simp [EveryEntry]
  | cons e es ih => simp [EveryEntry, ih, and_assoc]

mutual

theorem Value.Every.imp {P Q : Value → Prop} (h : ∀ v, P v → Q v) :
    ∀ {v : Value}, v.Every P → v.Every Q
  | .list _, hv | .tuple _, hv => ⟨h _ hv.1, EveryItem.imp h hv.2⟩
  | .dict _, hv => ⟨h _ hv.1, EveryEntry.imp h hv.2⟩
  | .node _, hv => ⟨h _ hv.1, Node.Every.imp h hv.2⟩
  | .primitive _ _ _, hv | .marker _ _, hv => ⟨h _ hv.1, Value.Every.imp h hv.2⟩
  | .function _ _ _, hv => ⟨h _ hv.1, EveryItem.imp h hv.2.1, EveryItem.imp h hv.2.2⟩
  | .null, hv | .undefined, hv | .uninitialized, hv | .bool _, hv | .int _, hv | .float _, hv
  | .nan _, hv | .text _, hv | .operation _, hv => h _ hv

theorem EveryItem.imp {P Q : Value → Prop} (h : ∀ v, P v → Q v) :
    ∀ {xs : List Value}, EveryItem P xs → EveryItem Q xs
  | [], _ => trivial
  | _ :: _, hv => ⟨Value.Every.imp h hv.1, EveryItem.imp h hv.2⟩

theorem EveryEntry.imp {P Q : Value → Prop} (h : ∀ v, P v → Q v) :
    ∀ {es : List (Value × Value)}, EveryEntry P es → EveryEntry Q es
  | [], _ => trivial
  | (_, _) :: _, hv =>
      ⟨Value.Every.imp h hv.1, Value.Every.imp h hv.2.1, EveryEntry.imp h hv.2.2⟩

theorem Node.Every.imp {P Q : Value → Prop} (h : ∀ v, P v → Q v) :
    ∀ {n : Node}, n.Every P → n.Every Q
  | .name _, _ => trivial
  | .literal _, hn | .sequence _, hn | .block _, hn | .returning _, hn => Value.Every.imp h hn
  | .declaration _ _, hn | .function _ _, hn | .application _ _, hn =>
      ⟨Value.Every.imp h hn.1, Value.Every.imp h hn.2⟩
  | .conditional _ _ _, hn =>
      ⟨Value.Every.imp h hn.1, Value.Every.imp h hn.2.1, Value.Every.imp h hn.2.2⟩

end

mutual

theorem Value.Every.and {P Q : Value → Prop} :
    ∀ {v : Value}, v.Every P → v.Every Q → v.Every fun w => P w ∧ Q w
  | .list _, h, h' | .tuple _, h, h' => ⟨⟨h.1, h'.1⟩, EveryItem.and h.2 h'.2⟩
  | .dict _, h, h' => ⟨⟨h.1, h'.1⟩, EveryEntry.and h.2 h'.2⟩
  | .node _, h, h' => ⟨⟨h.1, h'.1⟩, Node.Every.and h.2 h'.2⟩
  | .primitive _ _ _, h, h' | .marker _ _, h, h' => ⟨⟨h.1, h'.1⟩, Value.Every.and h.2 h'.2⟩
  | .function _ _ _, h, h' =>
      ⟨⟨h.1, h'.1⟩, EveryItem.and h.2.1 h'.2.1, EveryItem.and h.2.2 h'.2.2⟩
  | .null, h, h' | .undefined, h, h' | .uninitialized, h, h' | .bool _, h, h' | .int _, h, h'
  | .float _, h, h' | .nan _, h, h' | .text _, h, h' | .operation _, h, h' => ⟨h, h'⟩

theorem EveryItem.and {P Q : Value → Prop} :
    ∀ {xs : List Value}, EveryItem P xs → EveryItem Q xs → EveryItem (fun w => P w ∧ Q w) xs
  | [], _, _ => trivial
  | _ :: _, h, h' => ⟨Value.Every.and h.1 h'.1, EveryItem.and h.2 h'.2⟩

theorem EveryEntry.and {P Q : Value → Prop} : ∀ {es : List (Value × Value)},
    EveryEntry P es → EveryEntry Q es → EveryEntry (fun w => P w ∧ Q w) es
  | [], _, _ => trivial
  | (_, _) :: _, h, h' =>
      ⟨Value.Every.and h.1 h'.1, Value.Every.and h.2.1 h'.2.1, EveryEntry.and h.2.2 h'.2.2⟩

theorem Node.Every.and {P Q : Value → Prop} :
    ∀ {n : Node}, n.Every P → n.Every Q → n.Every fun w => P w ∧ Q w
  | .name _, _, _ => trivial
  | .literal v, h, h' | .sequence v, h, h' | .block v, h, h' | .returning v, h, h' =>
      Value.Every.and (v := v) h h'
  | .declaration _ _, h, h' | .function _ _, h, h' | .application _ _, h, h' =>
      ⟨Value.Every.and h.1 h'.1, Value.Every.and h.2 h'.2⟩
  | .conditional _ _ _, h, h' =>
      ⟨Value.Every.and h.1 h'.1, Value.Every.and h.2.1 h'.2.1, Value.Every.and h.2.2 h'.2.2⟩

end

mutual

theorem Value.every_of_forall {P : Value → Prop} (h : ∀ v, P v) : ∀ v : Value, v.Every P
  | .list xs | .tuple xs => ⟨h _, everyItem_of_forall h xs⟩
  | .dict es => ⟨h _, everyEntry_of_forall h es⟩
  | .node n => ⟨h _, Node.every_of_forall h n⟩
  | .primitive _ v _ | .marker _ v => ⟨h _, Value.every_of_forall h v⟩
  | .function _ ps ls => ⟨h _, everyItem_of_forall h ps, everyItem_of_forall h ls⟩
  | .null | .undefined | .uninitialized | .bool _ | .int _ | .float _ | .nan _ | .text _
  | .operation _ => h _

theorem everyItem_of_forall {P : Value → Prop} (h : ∀ v, P v) : ∀ xs : List Value, EveryItem P xs
  | [] => trivial
  | x :: xs => ⟨Value.every_of_forall h x, everyItem_of_forall h xs⟩

theorem everyEntry_of_forall {P : Value → Prop} (h : ∀ v, P v) :
    ∀ es : List (Value × Value), EveryEntry P es
  | [] => trivial
  | (key, x) :: es =>
      ⟨Value.every_of_forall h key, Value.every_of_forall h x, everyEntry_of_forall h es⟩

theorem Node.every_of_forall {P : Value → Prop} (h : ∀ v, P v) : ∀ n : Node, n.Every P
  | .name _ => trivial
  | .literal v | .sequence v | .block v | .returning v => Value.every_of_forall h v
  | .declaration v w | .function v w | .application v w =>
      ⟨Value.every_of_forall h v, Value.every_of_forall h w⟩
  | .conditional p c a =>
      ⟨Value.every_of_forall h p, Value.every_of_forall h c, Value.every_of_forall h a⟩

end

namespace Value

/-- Functions, markers and what stands for a missing value, which evaluation itself makes. -/
def isMade : Value → Bool
  | .function _ _ _ | .marker _ _ | .uninitialized => true
  | _ => false

def isFunction : Value → Bool
  | .function _ _ _ => true
  | _ => false

variable {P : Value → Prop} (routine : ∀ v : Value, v.isMade = false → P v)

include routine

theorem every_ofNumber (id : Nat) (n : Number) : (ofNumber id n).Every P := by
  cases n <;> exact routine _ rfl

theorem every_newNumber {r : Except Mishap Number} {id : Nat} {v : Value}
    (h : (do return ofNumber id (← r)) = .ok v) : v.Every P := by
  obtain ⟨n, -, hn⟩ := except_bind_eq_ok.mp h
  rw [except_pure_eq_ok.mp hn]
  exact every_ofNumber routine id n

theorem every_bindTo {v name : Value} (hv : v.Every P) (hn : name.Every P) (id : Nat) :
    (v.bindTo id name).Every P := by
  cases v with
  | operation op =>
      refine ⟨routine _ rfl, ?_⟩
      split
      · exact hn
      · exact routine _ rfl
  | _ => exact hv

omit routine in
theorem every_repeatItems {xs ys : List Value} {i : Int} (hx : EveryItem P xs)
    (h : Arithmetic.repeatItems xs i = .ok ys) : EveryItem P ys := by
  simp only [Arithmetic.repeatItems, except_bind_eq_ok, except_pure_eq_ok] at h
  obtain ⟨n, -, _, -, rfl⟩ := h
  rw [everyItem_iff] at *
  split
  · simp
  · simp only [List.mem_flatten, List.mem_replicate]
    rintro x ⟨_, ⟨-, rfl⟩, hmem⟩
    exact hx x hmem

omit routine in
theorem every_repeated {wrap : List Value → Value} {xs : List Value} {i : Int} {v : Value}
    (hwrap : ∀ {ys}, EveryItem P ys → (wrap ys).Every P) (hx : EveryItem P xs)
    (h : (do return wrap (← Arithmetic.repeatItems xs i)) = .ok v) : v.Every P := by
  obtain ⟨ys, hys, hv⟩ := except_bind_eq_ok.mp h
  rw [except_pure_eq_ok.mp hv]
  exact hwrap (every_repeatItems hx hys)

omit routine in
theorem everyItem_append {xs ys : List Value} (hx : EveryItem P xs) (hy : EveryItem P ys) :
    EveryItem P (xs ++ ys) := by
  rw [everyItem_iff] at *
  intro x h
  exact (List.mem_append.mp h).elim (hx x) (hy x)

theorem every_add {x y v : Value} {id : Nat} (hx : x.Every P) (hy : y.Every P)
    (h : Arithmetic.add id x y = .ok v) : v.Every P := by
  unfold Arithmetic.add at h
  split at h
  · cases h
    exact routine _ rfl
  · cases h
    exact ⟨routine _ rfl, everyItem_append hx.2 hy.2⟩
  · cases h
    exact ⟨routine _ rfl, everyItem_append hx.2 hy.2⟩
  · split at h
    · exact every_newNumber routine h
    · cases h

theorem every_subtract {x y v : Value} {id : Nat} (h : Arithmetic.subtract id x y = .ok v) :
    v.Every P := by
  unfold Arithmetic.subtract Arithmetic.negate at h
  split at h
  · exact every_newNumber routine h
  · split at h
    · cases h
      exact every_ofNumber routine id _
    · cases h

theorem every_repeatText {s : String} {i : Int} {v : Value}
    (h : Arithmetic.repeatText s i = .ok v) : v.Every P := by
  simp only [Arithmetic.repeatText, except_bind_eq_ok] at h
  obtain ⟨n, -, h⟩ := h
  split at h
  · cases h
  · obtain ⟨-, -, h⟩ := except_bind_eq_ok.mp h
    rw [except_pure_eq_ok.mp h]
    exact routine _ rfl

theorem every_multiply {x y v : Value} {id : Nat} (hx : x.Every P) (hy : y.Every P)
    (h : Arithmetic.multiply id x y = .ok v) : v.Every P := by
  have list {ys : List Value} (hys : EveryItem P ys) : (Value.list ys).Every P :=
    ⟨routine _ rfl, hys⟩
  have tuple {ys : List Value} (hys : EveryItem P ys) : (Value.tuple ys).Every P :=
    ⟨routine _ rfl, hys⟩
  unfold Arithmetic.multiply at h
  split at h
  · exact every_newNumber routine h
  · split at h
    · exact every_repeatText routine h
    · exact every_repeatText routine h
    · exact every_repeated list hx.2 h
    · exact every_repeated list hy.2 h
    · exact every_repeated tuple hx.2 h
    · exact every_repeated tuple hy.2 h
    · cases h

theorem every_divideByZero {x v : Value} {zero : Number}
    (h : Arithmetic.divideByZero x zero = .ok v) : v.Every P := by
  unfold Arithmetic.divideByZero at h
  split at h
  · cases h
  · cases h
    split <;> exact routine _ rfl

theorem every_divide {x y v : Value} {id : Nat} (h : Arithmetic.divide id x y = .ok v) :
    v.Every P := by
  unfold Arithmetic.divide at h
  split at h
  · cases h
  · split at h
    · exact every_divideByZero routine h
    · split at h
      · cases h
      · exact every_newNumber routine h

theorem every_remainder {x y v : Value} {id : Nat} (h : Arithmetic.remainder id x y = .ok v) :
    v.Every P := by
  unfold Arithmetic.remainder at h
  split at h
  · cases h
    exact routine _ rfl
  · split at h
    · cases h
      exact routine _ rfl
    · obtain ⟨a, -, h⟩ := except_bind_eq_ok.mp h
      obtain ⟨b, -, h⟩ := except_bind_eq_ok.mp h
      repeat' split at h
      all_goals cases h
      all_goals exact routine _ rfl

/-- What an operation makes has a routine property throughout, if its operands have. -/
theorem every_compute {op : Operation} {args : List Value} {v : Value} {id : Nat}
    (hargs : ∀ x ∈ args, x.Every P) (h : op.compute id args = .ok v) : v.Every P := by
  unfold Operation.compute at h
  split at h
  · exact every_add routine (hargs _ (by simp)) (hargs _ (by simp)) h
  · exact every_subtract routine h
  · exact every_subtract routine h
  · exact every_multiply routine (hargs _ (by simp)) (hargs _ (by simp)) h
  · exact every_divide routine h
  · exact every_remainder routine h
  case h_16 => cases h; exact every_bindTo routine (hargs _ (by simp)) (hargs _ (by simp)) id
  case h_17 => cases h
  all_goals first
    | cases h; exact routine _ rfl
    | obtain ⟨_, -, hv⟩ := except_bind_eq_ok.mp h
      rw [except_pure_eq_ok.mp hv]
      exact routine _ rfl

theorem every_perform {op : Operation} {args : List Value} {effect : Effect} {id : Nat}
    (hargs : ∀ x ∈ args, x.Every P) (h : op.perform id args = .ok effect) :
    effect.value.Every P := by
  unfold Operation.perform at h
  split at h
  · obtain ⟨_, -, he⟩ := except_bind_eq_ok.mp h
    rw [except_pure_eq_ok.mp he]
    exact hargs _ (by simp)
  · obtain ⟨_, -, he⟩ := except_bind_eq_ok.mp h
    cases he
  · obtain ⟨_, -, he⟩ := except_bind_eq_ok.mp h
    cases he
  · obtain ⟨v, hv, he⟩ := except_bind_eq_ok.mp h
    rw [except_pure_eq_ok.mp he]
    exact every_compute routine hargs (liftMishap_eq_ok.mp hv)

end Value
end ConstLang
