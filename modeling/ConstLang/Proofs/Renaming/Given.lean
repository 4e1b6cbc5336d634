import ConstLang.Proofs.Growth
import ConstLang.Proofs.Renaming.Operation
import ConstLang.Proofs.Value.Every

/-!
Identities that a memory gave out. A value has no other identities exactly if every
renaming that leaves those of the memory alone leaves the value alone. Whatever takes
renamed values to renamed results therefore makes, of values with given identities, a
value with given identities.
-/

namespace ConstLang

mutual

/-- The property holds of every value in the code, names included, and throughout. -/
def Code.Every (P : Value → Prop) : Code → Prop
  | .literal v => v.Every P
  | .name _ => True
  | .declare x c => x.Every P ∧ c.Every P
  | .select p c a => p.Every P ∧ c.Every P ∧ a.Every P
  | .close params locals body => EveryItem P params ∧ EveryItem P locals ∧ body.Every P
  | .sequence cs => EveryCode P cs
  | .enter locals body => EveryItem P locals ∧ body.Every P
  | .returning c => c.Every P
  | .apply f xs => f.Every P ∧ EveryCode P xs

def EveryCode (P : Value → Prop) : List Code → Prop
  | [] => True
  | c :: cs => c.Every P ∧ EveryCode P cs

end

theorem everyCode_iff {P : Value → Prop} {cs : List Code} :
    EveryCode P cs ↔ ∀ c ∈ cs, c.Every P := by
  induction cs with
  | nil => simp [EveryCode]
  | cons c cs ih => simp [EveryCode, ih]

mutual

theorem Code.Every.imp {P Q : Value → Prop} (h : ∀ v, P v → Q v) :
    ∀ {c : Code}, c.Every P → c.Every Q
  | .name _, _ => trivial
  | .literal _, hc => Value.Every.imp h hc
  | .declare _ _, hc => ⟨Value.Every.imp h hc.1, Code.Every.imp h hc.2⟩
  | .select _ _ _, hc => ⟨Code.Every.imp h hc.1, Code.Every.imp h hc.2.1, Code.Every.imp h hc.2.2⟩
  | .close _ _ _, hc => ⟨EveryItem.imp h hc.1, EveryItem.imp h hc.2.1, Code.Every.imp h hc.2.2⟩
  | .sequence _, hc => EveryCode.imp h hc
  | .enter _ _, hc => ⟨EveryItem.imp h hc.1, Code.Every.imp h hc.2⟩
  | .returning c, hc => Code.Every.imp h (c := c) hc
  | .apply _ _, hc => ⟨Code.Every.imp h hc.1, EveryCode.imp h hc.2⟩

theorem EveryCode.imp {P Q : Value → Prop} (h : ∀ v, P v → Q v) :
    ∀ {cs : List Code}, EveryCode P cs → EveryCode Q cs
  | [], _ => trivial
  | _ :: _, hc => ⟨Code.Every.imp h hc.1, EveryCode.imp h hc.2⟩

end

/-- The renaming leaves the identity of the value itself alone. -/
def Renaming.Fixes (ρ : Renaming) : Value → Prop
  | .nan (some id) | .primitive id _ _ | .marker id _ => ρ.identity id = id
  | .function id _ _ => ρ.closure id = id
  | _ => True

section Fixes

variable (ρ : Renaming)

mutual

theorem Value.rename_eq_self_iff : ∀ v : Value, v.rename ρ = v ↔ v.Every ρ.Fixes
  | .list xs | .tuple xs => by
      simp [Value.Every, Renaming.Fixes, ← renameItems_eq_self_iff xs]
  | .dict es => by simp [Value.Every, Renaming.Fixes, ← renameEntries_eq_self_iff es]
  | .node n => by simp [Value.Every, Renaming.Fixes, ← Node.rename_eq_self_iff n]
  | .primitive _ v _ | .marker _ v => by
      simp [Value.Every, Renaming.Fixes, ← Value.rename_eq_self_iff v]
  | .function _ ps ls => by
      simp [Value.Every, Renaming.Fixes, ← renameItems_eq_self_iff ps,
        ← renameItems_eq_self_iff ls]
  | .nan none | .nan (some _) | .null | .undefined | .uninitialized | .bool _ | .int _ | .float _
  | .text _ | .operation _ => by simp [Value.Every, Renaming.Fixes]

theorem renameItems_eq_self_iff : ∀ xs : List Value,
    xs.map (Value.rename ρ) = xs ↔ EveryItem ρ.Fixes xs
  | [] => by simp [EveryItem]
  | x :: xs => by
      simp [EveryItem, ← Value.rename_eq_self_iff x, ← renameItems_eq_self_iff xs]

theorem renameEntries_eq_self_iff : ∀ es : List (Value × Value),
    es.map (fun e => (e.1.rename ρ, e.2.rename ρ)) = es ↔ EveryEntry ρ.Fixes es
  | [] => by simp [EveryEntry]
  | (key, x) :: es => by
      simp [EveryEntry, and_assoc, ← Value.rename_eq_self_iff key, ← Value.rename_eq_self_iff x,
        ← renameEntries_eq_self_iff es]

theorem Node.rename_eq_self_iff : ∀ n : Node, n.rename ρ = n ↔ n.Every ρ.Fixes
  | .name _ => by simp [Node.Every]
  | .literal v | .sequence v | .block v | .returning v => by
      simp [Node.Every, ← Value.rename_eq_self_iff v]
  | .declaration v w | .function v w | .application v w => by
      simp [Node.Every, ← Value.rename_eq_self_iff v, ← Value.rename_eq_self_iff w]
  | .conditional p c a => by
      simp [Node.Every, ← Value.rename_eq_self_iff p, ← Value.rename_eq_self_iff c,
        ← Value.rename_eq_self_iff a]

end

mutual

theorem Code.rename_eq_self_iff : ∀ c : Code, c.rename ρ = c ↔ c.Every ρ.Fixes
  | .name _ => by simp [Code.Every, Code.rename]
  | .literal v => by simp [Code.Every, Code.rename, Value.rename_eq_self_iff]
  | .declare x c => by
      simp [Code.Every, Code.rename, Value.rename_eq_self_iff, ← Code.rename_eq_self_iff c]
  | .select p c a => by
      simp [Code.Every, Code.rename, ← Code.rename_eq_self_iff p, ← Code.rename_eq_self_iff c,
        ← Code.rename_eq_self_iff a]
  | .close ps ls b => by
      simp [Code.Every, Code.rename, renameItems_eq_self_iff, ← Code.rename_eq_self_iff b]
  | .sequence cs => by simp [Code.Every, Code.rename, ← renameAll_eq_self_iff cs]
  | .enter ls b => by
      simp [Code.Every, Code.rename, renameItems_eq_self_iff, ← Code.rename_eq_self_iff b]
  | .returning c => by simp [Code.Every, Code.rename, ← Code.rename_eq_self_iff c]
  | .apply f xs => by
      simp [Code.Every, Code.rename, ← Code.rename_eq_self_iff f, ← renameAll_eq_self_iff xs]

theorem renameAll_eq_self_iff : ∀ cs : List Code, renameAll ρ cs = cs ↔ EveryCode ρ.Fixes cs
  | [] => by simp [EveryCode, renameAll]
  | c :: cs => by
      simp [EveryCode, renameAll, ← Code.rename_eq_self_iff c, ← renameAll_eq_self_iff cs]

end

end Fixes

/-- The renaming that changes nothing. -/
def Renaming.same : Renaming where
  identity := id
  closure := id
  frame := id
  identity_injective := Function.injective_id
  closure_injective := Function.injective_id
  frame_injective := Function.injective_id

@[simp] theorem Value.rename_same (v : Value) : v.rename .same = v := by
  refine (v.rename_eq_self_iff _).mpr (v.every_of_forall fun w => ?_)
  cases w with
  | nan id => cases id <;> simp [Renaming.Fixes, Renaming.same]
  | _ => simp [Renaming.Fixes, Renaming.same]

@[simp] theorem Value.map_rename_same (vs : List Value) : vs.map (rename .same) = vs := by
  exact (List.map_congr_left fun v _ => Value.rename_same v).trans (List.map_id vs)

@[simp] theorem Fault.rename_same (e : Fault) : e.rename .same = e := by
  cases e <;> simp [rename]

/-- Moves the numbers from a base on. -/
def shift (base delta i : Nat) : Nat := if i < base then i else i + delta

theorem shift_of_lt {base delta i : Nat} (h : i < base) : shift base delta i = i := by
  simp [shift, h]

theorem shift_injective (base delta : Nat) : (shift base delta).Injective := by
  intro i j h
  simp only [shift] at h
  split at h <;> split at h <;> omega

theorem shift_add {base n : Nat} (h : base ≤ n) (k : Nat) :
    shift base (n - base) (base + k) = n + k := by
  simp only [shift]
  split <;> omega

/-- The renaming that keeps what one memory has given out, and goes on where another one does. -/
def Renaming.between (m m' : Memory Code) : Renaming where
  identity := shift m.serial (m'.serial - m.serial)
  closure := shift m.closures.size (m'.closures.size - m.closures.size)
  frame := shift m.frames.size (m'.frames.size - m.frames.size)
  identity_injective := shift_injective _ _
  closure_injective := shift_injective _ _
  frame_injective := shift_injective _ _

theorem Renaming.between_self (m : Memory Code) : between m m = same := by
  have still (base : Nat) : shift base 0 = id := by
    funext i
    simp [shift]
  simp [between, same, still]

section Given

variable {β α : Type} {m n : Memory β} {v : Value}

/-- The memory gave out the identity of the value itself, if it has one. -/
def Memory.Gave (m : Memory β) : Value → Prop
  | .nan (some id) | .primitive id _ _ | .marker id _ => id < m.serial
  | .function id _ _ => id < m.closures.size
  | _ => True

theorem Memory.Grows.gave {may : Nat → Value → Prop} (h : m.Grows may n) (v : Value)
    (hv : m.Gave v) : n.Gave v := by
  have closures : m.closures.size ≤ n.closures.size := by simpa using h.closures.length_le
  have serial := h.serial
  cases v with
  | nan id =>
      cases id with
      | none => trivial
      | some id => exact Nat.lt_of_lt_of_le hv serial
  | primitive _ _ _ | marker _ _ => exact Nat.lt_of_lt_of_le hv serial
  | function _ _ _ => exact Nat.lt_of_lt_of_le hv closures
  | _ => trivial

/-- The renaming leaves the identities that the memory gave out alone. -/
def Renaming.Leaves (ρ : Renaming) (m : Memory β) : Prop :=
  (∀ i < m.serial, ρ.identity i = i) ∧ ∀ i < m.closures.size, ρ.closure i = i

theorem Renaming.leaves_between (m m' : Memory Code) : (Renaming.between m m').Leaves m :=
  ⟨fun _ => shift_of_lt, fun _ => shift_of_lt⟩

theorem Renaming.Leaves.fixes {ρ : Renaming} (h : ρ.Leaves m) (v : Value) (hv : m.Gave v) :
    ρ.Fixes v := by
  cases v with
  | nan id =>
      cases id with
      | none => trivial
      | some id => exact h.1 id hv
  | primitive id _ _ | marker id _ => exact h.1 id hv
  | function id _ _ => exact h.2 id hv
  | _ => trivial

section Leaves

variable {ρ : Renaming} (leaves : ρ.Leaves m)

include leaves

theorem Renaming.Leaves.value_eq (h : v.Every m.Gave) : v.rename ρ = v :=
  (v.rename_eq_self_iff ρ).mpr (h.imp leaves.fixes)

theorem Renaming.Leaves.items_eq {xs : List Value} (h : ∀ x ∈ xs, x.Every m.Gave) :
    xs.map (Value.rename ρ) = xs :=
  (renameItems_eq_self_iff ρ xs).mpr (everyItem_iff.mpr fun x hx => (h x hx).imp leaves.fixes)

end Leaves

/-- The renaming that moves every identity beyond those that the memory gave out. -/
def Renaming.beyond (m : Memory β) : Renaming where
  identity := shift m.serial 1
  closure := shift m.closures.size 1
  frame := id
  identity_injective := shift_injective _ _
  closure_injective := shift_injective _ _
  frame_injective := Function.injective_id

theorem Renaming.leaves_beyond (m : Memory β) : (Renaming.beyond m).Leaves m :=
  ⟨fun _ => shift_of_lt, fun _ => shift_of_lt⟩

theorem Renaming.gave_of_fixes_beyond (v : Value) (h : (Renaming.beyond m).Fixes v) : m.Gave v := by
  have below {base id : Nat} (fixed : shift base 1 id = id) : id < base := by
    by_contra beyond
    simp [shift, beyond] at fixed
  cases v with
  | nan id =>
      cases id with
      | none => trivial
      | some id => exact below h
  | primitive _ _ _ | marker _ _ | function _ _ _ => exact below h
  | _ => trivial

/-- Nothing in it has an identity that the memory did not give out. -/
def Given (m : Memory β) (on : Renaming → α → α) (a : α) : Prop :=
  ∀ ρ : Renaming, ρ.Leaves m → on ρ a = a

theorem Value.every_of_given (h : Given m Value.rename v) : v.Every m.Gave :=
  ((v.rename_eq_self_iff _).mp (h _ (Renaming.leaves_beyond m))).imp Renaming.gave_of_fixes_beyond

theorem Code.every_of_given {c : Code} (h : Given m Code.rename c) : c.Every m.Gave :=
  ((c.rename_eq_self_iff _).mp (h _ (Renaming.leaves_beyond m))).imp Renaming.gave_of_fixes_beyond

theorem Node.every_of_given {n : Node} (h : Given m Node.rename n) :
    (Value.node n).Every m.Gave :=
  Value.every_of_given fun ρ leaves => congrArg Value.node (h ρ leaves)

/-- A result of given parts, by a function that takes renamed parts to a renamed result. -/
theorem given_of_ok {on : Renaming → α → α} {r : Except Fault α} {a : α}
    (h : ∀ ρ : Renaming, ρ.Leaves m → r = ρ.result (on ρ) r) (ok : r = .ok a) : Given m on a := by
  subst ok
  exact fun ρ leaves => (Except.ok.inj (h ρ leaves)).symm

theorem given_of_map_ok {on : Renaming → α → α} {r : Except Mishap α} {a : α}
    (h : ∀ ρ : Renaming, ρ.Leaves m → r = r.map (on ρ)) (ok : r = .ok a) : Given m on a := by
  subst ok
  exact fun ρ leaves => (Except.ok.inj (h ρ leaves)).symm

theorem Value.gave_analyze {c : Code} (h : v.Every m.Gave) (ok : v.analyze = .ok c) :
    c.Every m.Gave := by
  refine Code.every_of_given (given_of_ok (fun ρ leaves => ?_) ok)
  rw [← v.analyze_rename, leaves.value_eq h]

theorem Value.gave_read {n : Node} (h : v.Every m.Gave) (ok : v.read = .ok n) :
    (Value.node n).Every m.Gave := by
  refine Node.every_of_given (given_of_ok (fun ρ leaves => ?_) ok)
  rw [← v.read_rename, leaves.value_eq h]

theorem Value.gave_iterate {xs : List Value} (h : v.Every m.Gave) (ok : v.iterate = .ok xs) :
    ∀ x ∈ xs, x.Every m.Gave := by
  have fixed : Given m (fun ρ => List.map (Value.rename ρ)) xs := by
    refine given_of_map_ok (fun ρ leaves => ?_) ok
    rw [← v.iterate_rename, leaves.value_eq h]
  refine everyItem_iff.mp (EveryItem.imp Renaming.gave_of_fixes_beyond ?_)
  exact (renameItems_eq_self_iff _ xs).mp (fixed _ (Renaming.leaves_beyond m))

theorem NodeKind.gave_build {kind : NodeKind} {xs : List Value} {n : Node}
    (h : ∀ x ∈ xs, x.Every m.Gave) (ok : kind.build xs = .ok n) : (Value.node n).Every m.Gave := by
  refine Node.every_of_given (given_of_map_ok (fun ρ leaves => ?_) ok)
  rw [← kind.build_rename ρ, leaves.items_eq h]

theorem Constructor.gave_make {c : Constructor} {xs : List Value} {n : Node}
    (h : ∀ x ∈ xs, x.Every m.Gave) (ok : c.make xs = .ok n) : (Value.node n).Every m.Gave := by
  refine Node.every_of_given (given_of_map_ok (fun ρ leaves => ?_) ok)
  rw [← c.make_rename ρ, leaves.items_eq h]

theorem Value.gave_bindTo {name : Value} {id : Nat} (hv : v.Every m.Gave) (hn : name.Every m.Gave)
    (hid : id < m.serial) : (v.bindTo id name).Every m.Gave := by
  refine Value.every_of_given fun ρ leaves => ?_
  rw [← v.bindTo_rename ρ, leaves.value_eq hv, leaves.value_eq hn, leaves.1 id hid]

theorem Value.gave_ofNumber {id : Nat} (hid : id < m.serial) (number : Number) :
    (Value.ofNumber id number).Every m.Gave := by
  refine Value.every_of_given fun ρ leaves => ?_
  rw [Value.rename_ofNumber, leaves.1 id hid]

/-- An operation makes nothing with an identity but what has the one it is given. -/
theorem Operation.gave_perform {op : Operation} {args : List Value} {id : Nat} {effect : Effect}
    (hargs : ∀ x ∈ args, x.Every m.Gave) (hid : id < m.serial)
    (ok : op.perform id args = .ok effect) : effect.value.Every m.Gave := by
  have given : Given m Effect.rename effect := by
    refine given_of_ok (fun ρ leaves => ?_) ok
    rw [← op.perform_rename, leaves.items_eq hargs, leaves.1 id hid]
  exact Value.every_of_given fun ρ leaves => congrArg Effect.value (given ρ leaves)

end Given

end ConstLang
