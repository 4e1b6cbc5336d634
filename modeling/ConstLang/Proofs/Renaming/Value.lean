import Mathlib.Logic.Function.Basic
import ConstLang.Fault
import ConstLang.Value.Encode
import ConstLang.Value.Equality

/-!
Renaming of identities. Values that are the same up to the identities they carry look
the same from outside: no text and no plain data shows an identity, and a comparison
of two values only asks whether identities are equal, which an injective renaming
keeps.
-/

namespace ConstLang

/-- New identities, places of closures and places of frames for old ones. -/
structure Renaming where
  identity : Nat → Nat
  closure : Nat → Nat
  frame : Nat → Nat
  identity_injective : identity.Injective
  closure_injective : closure.Injective
  frame_injective : frame.Injective

mutual

def Value.rename (ρ : Renaming) : Value → Value
  | .nan id => .nan (id.map ρ.identity)
  | .list xs => .list (renameItems ρ xs)
  | .tuple xs => .tuple (renameItems ρ xs)
  | .dict es => .dict (renameEntries ρ es)
  | .node n => .node (n.rename ρ)
  | .primitive id name op => .primitive (ρ.identity id) (name.rename ρ) op
  | .function id params locals =>
      .function (ρ.closure id) (renameItems ρ params) (renameItems ρ locals)
  | .marker id content => .marker (ρ.identity id) (content.rename ρ)
  | .null => .null
  | .undefined => .undefined
  | .uninitialized => .uninitialized
  | .bool b => .bool b
  | .int i => .int i
  | .float d => .float d
  | .text s => .text s
  | .operation op => .operation op

def renameItems (ρ : Renaming) : List Value → List Value
  | [] => []
  | x :: xs => x.rename ρ :: renameItems ρ xs

def renameEntries (ρ : Renaming) : List (Value × Value) → List (Value × Value)
  | [] => []
  | (key, x) :: es => (key.rename ρ, x.rename ρ) :: renameEntries ρ es

def Node.rename (ρ : Renaming) : Node → Node
  | .literal v => .literal (v.rename ρ)
  | .name x => .name x
  | .declaration x v => .declaration (x.rename ρ) (v.rename ρ)
  | .conditional p c a => .conditional (p.rename ρ) (c.rename ρ) (a.rename ρ)
  | .function ps b => .function (ps.rename ρ) (b.rename ρ)
  | .sequence ss => .sequence (ss.rename ρ)
  | .block b => .block (b.rename ρ)
  | .returning e => .returning (e.rename ρ)
  | .application f xs => .application (f.rename ρ) (xs.rename ρ)

end

attribute [simp] Value.rename Node.rename

variable (ρ : Renaming)

@[simp] theorem renameItems_eq_map (xs : List Value) :
    renameItems ρ xs = xs.map (Value.rename ρ) := by
  induction xs with
  | nil => rfl
  | cons x xs ih => simp [renameItems, ih]

@[simp] theorem renameEntries_eq_map (es : List (Value × Value)) :
    renameEntries ρ es = es.map fun e => (e.1.rename ρ, e.2.rename ρ) := by
  induction es with
  | nil => rfl
  | cons e es ih => simp [renameEntries, ih]

namespace Value

variable (v : Value)

@[simp] theorem number?_rename : (v.rename ρ).number? = v.number? := by
  cases v <;> rfl

@[simp] theorem strictNumber?_rename : (v.rename ρ).strictNumber? = v.strictNumber? := by
  cases v <;> rfl

@[simp] theorem integer?_rename : (v.rename ρ).integer? = v.integer? := by
  cases v <;> rfl

@[simp] theorem isMarker_rename : (v.rename ρ).isMarker = v.isMarker := by
  cases v <;> rfl

@[simp] theorem truthy_rename : (v.rename ρ).truthy = v.truthy := by
  cases v <;> simp [truthy]

@[simp] theorem slot_rename : (v.rename ρ).slot = v.slot.map (rename ρ) := by
  cases v <;> rfl

theorem iterate_rename : (v.rename ρ).iterate = v.iterate.map (List.map (rename ρ)) := by
  cases v <;> simp [iterate, Except.map]

@[simp] theorem rename_ofNumber (id : Nat) (n : Number) :
    (ofNumber id n).rename ρ = ofNumber (ρ.identity id) n := by
  cases n <;> simp [ofNumber]

theorem bindTo_rename (id : Nat) (name : Value) :
    (v.rename ρ).bindTo (ρ.identity id) (name.rename ρ) = (v.bindTo id name).rename ρ := by
  cases v <;> simp [bindTo, bindOperation]
  split <;> simp

end Value

/-- Values that are kept under texts, renamed. -/
def renameTable (ρ : Renaming) (es : List (String × Value)) : List (String × Value) :=
  es.map fun e => (e.1, e.2.rename ρ)

@[simp] theorem renameTable_cons (e : String × Value) (es : List (String × Value)) :
    renameTable ρ (e :: es) = (e.1, e.2.rename ρ) :: renameTable ρ es := rfl

theorem lookup_renameTable (key : String) (es : List (String × Value)) :
    (renameTable ρ es).lookup key = (es.lookup key).map (Value.rename ρ) := by
  induction es with
  | nil => rfl
  | cons e es ih =>
      obtain ⟨k, x⟩ := e
      simp only [renameTable_cons, List.lookup_cons]
      cases key == k <;> simp [ih]

mutual

theorem Value.same_rename : ∀ x y : Value, (x.rename ρ).same (y.rename ρ) = x.same y
  | .list xs, y => by
      cases y with
      | list ys => simpa [Value.same] using sameItems_rename xs ys
      | _ => rfl
  | .tuple xs, y => by
      cases y with
      | tuple ys => simpa [Value.same] using sameItems_rename xs ys
      | _ => rfl
  | .dict es, y => by
      cases y with
      | dict es' => simp [Value.same, sameEntries_rename es es']
      | _ => rfl
  | .node n, y => by
      cases y with
      | node n' => exact Node.same_rename n n'
      | _ => rfl
  | .nan i, y => by
      cases y with
      | nan j =>
          have same := (Option.map_injective ρ.identity_injective).eq_iff (a := i) (b := j)
          simpa [Value.same] using same
      | _ => rfl
  | .primitive _ _ _, y => by
      cases y with
      | primitive _ _ _ => simp [Value.same, ρ.identity_injective.eq_iff]
      | _ => rfl
  | .marker _ _, y => by
      cases y with
      | marker _ _ => simp [Value.same, ρ.identity_injective.eq_iff]
      | _ => rfl
  | .function _ _ _, y => by
      cases y with
      | function _ _ _ => simp [Value.same, ρ.closure_injective.eq_iff]
      | _ => rfl
  | .null, y | .undefined, y | .uninitialized, y | .bool _, y | .int _, y | .float _, y
  | .text _, y | .operation _, y => by cases y <;> rfl

theorem sameItems_rename : ∀ xs ys : List Value,
    sameItems (xs.map (Value.rename ρ)) (ys.map (Value.rename ρ)) = sameItems xs ys
  | [], ys => by cases ys <;> rfl
  | x :: xs, ys => by
      cases ys <;> simp [sameItems, Value.same_rename x, sameItems_rename xs]

theorem sameEntries_rename : ∀ xs ys : List (Value × Value),
    sameEntries (xs.map fun e => (e.1.rename ρ, e.2.rename ρ))
        (ys.map fun e => (e.1.rename ρ, e.2.rename ρ)) =
      sameEntries xs ys
  | [], ys => rfl
  | (k, x) :: xs, ys => by
      simp [sameEntries, Function.comp_def, Value.same_rename k, Value.same_rename x,
        sameEntries_rename xs]

theorem Node.same_rename : ∀ m n : Node, (m.rename ρ).same (n.rename ρ) = m.same n
  | .literal v, n => by
      cases n with
      | literal w => exact Value.same_rename v w
      | _ => rfl
  | .name _, n => by cases n <;> rfl
  | .declaration x v, n => by
      cases n with
      | declaration y w => simp [Node.same, Value.same_rename x y, Value.same_rename v w]
      | _ => rfl
  | .conditional p c a, n => by
      cases n with
      | conditional p' c' a' =>
          simp [Node.same, Value.same_rename p p', Value.same_rename c c', Value.same_rename a a']
      | _ => rfl
  | .function ps b, n => by
      cases n with
      | function ps' b' => simp [Node.same, Value.same_rename ps ps', Value.same_rename b b']
      | _ => rfl
  | .sequence ss, n => by
      cases n with
      | sequence ss' => exact Value.same_rename ss ss'
      | _ => rfl
  | .block b, n => by
      cases n with
      | block b' => exact Value.same_rename b b'
      | _ => rfl
  | .returning e, n => by
      cases n with
      | returning e' => exact Value.same_rename e e'
      | _ => rfl
  | .application f xs, n => by
      cases n with
      | application f' xs' => simp [Node.same, Value.same_rename f f', Value.same_rename xs xs']
      | _ => rfl

end

mutual

@[simp] theorem Value.hashable_rename : ∀ v : Value, (v.rename ρ).hashable = v.hashable
  | .tuple xs => by simp [Value.hashable, hashableItems_rename xs]
  | .node n => by simp [Value.hashable, Node.hashable_rename n]
  | .list _ | .dict _ | .nan _ | .primitive _ _ _ | .function _ _ _ | .marker _ _ | .null
  | .undefined | .uninitialized | .bool _ | .int _ | .float _ | .text _ | .operation _ => rfl

theorem hashableItems_rename : ∀ xs : List Value,
    hashableItems (xs.map (Value.rename ρ)) = hashableItems xs
  | [] => rfl
  | x :: xs => by simp [hashableItems, Value.hashable_rename x, hashableItems_rename xs]

theorem Node.hashable_rename : ∀ n : Node, (n.rename ρ).hashable = n.hashable
  | .name _ => rfl
  | .literal v | .sequence v | .block v | .returning v => by
      simp [Node.hashable, Value.hashable_rename v]
  | .declaration v w | .function v w | .application v w => by
      simp [Node.hashable, Value.hashable_rename v, Value.hashable_rename w]
  | .conditional p c a => by
      simp [Node.hashable, Value.hashable_rename p, Value.hashable_rename c,
        Value.hashable_rename a]

end

@[simp] theorem Value.strictEqual_rename (x y : Value) :
    (x.rename ρ).strictEqual (y.rename ρ) = x.strictEqual y := by
  cases x with
  | bool _ | nan _ => cases y <;> rfl
  | _ =>
      cases y with
      | bool _ => rfl
      | _ => exact same_rename ρ _ _

@[simp] theorem showFunction_rename (params : List Value) :
    showFunction (params.map (Value.rename ρ)) = showFunction params := by
  simp only [showFunction, List.mapM_map]
  congr 2
  funext v
  cases v <;> rfl

mutual

/-- No text of a value shows an identity. -/
@[simp] theorem Value.inspect_rename : ∀ v : Value, (v.rename ρ).inspect = v.inspect
  | .list xs | .tuple xs => by simp [Value.inspect, inspectItems_rename xs]
  | .dict es => by simp [Value.inspect, inspectEntries_rename es]
  | .node n => by simp [Value.inspect, Node.inspect_rename n]
  | .primitive _ name _ => by
      have inner := Value.inspect_rename name
      cases name <;> simp_all [Value.inspect]
  | .function _ params _ => by simp [Value.inspect]
  | .marker _ content => by simp [Value.inspect, Value.inspect_rename content]
  | .nan _ | .null | .undefined | .uninitialized | .bool _ | .int _ | .float _ | .text _
  | .operation _ => rfl

theorem inspectItems_rename : ∀ xs : List Value,
    inspectItems (xs.map (Value.rename ρ)) = inspectItems xs
  | [] => rfl
  | x :: xs => by simp [inspectItems, Value.inspect_rename x, inspectItems_rename xs]

theorem inspectEntries_rename : ∀ es : List (Value × Value),
    inspectEntries (es.map fun e => (e.1.rename ρ, e.2.rename ρ)) = inspectEntries es
  | [] => rfl
  | (k, x) :: es => by
      simp [inspectEntries, Value.inspect_rename k, Value.inspect_rename x,
        inspectEntries_rename es]

theorem Node.inspect_rename : ∀ n : Node, (n.rename ρ).inspect = n.inspect
  | .name _ => rfl
  | .literal v | .sequence v | .block v | .returning v => by
      simp [Node.inspect, Value.inspect_rename v]
  | .declaration v w | .function v w | .application v w => by
      simp [Node.inspect, Value.inspect_rename v, Value.inspect_rename w]
  | .conditional p c a => by
      simp [Node.inspect, Value.inspect_rename p, Value.inspect_rename c, Value.inspect_rename a]

end

@[simp] theorem Value.label_rename (v : Value) : (v.rename ρ).label = v.label := by
  cases v with
  | text s => rfl
  | _ => exact inspect_rename ρ _

@[simp] theorem Value.display_rename (v : Value) : (v.rename ρ).display = v.display := by
  cases v with
  | null | bool _ | float _ | nan _ | text _ => rfl
  | _ => exact inspect_rename ρ _

mutual

/-- Neither does plain data. -/
@[simp] theorem Value.encode_rename : ∀ v : Value, (v.rename ρ).encode = v.encode
  | .list xs | .tuple xs => by simp [Value.encode, encodeItems_rename xs]
  | .dict es => by simp [Value.encode, encodeEntries_rename es]
  | .node n => by simp [Value.encode, Node.encode_rename n]
  | .primitive _ v _ | .marker _ v => by simp [Value.encode, Value.encode_rename v]
  | .function _ params locals => by
      simp [Value.encode, encodeItems_rename params, encodeItems_rename locals]
  | .nan _ | .null | .undefined | .uninitialized | .bool _ | .int _ | .float _ | .text _
  | .operation _ => rfl

theorem encodeItems_rename : ∀ xs : List Value,
    encodeItems (xs.map (Value.rename ρ)) = encodeItems xs
  | [] => rfl
  | x :: xs => by simp [encodeItems, Value.encode_rename x, encodeItems_rename xs]

theorem encodeEntries_rename : ∀ es : List (Value × Value),
    encodeEntries (es.map fun e => (e.1.rename ρ, e.2.rename ρ)) = encodeEntries es
  | [] => rfl
  | (k, x) :: es => by
      simp [encodeEntries, Value.encode_rename k, Value.encode_rename x, encodeEntries_rename es]

theorem Node.encode_rename : ∀ n : Node, (n.rename ρ).encode = n.encode
  | .name _ => rfl
  | .literal v | .sequence v | .block v | .returning v => by
      simp [Node.encode, Value.encode_rename v]
  | .declaration v w | .function v w | .application v w => by
      simp [Node.encode, Value.encode_rename v, Value.encode_rename w]
  | .conditional p c a => by
      simp [Node.encode, Value.encode_rename p, Value.encode_rename c, Value.encode_rename a]

end

namespace Fault

def rename : Fault → Fault
  | .unbound x => .unbound (x.rename ρ)
  | .unassigned x => .unassigned (x.rename ρ)
  | .duplicate x => .duplicate (x.rename ρ)
  | .unknownNode v => .unknownNode (v.rename ρ)
  | .unknownFunction v => .unknownFunction (v.rename ρ)
  | .noSlot x => .noSlot (x.rename ρ)
  | .slotTaken x => .slotTaken (x.rename ρ)
  | .arity expected supplied => .arity expected supplied
  | .strayReturn => .strayReturn
  | .program text => .program text
  | .tooDeep limit => .tooDeep limit
  | .setting key raw => .setting key raw
  | .mishap m => .mishap m

/-- The report of a fault has no identity left. -/
theorem report_rename (f : Fault) : (f.rename ρ).report = f.report := by
  cases f <;> simp [rename, report, message, kind]

end Fault

end ConstLang
