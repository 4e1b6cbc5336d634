import ConstLang.Fault
import ConstLang.Value.Equality

/-!
Memory of a run: frames of slots, the closures of functions, the identities given
out so far and the texts displayed. An environment is a chain of frames, innermost
first, named by their places in memory, so that closures share frames. Memory only
grows; the one change to what it holds is that an unassigned slot gets its value.

The type of function bodies is a parameter.
-/

namespace ConstLang

/-- The slots of one scope in the order of their declaration; none marks a name that has no value
yet. -/
structure Frame where
  slots : List (Value × Option Value)

/-- Frames from the innermost outward. -/
abbrev Env := List Nat

structure Closure (β : Type) where
  body : β
  env : Env

structure Memory (β : Type) where
  frames : Array Frame := #[]
  closures : Array (Closure β) := #[]
  serial : Nat := 0
  output : Array String := #[]

namespace Frame

def empty : Frame := ⟨[]⟩

def names (f : Frame) : List Value := f.slots.map (·.1)

/-- The slot of a name, if the frame has one. -/
def get? (f : Frame) (name : Value) : Option (Option Value) :=
  (f.slots.find? (·.1.same name)).map (·.2)

/-- Replaces the content of the slot of a name. -/
def replace (name : Value) (slot : Option Value) :
    List (Value × Option Value) → List (Value × Option Value)
  | [] => []
  | s :: rest => if s.1.same name then (s.1, slot) :: rest else s :: replace name slot rest

/-- A name that is there keeps its place and gets the new content; another one is added last. -/
def put (f : Frame) (name : Value) (slot : Option Value) : Frame :=
  if (f.get? name).isSome then ⟨replace name slot f.slots⟩ else ⟨f.slots ++ [(name, slot)]⟩

theorem map_fst_replace (name : Value) (slot : Option Value) (slots : List (Value × Option Value)) :
    (replace name slot slots).map (·.1) = slots.map (·.1) := by
  induction slots with
  | nil => rfl
  | cons s rest ih =>
      simp only [replace]
      split <;> simp [ih]

/-- Filling a slot that is there leaves the names of a frame and their order alone. -/
theorem names_put (f : Frame) (name : Value) (slot : Option Value)
    (h : (f.get? name).isSome) : (f.put name slot).names = f.names := by
  simp [put, h, names, map_fst_replace]

/-- The frame of a list of slots, in which the last content of a repeated name counts. -/
def ofSlots (slots : List (Value × Option Value)) : Except Mishap Frame :=
  if slots.all (·.1.hashable) then .ok (slots.foldl (fun f s => f.put s.1 s.2) empty)
  else .error .kind

/-- The frame of names and values, cut to the shorter of the two lists. -/
def ofValues (names values : List Value) : Except Mishap Frame :=
  ofSlots (names.zip (values.map Value.slot))

/-- A frame in which no name has a value. -/
def unassigned (names : List Value) : Except Mishap Frame := ofSlots (names.map (·, none))

end Frame

namespace Memory

variable {β : Type}

/-- The frame at a place; places not given out hold an empty one. -/
def frame (m : Memory β) (i : Nat) : Frame := m.frames[i]?.getD Frame.empty

def lookupIn (m : Memory β) (name : Value) : Env → Except Fault Value
  | [] => .error (.unbound name)
  | i :: env =>
      match (m.frame i).get? name with
      | some (some v) => .ok v
      | some none => .error (.unassigned name)
      | none => m.lookupIn name env

/-- The value of a name, in the innermost frame that has it. -/
def lookup (m : Memory β) (name : Value) (env : Env) : Except Fault Value :=
  if env.isEmpty || name.hashable then m.lookupIn name env else .error (.mishap .kind)

/-- The frame in which a declaration of a name takes effect: the innermost one, if it has an unassigned
slot for the name. -/
def target (m : Memory β) (name : Value) : Env → Except Fault Nat
  | [] => .error (.noSlot name)
  | i :: _ =>
      if name.hashable then
        match (m.frame i).get? name with
        | none => .error (.noSlot name)
        | some (some _) => .error (.slotTaken name)
        | some none => .ok i
      else .error (.mishap .kind)

def fill (m : Memory β) (i : Nat) (name value : Value) : Memory β :=
  { m with frames := m.frames.modify i (·.put name (some value)) }

/-- Gives a name its value in the innermost frame of an environment. -/
def assign (m : Memory β) (name value : Value) (env : Env) : Except Fault (Memory β) := do
  return m.fill (← m.target name env) name value

/-- Chains a new frame onto an environment. -/
def push (m : Memory β) (f : Frame) (env : Env) : Env × Memory β :=
  (m.frames.size :: env, { m with frames := m.frames.push f })

/-- A new function value with its closure. -/
def close (m : Memory β) (params locals : List Value) (c : Closure β) : Value × Memory β :=
  (.function m.closures.size params locals, { m with closures := m.closures.push c })

/-- A new frame stands at its own place and moves no other. -/
theorem frame_push (m : Memory β) (f : Frame) (env : Env) (i : Nat) :
    (m.push f env).2.frame i = if i = m.frames.size then f else m.frame i := by
  simp only [push, frame, Array.getElem?_push]
  split <;> simp_all

/-- Filling a slot touches one frame only. -/
theorem frame_fill_of_ne (m : Memory β) (name value : Value) {i j : Nat} (h : i ≠ j) :
    (m.fill i name value).frame j = m.frame j := by
  simp [fill, frame, Array.getElem?_modify, h]

theorem lookup_text (m : Memory β) (x : String) (env : Env) :
    m.lookup (.text x) env = m.lookupIn (.text x) env := by
  simp [lookup]

/-- An identity not given out before. -/
def fresh (m : Memory β) : Nat × Memory β := (m.serial, { m with serial := m.serial + 1 })

def write (m : Memory β) (text : String) : Memory β := { m with output := m.output.push text }

end Memory

/-- A computation on memory. What it did to memory stays done when it fails. -/
abbrev Eval (β α : Type) := EStateM Fault (Memory β) α

namespace Eval

variable {β α : Type}

def ofExcept : Except Fault α → Eval β α
  | .ok a => pure a
  | .error e => throw e

def ofMishap : Except Mishap α → Eval β α
  | .ok a => pure a
  | .error e => throw (.mishap e)

def lookup (name : Value) (env : Env) : Eval β Value := do
  ofExcept ((← get).lookup name env)

def assign (name value : Value) (env : Env) : Eval β Unit := do
  let i ← ofExcept ((← get).target name env)
  modify (·.fill i name value)

def push (f : Frame) (env : Env) : Eval β Env := modifyGet (·.push f env)

def close (params locals : List Value) (c : Closure β) : Eval β Value :=
  modifyGet (·.close params locals c)

def fresh : Eval β Nat := modifyGet Memory.fresh

def write (text : String) : Eval β Unit := modify (·.write text)

end Eval
end ConstLang
