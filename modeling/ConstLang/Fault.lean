import ConstLang.Value.Show

/-!
Faults of a program, by cause. The wording stands in `Fault.message`, and a fault
whose wording cannot be made, because it speaks of a value that has no text, is
reported as the mishap that prevented it. A report has the kind of a fault and its
wording, and no value any more.
-/

namespace ConstLang

inductive Fault
  /-- No enclosing scope declares the name. -/
  | unbound (name : Value)
  /-- The name is declared but its declaration has not run. -/
  | unassigned (name : Value)
  /-- One scope declares the name twice. -/
  | duplicate (name : Value)
  /-- A function of some number of parameters got another number of arguments. -/
  | arity (expected supplied : Nat)
  /-- A return left the program. -/
  | strayReturn
  /-- Something that is not a tree stands where a tree must. -/
  | unknownNode (part : Value)
  /-- Something that is not a function was called. -/
  | unknownFunction (value : Value)
  /-- A declaration ran in a scope that has no slot for its name. -/
  | noSlot (name : Value)
  /-- A declaration ran in a scope where its name has a value already. -/
  | slotTaken (name : Value)
  /-- The program gave up with a text of its own. -/
  | program (text : String)
  /-- Evaluation nested deeper than the limit. -/
  | tooDeep (limit : Nat)
  /-- A setting that must be positive is not. -/
  | setting (key raw : String)
  | mishap (m : Mishap)

namespace Fault

/-- The wording of a fault; mishaps have none. -/
def message : Fault → Except Mishap String
  | .unbound x => do return "Unbound name: " ++ (← x.label)
  | .unassigned x => do return "Name used before declaration: " ++ (← x.label)
  | .duplicate x => do return "Multiple declarations of: " ++ (← x.label)
  | .arity expected supplied =>
      let quantity := if expected < supplied then "Too many" else "Too few"
      .ok (quantity ++ " arguments supplied: expected " ++ Nat.repr expected ++ ", got " ++
        Nat.repr supplied)
  | .strayReturn => .ok "return not allowed outside of function definitions"
  | .unknownNode v => do return "Unknown statement type in analyze: " ++ (← v.inspect)
  | .unknownFunction v => do return "Unknown function type in application: " ++ (← v.inspect)
  | .noSlot x => do return "internal error: name not found: " ++ (← x.label)
  | .slotTaken x => do return "internal error: name already initialized: " ++ (← x.label)
  | .program text => .ok text
  | .tooDeep limit =>
      .ok ("Maximum evaluation depth exceeded (recursion limit " ++ Nat.repr limit ++ ")")
  | .setting key raw => .ok (key ++ " must be a positive integer, got " ++ Text.inspect raw)
  | .mishap m => .error m

end Fault

inductive FaultKind
  | unbound
  | unassigned
  | duplicate
  | arity
  | strayReturn
  | unknownNode
  | unknownFunction
  | inconsistent
  | program
  | tooDeep
  | mishap (m : Mishap)
  deriving DecidableEq, Repr

structure Report where
  kind : FaultKind
  message : Option String
  deriving DecidableEq, Repr

/-- A mishap is reported without a text. -/
def Mishap.report (m : Mishap) : Report := ⟨.mishap m, none⟩

namespace Fault

def kind : Fault → FaultKind
  | .unbound _ => .unbound
  | .unassigned _ => .unassigned
  | .duplicate _ => .duplicate
  | .arity _ _ => .arity
  | .strayReturn => .strayReturn
  | .unknownNode _ => .unknownNode
  | .unknownFunction _ => .unknownFunction
  | .noSlot _ | .slotTaken _ => .inconsistent
  | .program _ => .program
  | .tooDeep _ => .tooDeep
  | .setting _ _ => .mishap .domain
  | .mishap m => .mishap m

def report (f : Fault) : Report :=
  match f.message with
  | .ok text => ⟨f.kind, some text⟩
  | .error m => m.report

end Fault

/-- A mishap as a fault. -/
def liftMishap {α : Type} : Except Mishap α → Except Fault α
  | .ok a => .ok a
  | .error m => .error (.mishap m)

end ConstLang
