import ConstLang.Fault
import ConstLang.Value.Equality

/-!
The names that a scope declares. Only declarations reached through sequences count,
since blocks and functions are scopes of their own; a name declared twice is a
fault. Sequences may nest to any depth, whatever the stack of the host would bear.
-/

namespace ConstLang

/-- Puts names in front of others. Clashes are looked for from the last name to the first. -/
def insertAll : List Value → List Value → Except Fault (List Value)
  | [], into => .ok into
  | x :: xs, into => do
      let rest ← insertAll xs into
      if rest.any (·.same x) then .error (.duplicate x) else .ok (x :: rest)

mutual

/-- The names that a statement declares in its own scope, in source order. -/
def Value.localNames : Value → Except Fault (List Value)
  | .node n => n.localNames
  | _ => .ok []

def Node.localNames : Node → Except Fault (List Value)
  | .declaration x _ => .ok [x]
  | .sequence (.tuple ss) | .sequence (.list ss) => localNamesAll ss
  | .sequence (.dict es) => localNamesKeys es
  | .sequence (.text _) => .ok []
  | .sequence _ => .error (.mishap .kind)
  | _ => .ok []

/-- The statements are gone through from the last to the first. -/
def localNamesAll : List Value → Except Fault (List Value)
  | [] => .ok []
  | s :: ss => do
      let rest ← localNamesAll ss
      insertAll (← s.localNames) rest

/-- The keys of a dictionary as statements. -/
def localNamesKeys : List (Value × Value) → Except Fault (List Value)
  | [] => .ok []
  | (key, _) :: es => do
      let rest ← localNamesKeys es
      insertAll (← key.localNames) rest

end

theorem localNamesKeys_eq (es : List (Value × Value)) :
    localNamesKeys es = localNamesAll (es.map (·.1)) := by
  induction es with
  | nil => rfl
  | cons e es ih => simp only [localNamesKeys, localNamesAll, List.map_cons, ih]

end ConstLang
