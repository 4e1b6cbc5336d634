import ConstLang.Tree.Scope

/-!
Code, and the analysis that makes it from trees. Analysis settles once what does
not depend on a run: that every part is a tree, which names each scope has, and
that none is declared twice. Sequences of one statement or none leave no trace. A
tree of any depth is analyzed; the stack of the host, which ends where the tree nests
too deep, is left out here and counts only in runs.
-/

namespace ConstLang

inductive Code
  | literal (value : Value)
  | name (x : String)
  | declare (name : Value) (value : Code)
  | select (predicate consequent alternative : Code)
  | close (params locals : List Value) (body : Code)
  | sequence (statements : List Code)
  | enter (locals : List Value) (body : Code)
  | returning (expr : Code)
  | apply (operator : Code) (operands : List Code)

/-- An empty sequence yields undefined, and a single statement is itself. -/
def Code.ofStatements : List Code → Code
  | [] => .literal .undefined
  | [c] => c
  | cs => .sequence cs

/-- The parameters of a function, which may not repeat. -/
def Value.paramNames (v : Value) : Except Fault (List Value) := do
  insertAll (← liftMishap v.iterate) []

mutual

def Value.analyze : Value → Except Fault Code
  | .node n => n.analyze
  | v => .error (.unknownNode v)

def Node.analyze : Node → Except Fault Code
  | .literal v => .ok (.literal v)
  | .name x => .ok (.name x)
  | .declaration x v => do return .declare x (← v.analyze)
  | .conditional p c a => do
      let p ← p.analyze
      let c ← c.analyze
      return .select p c (← a.analyze)
  | .function ps b => do
      let params ← ps.paramNames
      let locals ← b.localNames
      let _ ← insertAll params locals
      return .close params locals (← b.analyze)
  | .sequence ss => do return .ofStatements (← ss.analyzeItems)
  | .block b => do
      let locals ← b.localNames
      return .enter locals (← b.analyze)
  | .returning e => do return .returning (← e.analyze)
  | .application f xs => do
      let f ← f.analyze
      return .apply f (← xs.analyzeItems)

/-- The statements of a sequence or the operands of an application. Characters are not trees. -/
def Value.analyzeItems : Value → Except Fault (List Code)
  | .list xs | .tuple xs => analyzeAll xs
  | .text s =>
      match s.toList with
      | [] => .ok []
      | c :: _ => .error (.unknownNode (.text (String.singleton c)))
  | .dict es => analyzeKeys es
  | _ => .error (.mishap .kind)

def analyzeAll : List Value → Except Fault (List Code)
  | [] => .ok []
  | x :: xs => do
      let c ← x.analyze
      return c :: (← analyzeAll xs)

def analyzeKeys : List (Value × Value) → Except Fault (List Code)
  | [] => .ok []
  | (key, _) :: es => do
      let c ← key.analyze
      return c :: (← analyzeKeys es)

end

theorem analyzeKeys_eq (es : List (Value × Value)) :
    analyzeKeys es = analyzeAll (es.map (·.1)) := by
  induction es with
  | nil => rfl
  | cons e es ih => simp only [analyzeKeys, analyzeAll, List.map_cons, ih]

end ConstLang
