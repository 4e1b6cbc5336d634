import ConstLang.Session

/-!
Single questions that need no session of their own.
-/

namespace ConstLang

/-- Whether two values are the same, and how many elements the set of both has. -/
def Value.compareAsSet (a b : Value) : Except Mishap (Bool × Nat) :=
  if a.hashable && b.hashable then .ok (a.same b, if a.same b then 1 else 2) else .error .kind

inductive Query
  | read (tree : Form)
  | build (form : Form)
  | isNode (form : Form)
  | compareNodes (a b : Form)
  | localNames (node : Form)
  | insertAll (names into : Form)
  | display (value : Form)
  | bindTo (name : String) (value : Form)
  | depthLimit (raw : Option String)
  | setting (key : String) (raw : Option String) (default : Int)
  | perform (name : String) (args : List Form)
  | runTagged (tree : Form)

namespace Query

/-- Nothing is stored outside a session. -/
def stored : String → Except Mishap Value := fun _ => .error .missing

def make (f : Form) : Eval Code Value := f.build stored

def act : Query → Eval Code Value
  | .read tree => do return .node (← Eval.ofExcept (← make tree).read)
  | .build f => make f
  | .isNode f => do return .bool (← make f).isNode
  | .compareNodes a b => do
      let a ← make a
      let (same, size) ← Eval.ofMishap (a.compareAsSet (← make b))
      return .list [.bool same, .int size]
  | .localNames node => do return .list (← Eval.ofExcept (← make node).localNames)
  | .insertAll names into => do
      let names ← make names
      let into ← make into
      let names ← Eval.ofMishap names.iterate
      let into ← Eval.ofMishap into.iterate
      return .list (← Eval.ofExcept (ConstLang.insertAll names into))
  | .display v => do return .text (← Eval.ofMishap (← make v).display)
  | .bindTo name v => do bindNew (.text name) (← make v)
  | .depthLimit raw => do return .int (← Eval.ofExcept (Setting.depthLimit raw))
  | .setting key raw default => do
      return .int (← Eval.ofExcept (Setting.positive key default raw))
  | .perform name args => do
      let f ← standardEntry name
      Session.apply f (.list (← buildAll stored args))
  | .runTagged tree => do
      let tree ← make tree
      let interpreter ← Interpreter.create Table.standard none none
      interpreter.runTagged tree

/-- The answer to a question, from an empty memory. -/
def answer (q : Query) : Answer :=
  match q.act {} with
  | .ok v m => { result := .ok v.encode, output := m.output.toList }
  | .error fault m => { result := .error fault.report, output := m.output.toList }

end Query
end ConstLang
