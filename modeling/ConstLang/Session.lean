import ConstLang.Environment
import ConstLang.Form
import ConstLang.Interpreter
import ConstLang.Value.Encode

/-!
Sessions: one interpreter, one memory, and a store of named environments, code and
values on which steps are taken one after the other. A step that fails leaves its
mark on memory, and the session goes on. A step that makes an environment stores it
even if the environment has no text to reply with; nothing else is stored by a step
that fails.
-/

namespace ConstLang

inductive Thing
  | env (e : Env)
  | code (c : Code)
  | value (v : Value)

/-- What a step asks for. Environments are named; one that is not named has no frames, except that
`evaluate` then takes the global one. -/
inductive Step
  | runTagged (tree : Form)
  | runProgram (program : Form)
  | evaluate (node : Form) (env : Option String)
  | coreEvaluate (node : Form) (env : Option String)
  | coreProgram (program : Form) (env : Option String)
  | analyze (node : Form) (key : String)
  | execute (code : String) (env : Option String)
  | apply (function args : Form)
  | extend (key : String) (names : Form) (values : Form) (base : Option String)
  | extendUnassigned (key : String) (names : Form) (base : Option String)
  | extendZip (key : String) (names : Form) (values : Form) (base : Option String)
  | extendEmpty (key : String) (base : Option String)
  | globalFrame (key : String) (table : List (String × Form))
  | lookup (name : Form) (env : Option String)
  | assign (name value : Form) (env : Option String)
  | viewEnv (env : Option String) (probe : List Form)
  | viewFunction (function : Form)
  | display (value : Form)
  | limits (limit : Int)
  | maxDepth

/-- A reply to a step: a value, or a view of something, given as plain data. -/
inductive Reply
  | value (v : Value)
  | view (d : Data)

namespace Reply

/-- The reply as it is given. -/
def data : Reply → Data
  | .value v => v.encode
  | .view d => d

/-- The reply as it is saved. -/
def saved : Reply → Value
  | .value v => v
  | .view d => d.value

end Reply

/-- A reply, and what the step stores under a key of its own whether or not the reply can be made. -/
structure Outcome where
  reply : Except Mishap Reply
  stores : Option (String × Thing) := none

structure Session where
  memory : Memory Code
  interpreter : Interpreter
  things : List (String × Thing)

/-- The answer to a step: its reply or a report of its fault, and what was displayed on the way. -/
structure Answer where
  result : Except Report Data
  output : List String

namespace Session

/-- The key under which the global environment is found. -/
def globalKey : String := "_global"

def putThing (key : String) (t : Thing) (things : List (String × Thing)) :
    List (String × Thing) :=
  (key, t) :: things.filter (·.1 != key)

def storedThing (s : Session) (key : String) : Except Mishap Thing :=
  match s.things.lookup key with
  | some t => .ok t
  | none => .error .missing

def storedValue (s : Session) (key : String) : Except Mishap Value := do
  match ← s.storedThing key with
  | .value v => return v
  | _ => .error .kind

def storedEnv (s : Session) (key : String) : Except Mishap Env := do
  match ← s.storedThing key with
  | .env e => return e
  | _ => .error .kind

def storedCode (s : Session) (key : String) : Except Mishap Code := do
  match ← s.storedThing key with
  | .code c => return c
  | _ => .error .kind

/-- The environment of a key, and without a key the one that has no frames. -/
def envOf (s : Session) : Option String → Eval Code Env
  | none => return []
  | some key => Eval.ofMishap (s.storedEnv key)

/-- The keys, in order, under which an environment is stored. -/
def envKeys (s : Session) (env : Env) : List String :=
  let keys := s.things.filterMap fun
    | (key, .env e) => if e = env then some key else none
    | _ => none
  keys.mergeSort (fun a b => !decide (b < a))

def build (s : Session) (f : Form) : Eval Code Value := f.build s.storedValue

/-- The items of a collection. -/
def items (v : Value) : Eval Code (List Value) := Eval.ofMishap v.iterate

def value (v : Value) : Outcome := { reply := .ok (.value v) }

/-- The outcome of making an environment: its text, and the environment under its key. -/
def madeEnv (key : String) (env : Env) : Eval Code Outcome := do
  let text := (← get).inspectChain env
  return { reply := text.map fun t => .value (.text t), stores := some (key, .env env) }

def encodeTexts (texts : List String) : Data := .list (texts.map .text)

/-- An environment as seen from outside: its text, its length, and the innermost frame. -/
def viewEnv (m : Memory Code) (env : Env) (probe : List Value) : Except Mishap Data :=
  match env with
  | [] => .error .kind
  | i :: _ => do
      let frame := m.frame i
      let text ← m.inspectChain env
      let frameText ← frame.inspect
      if probe.any (!·.hashable) then .error .kind
      return .object
        [("repr", .text text), ("depth", .int env.length),
          ("names", .list (encodeItems frame.names)), ("size", .int frame.slots.length),
          ("frame", .text frameText), ("slots", .list (frame.slots.map encodeSlot)),
          ("contains", .list (probe.map fun x => .bool (frame.get? x).isSome))]

/-- A function as seen from outside, with the keys under which its environment is stored. -/
def viewFunction (s : Session) (m : Memory Code) : Value → Except Mishap Data
  | .primitive id name op => do
      let text ← (Value.primitive id name op).inspect
      return .object [("name", name.encode), ("repr", .text text)]
  | .function id params locals => do
      let env := (m.closures[id]?.map (·.env)).getD []
      let text ← showFunction params
      let envText ← m.inspectEnv env
      return .object
        [("params", .list (encodeItems params)), ("locals", .list (encodeItems locals)),
          ("arity", .int params.length), ("str", .text text), ("repr", .text text),
          ("environment", .text envText), ("env_is", encodeTexts (s.envKeys env))]
  | _ => .error .kind

def view (d : Except Mishap Data) : Outcome := { reply := d.map .view }

/-- Applies a function to the items of a collection; what is no function is found out first. -/
def apply (f args : Value) : Eval Code Value :=
  match f with
  | .primitive _ _ _ | .function _ _ _ => do
      applyFunction baseLimit f (← Eval.ofMishap args.iterate)
  | _ => throw (.unknownFunction f)

def act (s : Session) : Step → Eval Code Outcome
  | .runTagged tree => do return value (← s.interpreter.runTagged (← s.build tree))
  | .runProgram program => do return value (← s.interpreter.runProgram (← s.build program))
  | .evaluate node env => do
      return value (← s.interpreter.evaluate (← s.build node) (← s.envOf env))
  | .coreEvaluate node env => do
      return value (← ConstLang.evaluate baseLimit (← s.build node) (← s.envOf env))
  | .coreProgram program env => do
      return value (← ConstLang.runProgram baseLimit (← s.build program) (← s.envOf env))
  | .analyze node key => do
      let code ← Eval.ofExcept (← s.build node).analyze
      return { reply := .ok (.value (.text "analyzed")), stores := some (key, .code code) }
  | .execute key env => do
      let code ← Eval.ofMishap (s.storedCode key)
      return value (← run baseLimit code (← s.envOf env))
  | .apply f args => do
      let f ← s.build f
      return value (← Session.apply f (← s.build args))
  | .extend key names values base => do
      let names ← s.build names
      let values ← s.build values
      let base ← s.envOf base
      madeEnv key (← Eval.extend (← items names) (← items values) base)
  | .extendUnassigned key names base => do
      let names ← s.build names
      let base ← s.envOf base
      madeEnv key (← Eval.extendUnassigned (← items names) base)
  | .extendZip key names values base => do
      let names ← s.build names
      let values ← s.build values
      let base ← s.envOf base
      madeEnv key (← Eval.extendZip (← items names) (← items values) base)
  | .extendEmpty key base => do madeEnv key (← Eval.push Frame.empty (← s.envOf base))
  | .globalFrame key table => do
      madeEnv key (← Table.environment (← buildEntries s.storedValue table))
  | .lookup name env => do
      return value (← Eval.lookup (← s.build name) (← s.envOf env))
  | .assign name v env => do
      let name ← s.build name
      let v ← s.build v
      let env ← s.envOf env
      Eval.assign name v env
      return value (.text (← Eval.ofMishap ((← get).inspectChain env)))
  | .viewEnv env probe => do
      let probe ← buildAll s.storedValue probe
      let env ← s.envOf env
      return view (viewEnv (← get) env probe)
  | .viewFunction f => do
      let f ← s.build f
      return view (s.viewFunction (← get) f)
  | .display v => do
      return value (.text (← Eval.ofMishap (← s.build v).display))
  | .limits limit => do
      let during ← Eval.ofMishap (limitInForce limit)
      return value (.list [.int baseLimit, .int during, .int baseLimit])
  | .maxDepth => return value (.int s.interpreter.maxDepth)

/-- The store with what a step made. -/
def keep (s : Session) (outcome : Outcome) : List (String × Thing) :=
  match outcome.stores with
  | some (key, t) => putThing key t s.things
  | none => s.things

/-- A store with a reply that is to be saved. -/
def save (reply : Reply) (key : Option String) (things : List (String × Thing)) :
    List (String × Thing) :=
  match key with
  | some key => putThing key (.value reply.saved) things
  | none => things

/-- Takes a step. The output of earlier steps is left behind. -/
def step (s : Session) (what : Step) (key : Option String) : Answer × Session :=
  match s.act what { s.memory with output := #[] } with
  | .ok outcome m =>
      let things := s.keep outcome
      match outcome.reply with
      | .ok reply =>
          ({ result := .ok reply.data, output := m.output.toList },
            { s with memory := m, things := save reply key things })
      | .error e =>
          ({ result := .error e.report, output := m.output.toList },
            { s with memory := m, things })
  | .error fault m =>
      ({ result := .error fault.report, output := m.output.toList }, { s with memory := m })

/-- A session on a new interpreter, with the standard table unless another is given. -/
def start (table : Option (List (String × Form))) (maxDepth : Option Int)
    (setting : Option String) : Except Report Session :=
  let act : Eval Code Interpreter := do
    let table ← match table with
      | some entries => buildEntries (fun _ => .error .missing) entries
      | none => pure Table.standard
    Interpreter.create table maxDepth setting
  match act {} with
  | .ok interpreter memory =>
      .ok { memory, interpreter, things := [(globalKey, .env interpreter.globalEnv)] }
  | .error fault _ => .error fault.report

/-- Takes steps one after the other. -/
def steps (s : Session) : List (Step × Option String) → List Answer
  | [] => []
  | (what, key) :: rest =>
      let (answer, s) := s.step what key
      answer :: s.steps rest

end Session
end ConstLang
