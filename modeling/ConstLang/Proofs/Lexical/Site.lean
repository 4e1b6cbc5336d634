import ConstLang.Proofs.Agreement
import ConstLang.Proofs.Tree.Parts

/-!
Sites. A site is code together with the scopes that it stands in, by which the parts of a
program are told apart. Sites run as code does, and besides they can be watched: at every
site that does not fit the environment it runs in, the run stops with an alarm. A site is
lexical in an environment if the frames have the names of its scopes, and then those of the
global frames.
-/

namespace ConstLang

/-- One step of evaluation, for code whose parts are labelled: `part` labels a part, which stands in
the scope that is opened for it, if one is, and `exec` runs the labelled parts. -/
def Code.stepBy {β : Type} (part : List (List Value) → Code → β) (exec : β → Env → Eval β Value)
    (code : Code) (env : Env) : Eval β Value := do
  match code with
  | .literal v => return v
  | .name x => Eval.lookup (.text x) env
  | .declare x c =>
      Eval.assign x (← exec (part [] c) env) env
      return .undefined
  | .select p c a =>
      if (← exec (part [] p) env).isTrue then exec (part [] c) env else exec (part [] a) env
  | .close params locals body => Eval.close params locals ⟨part [params ++ locals] body, env⟩
  | .sequence cs => runStatements exec .undefined (cs.map (part [])) env
  | .enter locals body => exec (part [locals] body) (← enterScope locals env)
  | .returning c => mark (← exec (part [] c) env)
  | .apply f xs =>
      let f ← exec (part [] f) env
      call exec f (← runAll exec (xs.map (part [])) env)

/-- A step of evaluation is one in which the parts are their own labels. -/
theorem Code.step_eq_stepBy (exec : Code → Env → Eval Code Value) (code : Code) (env : Env) :
    code.step exec env = code.stepBy (fun _ c => c) exec env := by
  cases code with
  | sequence cs => simp [step, stepBy]
  | apply f xs => simp [step, stepBy]
  | _ => rfl

/-- Code, and the scopes that it stands in from the innermost outward. Code from elsewhere has
none. -/
structure Site where
  scopes : Option (List (List Value))
  code : Code

namespace Site

/-- A part of a site, in the scope that is opened for it, if one is. -/
def part (s : Site) (own : List (List Value)) (c : Code) : Site := ⟨s.scopes.map (own ++ ·), c⟩

/-- One step of evaluation, in which the parts keep track of their scopes. -/
def step (exec : Site → Env → Eval Site Value) (s : Site) (env : Env) : Eval Site Value :=
  s.code.stepBy s.part exec env

open Classical in
/-- Runs a site, and stops with the alarm wherever one does not fit the environment it runs in. -/
noncomputable def watch (fits : Memory Site → Site → Env → Prop) (alarm : Fault) :
    Nat → Site → Env → Eval Site Value
  | 0, _, _ => throw (.mishap .stack)
  | depth + 1, s, env => do
      if fits (← get) s env then s.step (watch fits alarm depth) env else throw alarm

end Site

/-- The memory with all functions in it from elsewhere. -/
def Memory.unplaced (m : Memory Code) : Memory Site where
  frames := m.frames
  closures := m.closures.map fun c => ⟨⟨none, c.body⟩, c.env⟩
  serial := m.serial
  output := m.output

/-- Memories that differ only in that one side knows the scopes of bodies. -/
abbrev SameCode : Memory Code → Memory Site → Prop := Memory.Alike fun c s => s.code = c

theorem sameCode_unplaced (m : Memory Code) : SameCode m m.unplaced := by
  refine ⟨rfl, ?_, rfl, rfl⟩
  simp [Memory.unplaced, List.forall₂_map_right_iff, List.forall₂_same]

theorem Memory.unplaced_closure {m : Memory Code} {id : Nat} {c : Closure Code}
    (h : m.closures[id]? = some c) : m.unplaced.closures[id]? = some ⟨⟨none, c.body⟩, c.env⟩ := by
  simp [unplaced, h]

/-- The value of a name in one frame. -/
def Frame.read (f : Frame) (x : Value) : Except Fault Value :=
  match f.get? x with
  | some (some v) => .ok v
  | some none => .error (.unassigned x)
  | none => .error (.unbound x)

namespace Memory

variable {β : Type} (m : Memory β)

/-- The names of the frames of an environment, innermost first. -/
def scopes (env : Env) : List (List Value) := env.map fun i => (m.frame i).names

variable {m} {x : String} {env : Env}

/-- A name is read from the innermost frame that has it, whether or not it has a value there. -/
theorem lookup_nearest {inner outer : List (List Value)} {names : List Value}
    (shape : m.scopes env = inner ++ names :: outer) (absent : ∀ ns ∈ inner, .text x ∉ ns)
    (present : .text x ∈ names) :
    ∃ i, env[inner.length]? = some i ∧ (m.frame i).names = names ∧
      m.lookup (.text x) env = (m.frame i).read (.text x) := by
  simp only [lookup_text]
  induction inner generalizing env with
  | nil =>
      obtain ⟨i, env, rfl, rfl, -⟩ := List.map_eq_cons_iff.mp shape
      refine ⟨i, rfl, rfl, ?_⟩
      rcases found : (m.frame i).get? (.text x) with _ | _ | v
      · exact absurd present (Frame.get?_text_eq_none.mp found)
      · simp [lookupIn, Frame.read, found]
      · simp [lookupIn, Frame.read, found]
  | cons ns inner ih =>
      obtain ⟨j, env, rfl, rfl, tail⟩ := List.map_eq_cons_iff.mp shape
      obtain ⟨own, rest⟩ := List.forall_mem_cons.mp absent
      obtain ⟨i, hi, hnames, read⟩ := ih tail rest
      refine ⟨i, by simpa using hi, hnames, ?_⟩
      simpa [lookupIn, Frame.get?_text_eq_none.mpr own] using read

theorem lookup_unbound :
    m.lookup (.text x) env = .error (.unbound (.text x)) ↔ ∀ ns ∈ m.scopes env, .text x ∉ ns := by
  simp only [lookup_text]
  induction env with
  | nil => simp [lookupIn, scopes]
  | cons i env ih =>
      rcases found : (m.frame i).get? (.text x) with _ | slot
      · have own := Frame.get?_text_eq_none.mp found
        simpa [lookupIn, scopes, found, own] using ih
      · have own : .text x ∈ (m.frame i).names := by
          by_contra absent
          simp [Frame.get?_text_eq_none.mpr absent] at found
        cases slot <;> simp [lookupIn, scopes, found, own]

end Memory

/-- The site stands in the program, the frames of the environment have the names of its scopes and
then the global ones; and if it refers to a name, the name is read from the frame of the nearest
scope that has it, and is unbound only if there is none. -/
structure Site.Lexical (program : Value) (global : List (List Value)) (m : Memory Site)
    (scopes : List (List Value)) (code : Code) (env : Env) : Prop where
  occurs : ∃ v, Stands program scopes v ∧ v.analyze = .ok code
  shape : m.scopes env = scopes ++ global
  reads : ∀ x, code = .name x → ∀ inner names outer, scopes ++ global = inner ++ names :: outer →
    (∀ ns ∈ inner, .text x ∉ ns) → .text x ∈ names →
    ∃ i, env[inner.length]? = some i ∧ (m.frame i).names = names ∧
      m.lookup (.text x) env = (m.frame i).read (.text x)
  unbound : ∀ x, code = .name x → m.lookup (.text x) env = .error (.unbound (.text x)) →
    ∀ ns ∈ scopes ++ global, .text x ∉ ns

/-- Sites of the program are lexical; nothing is said of code from elsewhere. -/
def Site.Fits (program : Value) (global : List (List Value)) (m : Memory Site) (s : Site)
    (env : Env) : Prop :=
  ∀ scopes, s.scopes = some scopes → Lexical program global m scopes s.code env

theorem Site.lexical_of_shape {program v : Value} {global scopes : List (List Value)}
    {m : Memory Site} {code : Code} {env : Env} (stands : Stands program scopes v)
    (analyzed : v.analyze = .ok code) (shape : m.scopes env = scopes ++ global) :
    Lexical program global m scopes code env where
  occurs := ⟨v, stands, analyzed⟩
  shape := shape
  reads _ _ _ _ _ split := Memory.lookup_nearest (shape.trans split)
  unbound _ _ missing := by
    rw [← shape]
    exact Memory.lookup_unbound.mp missing

end ConstLang
