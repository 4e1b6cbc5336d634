import ConstLang.Proofs.Contents
import ConstLang.Proofs.Renaming.Form
import ConstLang.Proofs.Renaming.Given
import ConstLang.Proofs.Session

/-!
Independence of history. A program that takes nothing from the store runs after any
history as it runs in a new session: the frames, closures and identities that the
history left behind only move those that the program makes, and no answer shows where
they are. The global frame has no unassigned slot, so no step can change it.
-/

namespace ConstLang

namespace Memory

/-- A memory as a new interpreter has it: no functions yet, no identities in frames but those given
out, and no unassigned slots. -/
structure Founded (m : Memory Code) : Prop where
  closures : m.closures = #[]
  settled : ∀ (i : Nat) (f : Frame), m.frames[i]? = some f → Settled Frame.rename m.serial f
  assigned : ∀ (i : Nat) (f : Frame), m.frames[i]? = some f → ∀ s ∈ f.slots, s.2 ≠ none

namespace Founded

variable {m m' : Memory Code}

/-- Growth leaves frames without unassigned slots as they are. -/
theorem frames_eq (h : m.Founded) (g : m.Grows (fun _ _ => True) m') {i : Nat} {f : Frame}
    (hf : m.frames[i]? = some f) : m'.frames[i]? = some f := by
  obtain ⟨f', hf', fills⟩ := g.frames i f hf
  have same : f' = f := fills.eq_of_closed fun s hs none => absurd none (h.assigned i f hf s hs)
  rw [← same]
  exact hf'

/-- Whatever has grown out of a founded memory mirrors it. -/
theorem mirrored (h : m.Founded) (g : m.Grows (fun _ _ => True) m') :
    Mirrored (.between m m') { m with output := #[] } { m' with output := #[] } := by
  have sizes := g.size_le
  have counts : m.closures.size ≤ m'.closures.size := by simpa using g.closures.length_le
  refine ⟨fun i => ?_, shift_add sizes, fun i => ?_, shift_add counts, shift_add g.serial, rfl⟩
  · cases hf : m.frames[i]? with
    | some f =>
        have hi : i < m.frames.size := (Array.getElem?_eq_some_iff.mp hf).1
        have fixed : f.rename (.between m m') = f := h.settled i f hf _ fun _ => shift_of_lt
        simp only [Renaming.between, shift_of_lt hi, h.frames_eq g hf, Option.map_some]
        exact congrArg some fixed.symm
    | none =>
        have hi : m.frames.size ≤ i := Array.getElem?_eq_none_iff.mp hf
        obtain ⟨k, rfl⟩ := Nat.exists_eq_add_of_le hi
        simp [Renaming.between, shift_add sizes]
  · simp [h.closures, Renaming.between, shift]

end Founded
end Memory

/-- Whether a form stands for a value; one form stands for the lack of one. -/
def Form.isAssigned : Form → Bool
  | .scalar .uninitialized => false
  | _ => true

theorem Value.bindTo_assigned {v : Value} (h : v ≠ .uninitialized) (id : Nat) (name : Value) :
    v.bindTo id name ≠ .uninitialized := by
  cases v <;> simp_all [bindTo, bindOperation]

theorem standard_assigned : ∀ e ∈ Table.standard, e.2 ≠ .uninitialized := by
  simp [Table.standard]

namespace Eval

variable {α γ : Type} {P : α → Prop} {Q : γ → Prop}

/-- Whatever the computation returns has the property. -/
def Yields (P : α → Prop) (act : Eval Code α) : Prop :=
  ∀ m, act.Ends m (fun a _ => P a) (fun _ _ => True)

theorem yields_pure {a : α} (h : P a) : Yields P (pure a) := fun _ => h

theorem yields_throw (e : Fault) : Yields P (throw e) := fun _ => trivial

theorem yields_any (act : Eval Code α) : Yields (fun _ => True) act := by
  intro m
  unfold Ends
  split <;> trivial

theorem Yields.bind {act : Eval Code α} {next : α → Eval Code γ} (h : Yields P act)
    (hn : ∀ a, P a → Yields Q (next a)) : Yields Q (act >>= next) := by
  intro m
  exact (h m).bind fun a m' ha => hn a ha m'

theorem yields_readNumber (n : Option Number) : Yields (· ≠ .uninitialized) (readNumber n) := by
  cases n with
  | none => exact yields_throw _
  | some n =>
      refine (yields_any _).bind fun id _ => yields_pure ?_
      cases n <;> simp [Value.ofNumber]

theorem yields_bindNew {v : Value} (h : v ≠ .uninitialized) (name : Value) :
    Yields (· ≠ .uninitialized) (bindNew name v) :=
  (yields_any _).bind fun id _ => yields_pure (Value.bindTo_assigned h id name)

theorem yields_standardEntry (name : String) :
    Yields (· ≠ .uninitialized) (standardEntry name) := by
  unfold standardEntry
  split
  · rename_i v found
    obtain ⟨before, rest, split, -⟩ := List.lookup_eq_some_iff.mp found
    exact yields_bindNew (standard_assigned (name, v) (by simp [split])) _
  · exact yields_throw _

/-- Nothing but its own form builds the lack of a value. -/
theorem yields_build {f : Form} (h : f.isAssigned) :
    Yields (· ≠ .uninitialized) (f.build nothing) := by
  cases f with
  | scalar s =>
      refine yields_pure ?_
      cases s <;> simp_all [Scalar.value, Form.isAssigned]
  | integer _ | float _ => exact yields_readNumber _
  | stored _ => exact yields_throw _
  | standard name => exact yields_standardEntry name
  | primitive op f => exact (yields_any _).bind fun name _ => yields_bindNew (by simp) name
  | list _ | tuple _ | dict _ =>
      exact (yields_any _).bind fun _ _ => yields_pure (by simp [Value.ofEntries])
  | marker _ | tagged _ | node _ _ | made _ _ =>
      exact (yields_any _).bind fun _ _ => (yields_any _).bind fun _ _ => yields_pure (by simp)

theorem yields_buildEntries {es : List (String × Form)} (h : ∀ e ∈ es, e.2.isAssigned) :
    Yields (fun t : Table => ∀ e ∈ t, e.2 ≠ .uninitialized) (buildEntries nothing es) := by
  induction es with
  | nil => exact yields_pure (by simp)
  | cons e es ih =>
      refine (yields_build (h e List.mem_cons_self)).bind fun v hv => ?_
      refine (ih fun e he => h e (List.mem_cons_of_mem _ he)).bind fun t ht => ?_
      exact yields_pure (List.forall_mem_cons.mpr ⟨hv, ht⟩)

theorem yields_bindTable {t : Table} (h : ∀ e ∈ t, e.2 ≠ .uninitialized) :
    Yields (fun vs : List Value => ∀ v ∈ vs, v ≠ .uninitialized) (Table.bind t) := by
  induction t with
  | nil => exact yields_pure (by simp)
  | cons e t ih =>
      refine (yields_bindNew (h e List.mem_cons_self) _).bind fun v hv => ?_
      refine (ih fun e he => h e (List.mem_cons_of_mem _ he)).bind fun vs hvs => ?_
      exact yields_pure (List.forall_mem_cons.mpr ⟨hv, hvs⟩)

theorem makes_bindTable {n : Nat} {t : Table} (h : Settled renameTable n t) :
    Makes n renameItems (Table.bind t) := by
  induction t generalizing n with
  | nil => exact makes_pure fun _ _ => rfl
  | cons e t ih =>
      obtain ⟨name, v⟩ := e
      have parts (ρ : Renaming) (keeps : ρ.Keeps n) : v.rename ρ = v ∧ renameTable ρ t = t := by
        have whole := h ρ keeps
        simpa using whole
      refine (makes_bindNew (fun _ _ => rfl) fun ρ keeps => (parts ρ keeps).1).bind
        fun w n' hn hw => ?_
      have rest : Settled renameTable n t := fun ρ keeps => (parts ρ keeps).2
      refine (ih (rest.mono hn)).bind fun ws _ hn' hws => makes_pure fun ρ keeps => ?_
      rw [renameItems, hw.mono hn' ρ keeps, hws ρ keeps]

/-- The frame of a table whose values are settled is settled, and has a value for every name. -/
theorem frame_of_table {n : Nat} {t : Table} {values : List Value} {f : Frame}
    (hf : Frame.ofValues (t.map fun e => .text e.1) values = .ok f)
    (settled : Settled renameItems n values) (assigned : ∀ v ∈ values, v ≠ .uninitialized) :
    Settled Frame.rename n f ∧ ∀ s ∈ f.slots, s.2 ≠ none := by
  constructor
  · intro ρ keeps
    have renamed := Frame.ofValues_rename ρ (t.map fun e => .text e.1) values
    rw [← renameItems_eq_map ρ values, settled ρ keeps, List.map_map, Function.comp_def] at renamed
    simp only [Value.rename] at renamed
    rw [hf] at renamed
    exact (Except.ok.inj renamed).symm
  · intro s hs none
    obtain ⟨slot, hslot, content⟩ := Frame.mem_slots_ofSlots hf hs
    obtain ⟨v, hv, hslot⟩ := List.mem_map.mp (List.of_mem_zip hslot).2
    have missing : v.slot = Option.none := by rw [hslot, ← content, none]
    exact assigned v hv (by cases v <;> simp_all [Value.slot])

/-- The environment of a table, made in a memory that holds nothing yet. -/
theorem ends_environment {t : Table} {m : Memory Code} (frames : m.frames = #[])
    (closures : m.closures = #[]) (settled : Settled renameTable m.serial t)
    (assigned : ∀ e ∈ t, e.2 ≠ .uninitialized) :
    (Table.environment t).Ends m
      (fun env m' => m'.Founded ∧ ∀ i ∈ env, i < m'.frames.size) (fun _ _ => True) := by
  simp only [Table.environment, ends_bind]
  have bound := (makes_bindTable settled m (Nat.le_refl _)).and (yields_bindTable assigned m)
  refine bound.imp ?_ (fun _ _ _ => trivial)
  rintro values _ ⟨⟨⟨k, rfl⟩, hvalues⟩, given⟩
  rw [ends_ofMishap]
  split
  · rename_i f hf
    obtain ⟨hsettled, hassigned⟩ := frame_of_table hf hvalues given
    have only (i : Nat) (g : Frame) (hg : (#[f] : Array Frame)[i]? = some g) : g = f := by
      cases i with
      | zero => simpa using hg.symm
      | succ i => simp at hg
    rw [ends_push]
    simp only [Memory.push, frames]
    refine ⟨⟨closures, fun i g hg => ?_, fun i g hg => ?_⟩, by simp⟩
    · rw [only i g hg]
      exact hsettled
    · rw [only i g hg]
      exact hassigned
  · trivial

theorem ends_create {t : Table} {m : Memory Code} (frames : m.frames = #[])
    (closures : m.closures = #[]) (settled : Settled renameTable m.serial t)
    (assigned : ∀ e ∈ t, e.2 ≠ .uninitialized) (maxDepth : Option Int) (setting : Option String) :
    (Interpreter.create t maxDepth setting).Ends m
      (fun i m' => m'.Founded ∧ ∀ j ∈ i.globalEnv, j < m'.frames.size) (fun _ _ => True) := by
  refine (ends_environment frames closures settled assigned).bind fun env m' made => ?_
  cases maxDepth with
  | some depth => exact made
  | none =>
      simp only [ends_bind, ends_ofExcept]
      split
      · exact made
      · trivial

end Eval

/-- Whether the entries of a table are values; the standard one is taken when none is given. -/
def tableAssigned : Option (List (String × Form)) → Bool
  | none => true
  | some entries => entries.all (·.2.isAssigned)

theorem standard_settled (n : Nat) : Settled renameTable n Table.standard := fun _ _ => rfl

theorem founded_of_create {t : Table} {m m' : Memory Code} {maxDepth : Option Int}
    {setting : Option String} {i : Interpreter} (frames : m.frames = #[])
    (closures : m.closures = #[]) (settled : Settled renameTable m.serial t)
    (assigned : ∀ e ∈ t, e.2 ≠ .uninitialized)
    (created : Interpreter.create t maxDepth setting m = .ok i m') :
    m'.Founded ∧ ∀ j ∈ i.globalEnv, j < m'.frames.size :=
  (Eval.ends_create frames closures settled assigned maxDepth setting).of_ok created

namespace Session

/-- A new session has a founded memory, in which its global environment lies. -/
theorem founded_start {table : Option (List (String × Form))} {maxDepth : Option Int}
    {setting : Option String} {s : Session} (h : start table maxDepth setting = .ok s)
    (assigned : tableAssigned table) :
    s.memory.Founded ∧ ∀ i ∈ s.interpreter.globalEnv, i < s.memory.frames.size := by
  unfold start at h
  dsimp only at h
  split at h
  · rename_i interpreter memory created
    cases h
    cases table with
    | none =>
        rw [pure_bind] at created
        exact founded_of_create rfl rfl (standard_settled _) standard_assigned created
    | some entries =>
        have values : ∀ e ∈ entries, e.2.isAssigned := List.all_eq_true.mp assigned
        have built := (Eval.makes_buildEntries entries 0 {} (Nat.le_refl _)).and
          (Eval.yields_buildEntries values {})
        obtain ⟨t, m, ended, created⟩ := Eval.bind_eq_ok.mp created
        obtain ⟨⟨⟨k, rfl⟩, settled⟩, given⟩ := built.of_ok ended
        exact founded_of_create rfl rfl settled given created
  · cases h

/-- The answer to a tagged program, by what its run comes to. -/
theorem step_runTagged (s : Session) (tree : Form) (key : Option String) :
    (s.step (.runTagged tree) key).1 =
      match (s.build tree >>= s.interpreter.runTagged) { s.memory with output := #[] } with
      | .ok v m => { result := .ok v.encode, output := m.output.toList }
      | .error fault m => { result := .error fault.report, output := m.output.toList } := by
  have act : s.act (.runTagged tree) =
      (s.build tree >>= s.interpreter.runTagged) >>= fun v => pure (value v) := by
    simp [Session.act]
  unfold step
  rw [act]
  cases ended : (s.build tree >>= s.interpreter.runTagged) { s.memory with output := #[] } with
  | ok v m =>
      rw [Eval.bind_of_ok ended]
      rfl
  | error fault m => rw [Eval.bind_of_error ended]

/-- The same program gets the same answer in two sessions of one interpreter whose memories mirror
each other. -/
theorem answer_eq_of_mirrored {ρ : Renaming} {s s' : Session} {tree : Form}
    (mirrored : Memory.Mirrored ρ { s.memory with output := #[] }
      { s'.memory with output := #[] })
    (interpreter : s'.interpreter = s.interpreter)
    (kept : s.interpreter.globalEnv.map ρ.frame = s.interpreter.globalEnv) (free : tree.free)
    (key key' : Option String) :
    (s'.step (.runTagged tree) key').1 = (s.step (.runTagged tree) key).1 := by
  have run : Eval.Mirrors ρ (Value.rename ρ) (s.build tree >>= s.interpreter.runTagged)
      (s'.build tree >>= s.interpreter.runTagged) :=
    (Eval.mirrors_build s.storedValue s'.storedValue tree free).bind
      (Eval.mirrors_runTagged kept)
  have ends := run _ _ mirrored
  rw [step_runTagged, step_runTagged, interpreter]
  generalize (s.build tree >>= s.interpreter.runTagged) _ = r,
    (s'.build tree >>= s.interpreter.runTagged) _ = r' at ends
  cases ends with
  | ok ha hm => simp [ha, hm.output]
  | error he hm => simp [he, hm.output, Fault.report_rename]

end Session

/-- A program that takes nothing from the store is answered after any history as it is in a new
session, and no history changes the interpreter or its global frame. -/
theorem programs_ignore_history {table : Option (List (String × Form))} {maxDepth : Option Int}
    {setting : Option String} {s : Session} (started : Session.start table maxDepth setting = .ok s)
    (assigned : tableAssigned table) (history : List (Step × Option String)) {tree : Form}
    (free : tree.free) (key : Option String) :
    s.steps (history ++ [(.runTagged tree, key)]) =
        s.steps history ++ s.steps [(.runTagged tree, key)] ∧
      (s.after history).interpreter = s.interpreter ∧
      ∀ i ∈ s.interpreter.globalEnv,
        (s.after history).memory.frame i = s.memory.frame i := by
  obtain ⟨founded, inside⟩ := Session.founded_start started assigned
  obtain ⟨interpreter, grown⟩ := s.after_grows history
  refine ⟨?_, interpreter, fun i hi => ?_⟩
  · have kept : s.interpreter.globalEnv.map
        (Renaming.between s.memory (s.after history).memory).frame = s.interpreter.globalEnv :=
      (List.map_congr_left fun i hi => shift_of_lt (inside i hi)).trans (List.map_id _)
    rw [Session.steps_append]
    simp only [Session.steps]
    rw [Session.answer_eq_of_mirrored (founded.mirrored grown) interpreter kept free]
  · have hf := Array.getElem?_eq_getElem (inside i hi)
    simp only [Memory.frame, hf, founded.frames_eq grown hf]

namespace Sample

/-- A constant and the equality of programs. -/
def table : Option (List (String × Form)) :=
  some [("k", .scalar (.int 7)), ("same", .standard "===")]

/-- A function is made and saved, a declaration in the global frame is tried and fails, and the
function is applied. -/
def history : List (Step × Option String) :=
  [(.runTagged (.list [.scalar (.text "function_definition"), .list [.scalar (.text "x")],
      .list [.scalar (.text "return_statement"),
        .list [.scalar (.text "name"), .scalar (.text "x")]]]), some "f"),
    (.assign (.scalar (.text "k")) (.scalar (.int 8)) (some "_global"), none),
    (.apply (.stored "f") (.list [.float "nan"]), none)]

/-- Compares a function with itself. -/
def comparison : Form :=
  .list [.scalar (.text "sequence"), .list [
    .list [.scalar (.text "constant_declaration"), .scalar (.text "g"),
      .list [.scalar (.text "function_definition"), .list [], .scalar (.int 1)]],
    .list [.scalar (.text "application"), .list [.scalar (.text "name"), .scalar (.text "same")],
      .list [.list [.scalar (.text "name"), .scalar (.text "g")],
        .list [.scalar (.text "name"), .scalar (.text "g")]]]]]

end Sample

theorem programs_ignore_history_with_functions :
    ∃ s, Session.start Sample.table (some 50) none = .ok s ∧ tableAssigned Sample.table ∧
      Sample.comparison.free ∧
      s.steps (Sample.history ++ [(.runTagged Sample.comparison, none)]) =
        s.steps Sample.history ++ s.steps [(.runTagged Sample.comparison, none)] := by
  have starts : (Session.start Sample.table (some 50) none).isOk = true := by decide +kernel
  cases started : Session.start Sample.table (some 50) none with
  | error e => simp [started, Except.isOk, Except.toBool] at starts
  | ok s =>
      exact ⟨s, rfl, by decide, by decide,
        (programs_ignore_history started (by decide) Sample.history (by decide) none).1⟩

end ConstLang
