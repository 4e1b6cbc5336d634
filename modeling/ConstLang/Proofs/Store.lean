import ConstLang.Proofs.Session
import ConstLang.Proofs.Whole

/-!
The store of a session. Everything in it comes from the memory of the session: the frames
of its environments are there, and its values and its code have no identities but those
that the memory gave out. Every step keeps it so, whether it succeeds or fails, and memory
stays whole.
-/

namespace ConstLang

section Given

variable {β : Type} (m : Memory β)

mutual

/-- Plain data has no identities. -/
theorem Data.gave_value : ∀ d : Data, d.value.Every m.Gave
  | .null | .bool _ | .int _ | .text _ => trivial
  | .list ds => ⟨trivial, gave_dataValues ds⟩
  | .object fs => ⟨trivial, gave_fieldValues fs⟩

theorem gave_dataValues : ∀ ds : List Data, EveryItem m.Gave (dataValues ds)
  | [] => trivial
  | d :: ds => ⟨Data.gave_value d, gave_dataValues ds⟩

theorem gave_fieldValues : ∀ fs : List (String × Data), EveryEntry m.Gave (fieldValues fs)
  | [] => trivial
  | (_, d) :: fs => ⟨trivial, Data.gave_value d, gave_fieldValues fs⟩

end

theorem Scalar.gave_value (s : Scalar) : s.value.Every m.Gave := by
  cases s <;> trivial

theorem Table.gave_standard : ∀ e ∈ Table.standard, e.2.Every m.Gave := by
  simp [Table.standard, Value.Every, Memory.Gave]

theorem Value.gave_ofEntries {es : List (String × Value)} (h : ∀ e ∈ es, e.2.Every m.Gave) :
    (Value.ofEntries es).Every m.Gave :=
  ⟨trivial, everyEntry_iff.mpr (List.forall_mem_map.mpr fun e he => ⟨trivial, h e he⟩)⟩

end Given

theorem forall_mem_putEntry {P : Value → Prop} {v : Value} {es : List (String × Value)}
    (hv : P v) (h : ∀ e ∈ es, P e.2) (key : String) : ∀ e ∈ putEntry key v es, P e.2 := by
  induction es with
  | nil => simpa [putEntry] using hv
  | cons e es ih =>
      obtain ⟨he, hes⟩ := List.forall_mem_cons.mp h
      simp only [putEntry]
      split
      · exact List.forall_mem_cons.mpr ⟨hv, hes⟩
      · exact List.forall_mem_cons.mpr ⟨he, ih hes⟩

theorem forall_mem_foldl_putEntry {P : Value → Prop} {es acc : List (String × Value)}
    (hacc : ∀ e ∈ acc, P e.2) (h : ∀ e ∈ es, P e.2) :
    ∀ e ∈ es.foldl (fun d e => putEntry e.1 e.2 d) acc, P e.2 := by
  induction es generalizing acc with
  | nil => exact hacc
  | cons e es ih =>
      obtain ⟨he, hes⟩ := List.forall_mem_cons.mp h
      exact ih (forall_mem_putEntry he hacc e.1) hes

namespace Eval

variable {m : Memory Code}

/-- An answer that memory has no part in. -/
theorem keepsWhole_settled {α : Type} (whole : m.Whole) (r : Except Mishap α) :
    (ofMishap r : Eval Code α).KeepsWhole m (fun _ _ => True) :=
  keepsWhole_ofMishap whole fun _ _ => trivial

theorem keepsWhole_readNumber (whole : m.Whole) (n : Option Number) :
    (readNumber n).KeepsWhole m Obtained := by
  cases n with
  | none => exact keepsWhole_throw _ whole
  | some n =>
      refine (keepsWhole_fresh whole).bind fun id k _ whole hid => ?_
      exact keepsWhole_pure whole (Value.gave_ofNumber hid n)

theorem keepsWhole_bindNew {name v : Value} (whole : m.Whole) (hname : Obtained name m)
    (hv : Obtained v m) : (bindNew name v).KeepsWhole m Obtained := by
  refine (keepsWhole_fresh whole).bind fun id k later whole hid => ?_
  exact keepsWhole_pure whole (Value.gave_bindTo (hv.imp later.gave) (hname.imp later.gave) hid)

theorem keepsWhole_standardEntry (whole : m.Whole) (name : String) :
    (standardEntry name).KeepsWhole m Obtained := by
  unfold standardEntry
  split
  · rename_i v found
    obtain ⟨before, rest, split, -⟩ := List.lookup_eq_some_iff.mp found
    exact keepsWhole_bindNew whole trivial (Table.gave_standard m (name, v) (by simp [split]))
  · exact keepsWhole_throw _ whole

/-- Whatever is found under a key comes from the memory. -/
def Supplies (stored : String → Except Mishap Value) (m : Memory Code) : Prop :=
  ∀ key v, stored key = .ok v → Obtained v m

theorem Supplies.later {stored : String → Except Mishap Value} {n : Memory Code}
    (h : Supplies stored m) (g : m.Later n) : Supplies stored n :=
  fun key v found => (h key v found).imp g.gave

section Build

variable {stored : String → Except Mishap Value}

mutual

theorem keepsWhole_build : ∀ (f : Form) {m : Memory Code}, m.Whole → Supplies stored m →
    (f.build stored).KeepsWhole m Obtained
  | .scalar s, m, whole, _ => keepsWhole_pure whole (s.gave_value m)
  | .integer _, _, whole, _ | .float _, _, whole, _ => keepsWhole_readNumber whole _
  | .list fs, _, whole, hs | .tuple fs, _, whole, hs =>
      (keepsWhole_buildAll fs whole hs).bind fun _ _ _ whole hvs =>
        keepsWhole_pure whole ⟨trivial, everyItem_iff.mpr hvs⟩
  | .dict es, _, whole, hs =>
      (keepsWhole_buildEntries es whole hs).bind fun _ _ _ whole hes =>
        keepsWhole_pure whole
          (Value.gave_ofEntries _ (forall_mem_foldl_putEntry (List.forall_mem_nil _) hes))
  | .stored key, _, whole, hs => keepsWhole_ofMishap whole fun v found => hs key v found
  | .standard name, _, whole, _ => keepsWhole_standardEntry whole name
  | .primitive _ f, _, whole, hs =>
      (keepsWhole_build f whole hs).bind fun _ _ _ whole hname =>
        keepsWhole_bindNew whole hname trivial
  | .marker f, _, whole, hs =>
      (keepsWhole_build f whole hs).bind fun _ _ _ whole hv =>
        (keepsWhole_fresh whole).bind fun _ _ later whole hid =>
          keepsWhole_pure whole ⟨hid, hv.imp later.gave⟩
  | .tagged f, _, whole, hs =>
      (keepsWhole_build f whole hs).bind fun _ _ _ whole hv =>
        (keepsWhole_ofExcept whole fun _ ok => Value.gave_read hv ok).bind
          fun _ _ _ whole hn => keepsWhole_pure whole hn
  | .node _ fs, _, whole, hs =>
      (keepsWhole_buildAll fs whole hs).bind fun _ _ _ whole hvs =>
        (keepsWhole_ofMishap whole fun _ ok => NodeKind.gave_build hvs ok).bind
          fun _ _ _ whole hn => keepsWhole_pure whole hn
  | .made _ fs, _, whole, hs =>
      (keepsWhole_buildAll fs whole hs).bind fun _ _ _ whole hvs =>
        (keepsWhole_ofMishap whole fun _ ok => Constructor.gave_make hvs ok).bind
          fun _ _ _ whole hn => keepsWhole_pure whole hn

theorem keepsWhole_buildAll : ∀ (fs : List Form) {m : Memory Code}, m.Whole → Supplies stored m →
    (buildAll stored fs).KeepsWhole m (fun vs n => ∀ v ∈ vs, Obtained v n)
  | [], _, whole, _ => keepsWhole_pure whole (by simp)
  | f :: fs, _, whole, hs =>
      (keepsWhole_build f whole hs).bind fun _ _ later whole hv =>
        (keepsWhole_buildAll fs whole (hs.later later)).bind fun _ _ later whole hvs =>
          keepsWhole_pure whole (List.forall_mem_cons.mpr ⟨hv.imp later.gave, hvs⟩)

theorem keepsWhole_buildEntries : ∀ (es : List (String × Form)) {m : Memory Code}, m.Whole →
    Supplies stored m →
    (buildEntries stored es).KeepsWhole m (fun es n => ∀ e ∈ es, Obtained e.2 n)
  | [], _, whole, _ => keepsWhole_pure whole (by simp)
  | (_, f) :: es, _, whole, hs =>
      (keepsWhole_build f whole hs).bind fun _ _ later whole hv =>
        (keepsWhole_buildEntries es whole (hs.later later)).bind fun _ _ later whole hes =>
          keepsWhole_pure whole (List.forall_mem_cons.mpr ⟨hv.imp later.gave, hes⟩)

end

end Build

theorem keepsWhole_bindTable {t : Table} (whole : m.Whole) (ht : ∀ e ∈ t, Obtained e.2 m) :
    (Table.bind t).KeepsWhole m (fun vs n => ∀ v ∈ vs, Obtained v n) := by
  induction t generalizing m with
  | nil => exact keepsWhole_pure whole (by simp)
  | cons e t ih =>
      obtain ⟨he, ht⟩ := List.forall_mem_cons.mp ht
      have name : Obtained (.text e.1) m := trivial
      refine (keepsWhole_bindNew whole name he).bind fun v n later whole hv => ?_
      refine (ih whole fun e he => (ht e he).imp later.gave).bind fun vs k later whole hvs => ?_
      exact keepsWhole_pure whole (List.forall_mem_cons.mpr ⟨hv.imp later.gave, hvs⟩)

/-- A new frame, if it can be made, on top of an environment. -/
theorem keepsWhole_pushMade {r : Except Mishap Frame} {base : Env} (whole : m.Whole)
    (hr : ∀ f, r = .ok f → f.Holds m.Gave) (inside : m.Inside base) :
    (do push (← ofMishap r) base : Eval Code Env).KeepsWhole m (fun env n => n.Inside env) := by
  refine (keepsWhole_ofMishap (P := fun f n => f.Holds n.Gave) whole hr).bind
    fun f n later whole hf => ?_
  exact keepsWhole_push whole hf (inside.later later)

theorem keepsWhole_environment {t : Table} (whole : m.Whole) (ht : ∀ e ∈ t, Obtained e.2 m) :
    (Table.environment t).KeepsWhole m (fun env n => n.Inside env) := by
  refine (keepsWhole_bindTable whole ht).bind fun vs n _ whole hvs => ?_
  exact keepsWhole_pushMade whole (fun f made => Frame.holds_ofValues made hvs)
    (by simp [Memory.Inside])

theorem keepsWhole_extendZip {names values : List Value} {base : Env} (whole : m.Whole)
    (hvalues : ∀ v ∈ values, Obtained v m) (inside : m.Inside base) :
    (extendZip names values base).KeepsWhole m (fun env n => n.Inside env) :=
  keepsWhole_pushMade whole (fun _ made => Frame.holds_ofValues made hvalues) inside

theorem keepsWhole_extend {names values : List Value} {base : Env} (whole : m.Whole)
    (hvalues : ∀ v ∈ values, Obtained v m) (inside : m.Inside base) :
    (extend names values base).KeepsWhole m (fun env n => n.Inside env) := by
  unfold extend
  split
  · exact (keepsWhole_throw (P := fun _ _ => True) _ whole).bind fun _ n later whole _ =>
      keepsWhole_extendZip whole (fun v hv => (hvalues v hv).imp later.gave) (inside.later later)
  · exact keepsWhole_extendZip whole hvalues inside

theorem keepsWhole_extendUnassigned {names : List Value} {base : Env} (whole : m.Whole)
    (inside : m.Inside base) :
    (extendUnassigned names base).KeepsWhole m (fun env n => n.Inside env) :=
  keepsWhole_pushMade whole (fun _ made => Frame.holds_unassigned made) inside

theorem keepsWhole_evaluate {v : Value} {env : Env} (whole : m.Whole) (hv : Obtained v m)
    (inside : m.Inside env) (depth : Nat) : (evaluate depth v env).KeepsWhole m Obtained := by
  refine (keepsWhole_ofExcept (P := fun c n => c.Every n.Gave) whole
    fun c ok => Value.gave_analyze hv ok).bind fun c n later whole hc => ?_
  exact keepsWhole_run depth whole ⟨hc, inside.later later⟩

theorem KeepsWhole.guardDepth {α : Type} {act : Eval Code α} {P : α → Memory Code → Prop}
    (h : act.KeepsWhole m P) (limit : Nat) : (guardDepth limit act).KeepsWhole m P :=
  ⟨h.ends.guardDepth limit fun _ => id⟩

theorem keepsWhole_runProgram {program : Value} {env : Env} (whole : m.Whole)
    (hp : Obtained program m) (inside : m.Inside env) (limit : Nat) :
    (runProgram limit program env).KeepsWhole m Obtained := by
  have made : Constructor.block.make [program] = .ok (Node.makeBlock program) := rfl
  have block : Obtained (.node (Node.makeBlock program)) m :=
    Constructor.gave_make (by simpa [Obtained] using hp) made
  refine ((keepsWhole_evaluate whole block inside limit).guardDepth limit).bind
    fun v n _ whole hv => ?_
  split
  · exact keepsWhole_throw _ whole
  · exact keepsWhole_pure whole hv

theorem keepsWhole_create {t : Table} (whole : m.Whole) (ht : ∀ e ∈ t, Obtained e.2 m)
    (maxDepth : Option Int) (setting : Option String) :
    (Interpreter.create t maxDepth setting).KeepsWhole m (fun i n => n.Inside i.globalEnv) := by
  refine (keepsWhole_environment whole ht).bind fun env n _ whole inside => ?_
  cases maxDepth with
  | some depth => exact keepsWhole_pure whole inside
  | none =>
      refine (keepsWhole_ofExcept (P := fun _ _ => True) whole fun _ _ => trivial).bind
        fun depth k g whole _ => keepsWhole_pure whole (inside.later g)

theorem keepsWhole_applyFunction {args : List Value} (whole : m.Whole)
    (hargs : ∀ x ∈ args, Obtained x m) (depth : Nat) (f : Value) :
    (applyFunction depth f args).KeepsWhole m Obtained :=
  keepsWhole_call (fun _ _ _ whole h => keepsWhole_run depth whole h) whole hargs

end Eval

namespace Memory

/-- Memory as a step finds it, with the output of earlier steps left behind. -/
def cleared (m : Memory Code) : Memory Code := { m with output := #[] }

theorem later_cleared (m : Memory Code) : m.Later m.cleared :=
  have same : m.Later m := .refl _ m
  ⟨same.frames, same.closures, same.serial⟩

theorem Whole.cleared {m : Memory Code} (h : m.Whole) : m.cleared.Whole :=
  h.of_holds m.later_cleared h.holds rfl

end Memory

open Eval

/-- The thing comes from the memory. -/
def Thing.In (m : Memory Code) : Thing → Prop
  | .env e => m.Inside e
  | .code c => c.Every m.Gave
  | .value v => v.Every m.Gave

theorem Thing.In.later {m n : Memory Code} {t : Thing} (h : t.In m) (g : m.Later n) : t.In n := by
  cases t with
  | env e => exact Memory.Inside.later h g
  | code c => exact Code.Every.imp g.gave h
  | value v => exact Value.Every.imp g.gave h

namespace Interpreter

variable {i : Interpreter} {m : Memory Code}

theorem keepsWhole_runProgram {program : Value} (whole : m.Whole) (inside : m.Inside i.globalEnv)
    (hp : Obtained program m) : (i.runProgram program).KeepsWhole m Obtained :=
  (keepsWhole_settled whole _).bind fun limit _ later whole _ =>
    Eval.keepsWhole_runProgram whole (hp.imp later.gave) (inside.later later) limit

theorem keepsWhole_runTagged {tree : Value} (whole : m.Whole) (inside : m.Inside i.globalEnv)
    (htree : Obtained tree m) : (i.runTagged tree).KeepsWhole m Obtained :=
  (keepsWhole_ofExcept (P := fun n m => Obtained (.node n) m) whole
    fun _ ok => Value.gave_read htree ok).bind fun _ _ later whole hn =>
      keepsWhole_runProgram whole (inside.later later) hn

theorem keepsWhole_evaluate {v : Value} {env : Env} (whole : m.Whole)
    (inside : m.Inside i.globalEnv) (hv : Obtained v m) (henv : m.Inside env) :
    (i.evaluate v env).KeepsWhole m Obtained := by
  refine (keepsWhole_settled whole _).bind fun limit _ later whole _ => ?_
  refine (Eval.keepsWhole_evaluate whole (hv.imp later.gave) ?_ limit).guardDepth limit
  split
  · exact inside.later later
  · exact henv.later later

end Interpreter

namespace Session

/-- The memory is whole, and everything the session has comes from there. -/
structure WholeIn (s : Session) (m : Memory Code) : Prop where
  memory : m.Whole
  globalEnv : m.Inside s.interpreter.globalEnv
  things : ∀ e ∈ s.things, e.2.In m

abbrev Whole (s : Session) : Prop := s.WholeIn s.memory

theorem mem_of_storedThing {s : Session} {key : String} {t : Thing}
    (h : s.storedThing key = .ok t) : (key, t) ∈ s.things := by
  unfold storedThing at h
  split at h
  · rename_i t' found
    cases h
    obtain ⟨before, rest, split, -⟩ := List.lookup_eq_some_iff.mp found
    simp [split]
  · cases h

namespace WholeIn

variable {s : Session} {m : Memory Code} (h : s.WholeIn m)

include h

theorem later {n : Memory Code} (g : m.Later n) (whole : n.Whole) : s.WholeIn n :=
  ⟨whole, h.globalEnv.later g, fun e he => (h.things e he).later g⟩

theorem storedValue {key : String} {v : Value} (found : s.storedValue key = .ok v) :
    Obtained v m := by
  simp only [Session.storedValue, except_bind_eq_ok] at found
  obtain ⟨t, stored, found⟩ := found
  cases t with
  | value w =>
      cases found
      exact h.things _ (mem_of_storedThing stored)
  | _ => cases found

theorem storedEnv {key : String} {env : Env} (found : s.storedEnv key = .ok env) :
    m.Inside env := by
  simp only [Session.storedEnv, except_bind_eq_ok] at found
  obtain ⟨t, stored, found⟩ := found
  cases t with
  | env e =>
      cases found
      exact h.things _ (mem_of_storedThing stored)
  | _ => cases found

theorem storedCode {key : String} {c : Code} (found : s.storedCode key = .ok c) :
    c.Every m.Gave := by
  simp only [Session.storedCode, except_bind_eq_ok] at found
  obtain ⟨t, stored, found⟩ := found
  cases t with
  | code d =>
      cases found
      exact h.things _ (mem_of_storedThing stored)
  | _ => cases found

theorem supplies : Supplies s.storedValue m := fun _ _ found => h.storedValue found

theorem build (f : Form) : (s.build f).KeepsWhole m Obtained :=
  keepsWhole_build f h.memory h.supplies

theorem envOf (key : Option String) : (s.envOf key).KeepsWhole m fun env n => n.Inside env := by
  cases key with
  | none => exact keepsWhole_pure h.memory (by simp [Memory.Inside])
  | some key => exact keepsWhole_ofMishap h.memory fun _ found => h.storedEnv found

end WholeIn

/-- What a step makes comes from the memory that it leaves. -/
def Made (outcome : Outcome) (m : Memory Code) : Prop :=
  (∀ r, outcome.reply = .ok r → Obtained r.saved m) ∧
    ∀ key t, outcome.stores = some (key, t) → t.In m

theorem made_value {v : Value} {m : Memory Code} (h : Obtained v m) : Made (value v) m :=
  ⟨fun _ e => by cases e; exact h, fun _ _ e => by cases e⟩

theorem made_view (d : Except Mishap Data) (m : Memory Code) : Made (view d) m := by
  refine ⟨fun r e => ?_, fun _ _ e => by cases e⟩
  cases d with
  | ok d =>
      cases e
      exact d.gave_value m
  | error _ => cases e

section Act

variable {s : Session} {m : Memory Code}

theorem keepsWhole_value {act : Eval Code Value} (h : act.KeepsWhole m Obtained) :
    (do return value (← act) : Eval Code Outcome).KeepsWhole m Made :=
  h.bind fun _ _ _ whole hv => keepsWhole_pure whole (made_value hv)

theorem keepsWhole_madeEnv {act : Eval Code Env} (h : act.KeepsWhole m fun env n => n.Inside env)
    (key : String) : (act >>= madeEnv key).KeepsWhole m Made := by
  refine h.bind fun env n _ whole inside => ⟨⟨.refl _ n, whole, fun r e => ?_, fun _ _ e => ?_⟩⟩
  · cases text : n.inspectChain env <;> simp [text, Except.map] at e
    subst e
    trivial
  · cases e
    exact inside

theorem keepsWhole_items {v : Value} (whole : m.Whole) (hv : Obtained v m) :
    (items v).KeepsWhole m fun xs n => ∀ x ∈ xs, Obtained x n :=
  keepsWhole_ofMishap whole fun _ ok => Value.gave_iterate hv ok

theorem keepsWhole_apply {f args : Value} (whole : m.Whole) (hargs : Obtained args m) :
    (Session.apply f args).KeepsWhole m Obtained := by
  have applied : (do applyFunction baseLimit f (← ofMishap args.iterate)).KeepsWhole m Obtained :=
    (keepsWhole_items whole hargs).bind
      fun _ _ _ whole hxs => keepsWhole_applyFunction whole hxs baseLimit f
  unfold Session.apply
  split
  · exact applied
  · exact applied
  · exact keepsWhole_throw _ whole

/-- The steps that evaluate something they build in an environment. -/
theorem keepsWhole_evaluation {next : Value → Env → Eval Code Value} (h : s.WholeIn m)
    (hnext : ∀ {v env n}, s.WholeIn n → Obtained v n → n.Inside env →
      (next v env).KeepsWhole n Obtained) (f : Form) (key : Option String) :
    (do return value (← next (← s.build f) (← s.envOf key)) : Eval Code Outcome).KeepsWhole m
      Made := by
  refine (h.build f).bind fun v n g whole hv => ?_
  have h := h.later g whole
  refine (h.envOf key).bind fun env k g whole inside => ?_
  exact keepsWhole_value (hnext (h.later g whole) (hv.imp g.gave) inside)

/-- The steps that extend an environment by names and values. -/
theorem keepsWhole_extension {next : List Value → List Value → Env → Eval Code Env}
    (h : s.WholeIn m)
    (hnext : ∀ {names values base n}, n.Whole → (∀ v ∈ values, Obtained v n) → n.Inside base →
      (next names values base).KeepsWhole n fun env k => k.Inside env)
    (key : String) (names values : Form) (base : Option String) :
    (do
      let names ← s.build names
      let values ← s.build values
      let base ← s.envOf base
      madeEnv key (← next (← items names) (← items values) base) : Eval Code Outcome).KeepsWhole m
        Made := by
  refine (h.build names).bind fun ns n g whole hns => ?_
  have h := h.later g whole
  refine (h.build values).bind fun vs n g whole hvs => ?_
  have h := h.later g whole
  have hns := hns.imp g.gave
  refine (h.envOf base).bind fun env n g whole inside => ?_
  refine (keepsWhole_items whole (hns.imp g.gave)).bind fun names n g' whole _ => ?_
  have hvs := hvs.imp (g.trans g').gave
  refine (keepsWhole_items whole hvs).bind fun values n g whole hvalues => ?_
  exact keepsWhole_madeEnv (hnext whole hvalues (inside.later (g'.trans g))) key

theorem keepsWhole_unassigned (h : s.WholeIn m) (key : String) (names : Form)
    (base : Option String) : (s.act (.extendUnassigned key names base)).KeepsWhole m Made := by
  refine (h.build names).bind fun ns n g whole hns => ?_
  refine ((h.later g whole).envOf base).bind fun env n g whole inside => ?_
  refine (keepsWhole_items whole (hns.imp g.gave)).bind fun names n g whole _ => ?_
  exact keepsWhole_madeEnv (keepsWhole_extendUnassigned whole (inside.later g)) key

theorem keepsWhole_analysis (h : s.WholeIn m) (node : Form) (key : String) :
    (s.act (.analyze node key)).KeepsWhole m Made := by
  refine (h.build node).bind fun v n g whole hv => ?_
  refine (keepsWhole_ofExcept (P := fun c n => c.Every n.Gave) whole
    fun _ ok => Value.gave_analyze hv ok).bind fun c n _ whole hc => keepsWhole_pure whole ?_
  refine ⟨fun r e => ?_, fun _ t e => ?_⟩
  · cases e
    trivial
  · cases e
    exact hc

theorem keepsWhole_execution (h : s.WholeIn m) (code : String) (key : Option String) :
    (s.act (.execute code key)).KeepsWhole m Made := by
  refine (keepsWhole_ofMishap (P := fun c n => c.Every n.Gave) h.memory
    fun _ found => h.storedCode found).bind fun c n g whole hc => ?_
  refine ((h.later g whole).envOf key).bind fun env n g whole inside => keepsWhole_value ?_
  exact keepsWhole_run baseLimit whole ⟨hc.imp g.gave, inside⟩

theorem keepsWhole_application (h : s.WholeIn m) (f args : Form) :
    (s.act (.apply f args)).KeepsWhole m Made := by
  refine (h.build f).bind fun f n g whole _ => ?_
  refine ((h.later g whole).build args).bind fun args n _ whole hargs => ?_
  exact keepsWhole_value (keepsWhole_apply whole hargs)

theorem keepsWhole_assignment (h : s.WholeIn m) (name v : Form) (key : Option String) :
    (s.act (.assign name v key)).KeepsWhole m Made := by
  refine (h.build name).bind fun x n g whole _ => ?_
  have h := h.later g whole
  refine (h.build v).bind fun w n g whole hw => ?_
  refine ((h.later g whole).envOf key).bind fun env n g whole _ => ?_
  refine (keepsWhole_assign whole (hw.imp g.gave) x env).bind fun _ n _ whole _ => ?_
  refine KeepsWhole.bind (P := fun _ _ => True) ⟨⟨.refl _ n, whole, trivial⟩⟩
    fun read n _ whole _ => ?_
  exact (keepsWhole_settled whole _).bind fun text _ _ whole _ =>
    keepsWhole_pure whole (made_value trivial)

theorem keepsWhole_environmentView (h : s.WholeIn m) (key : Option String) (probe : List Form) :
    (s.act (.viewEnv key probe)).KeepsWhole m Made := by
  refine (keepsWhole_buildAll probe h.memory h.supplies).bind fun xs n g whole _ => ?_
  refine ((h.later g whole).envOf key).bind fun env n _ whole _ => ?_
  exact ⟨⟨.refl _ n, whole, made_view _ n⟩⟩

/-- What every step makes comes from the memory that the step leaves. -/
theorem keepsWhole_act (h : s.WholeIn m) (what : Step) : (s.act what).KeepsWhole m Made := by
  cases what with
  | runTagged tree =>
      refine (h.build tree).bind fun v n g whole hv => keepsWhole_value ?_
      exact Interpreter.keepsWhole_runTagged whole (h.globalEnv.later g) hv
  | runProgram program =>
      refine (h.build program).bind fun v n g whole hv => keepsWhole_value ?_
      exact Interpreter.keepsWhole_runProgram whole (h.globalEnv.later g) hv
  | evaluate node key =>
      exact keepsWhole_evaluation h (fun h hv inside =>
        Interpreter.keepsWhole_evaluate h.memory h.globalEnv hv inside) node key
  | coreEvaluate node key =>
      exact keepsWhole_evaluation h (fun h hv inside =>
        keepsWhole_evaluate h.memory hv inside baseLimit) node key
  | coreProgram program key =>
      exact keepsWhole_evaluation h (fun h hp inside =>
        keepsWhole_runProgram h.memory hp inside baseLimit) program key
  | lookup name key =>
      exact keepsWhole_evaluation h (fun h _ _ => keepsWhole_lookup h.memory _ _) name key
  | analyze node key => exact keepsWhole_analysis h node key
  | execute code key => exact keepsWhole_execution h code key
  | apply f args => exact keepsWhole_application h f args
  | extend key names values base =>
      exact keepsWhole_extension h keepsWhole_extend key names values base
  | extendZip key names values base =>
      exact keepsWhole_extension h keepsWhole_extendZip key names values base
  | extendUnassigned key names base => exact keepsWhole_unassigned h key names base
  | extendEmpty key base =>
      refine (h.envOf base).bind fun env n _ whole inside => ?_
      exact keepsWhole_madeEnv (keepsWhole_push whole Frame.holds_empty inside) key
  | globalFrame key table =>
      refine (keepsWhole_buildEntries table h.memory h.supplies).bind fun t n _ whole ht => ?_
      exact keepsWhole_madeEnv (keepsWhole_environment whole ht) key
  | assign name v key => exact keepsWhole_assignment h name v key
  | viewEnv key probe => exact keepsWhole_environmentView h key probe
  | viewFunction f =>
      exact (h.build f).bind fun v n _ whole _ => ⟨⟨.refl _ n, whole, made_view _ n⟩⟩
  | display v =>
      refine (h.build v).bind fun w n _ whole _ => (keepsWhole_settled whole _).bind ?_
      exact fun text _ _ whole _ => keepsWhole_pure whole (made_value trivial)
  | limits limit =>
      refine (keepsWhole_settled h.memory _).bind fun during _ _ whole _ => ?_
      exact keepsWhole_pure whole
        (made_value (by simp [Obtained, Value.Every, EveryItem, Memory.Gave]))
  | maxDepth => exact keepsWhole_pure h.memory (made_value trivial)

end Act

theorem things_putThing {m : Memory Code} {things : List (String × Thing)} {t : Thing}
    (h : ∀ e ∈ things, e.2.In m) (ht : t.In m) (key : String) :
    ∀ e ∈ putThing key t things, e.2.In m := by
  refine List.forall_mem_cons.mpr ⟨ht, fun e he => ?_⟩
  exact h e (List.mem_of_mem_filter he)

/-- What a step leaves in the store, whether or not its reply could be made. -/
theorem things_keep {s : Session} {m : Memory Code} {outcome : Outcome}
    (h : ∀ e ∈ s.things, e.2.In m) (made : Made outcome m) : ∀ e ∈ s.keep outcome, e.2.In m := by
  unfold keep
  split
  · rename_i key t stores
    exact things_putThing h (made.2 key t stores) key
  · exact h

theorem things_save {m : Memory Code} {reply : Reply} {things : List (String × Thing)}
    (h : ∀ e ∈ things, e.2.In m) (hr : Obtained reply.saved m) (key : Option String) :
    ∀ e ∈ save reply key things, e.2.In m := by
  cases key with
  | none => exact h
  | some key => exact things_putThing (t := .value reply.saved) h hr key

/-- One step leaves a whole session, whether it succeeds or fails. -/
theorem Whole.step {s : Session} (h : s.Whole) (what : Step) (key : Option String) :
    (s.step what key).2.Whole := by
  have cleared := s.memory.later_cleared
  have kept := (keepsWhole_act (h.later cleared h.memory.cleared) what).ends
  unfold Ends Memory.cleared at kept
  unfold Session.step
  split at kept
  · rename_i outcome m ended
    obtain ⟨g, whole, made⟩ := kept
    have h := h.later (cleared.trans g) whole
    have things := things_keep h.things made
    simp only [ended]
    split
    · rename_i reply replied
      exact ⟨whole, h.globalEnv, things_save things (made.1 reply replied) key⟩
    · exact ⟨whole, h.globalEnv, things⟩
  · rename_i fault m ended
    obtain ⟨g, whole⟩ := kept
    have h := h.later (cleared.trans g) whole
    simp only [ended]
    exact ⟨whole, h.globalEnv, h.things⟩

theorem Whole.after {s : Session} (h : s.Whole) (history : List (Step × Option String)) :
    (s.after history).Whole := by
  induction history generalizing s with
  | nil => exact h
  | cons what rest ih => exact ih (h.step what.1 what.2)

theorem whole_of_create {t : Table} {m m' : Memory Code} {maxDepth : Option Int}
    {setting : Option String} {i : Interpreter} (whole : m.Whole) (ht : ∀ e ∈ t, Obtained e.2 m)
    (created : Interpreter.create t maxDepth setting m = .ok i m') :
    m'.Whole ∧ m'.Inside i.globalEnv :=
  ((keepsWhole_create whole ht maxDepth setting).ends.of_ok created).2

/-- A new session is whole. -/
theorem whole_start {table : Option (List (String × Form))} {maxDepth : Option Int}
    {setting : Option String} {s : Session} (h : start table maxDepth setting = .ok s) :
    s.Whole := by
  unfold start at h
  dsimp only at h
  split at h
  · rename_i interpreter memory created
    cases h
    suffices made : memory.Whole ∧ memory.Inside interpreter.globalEnv from
      ⟨made.1, made.2, by simpa [Thing.In] using made.2⟩
    cases table with
    | none =>
        rw [pure_bind] at created
        exact whole_of_create Memory.whole_empty (Table.gave_standard _) created
    | some entries =>
        have supplies : Supplies (fun _ => .error .missing) {} := fun _ _ found => by cases found
        have built := keepsWhole_buildEntries entries Memory.whole_empty supplies
        obtain ⟨t, m, ended, created⟩ := Eval.bind_eq_ok.mp created
        obtain ⟨-, whole, ht⟩ := built.ends.of_ok ended
        exact whole_of_create whole ht created
  · cases h

end Session
end ConstLang
