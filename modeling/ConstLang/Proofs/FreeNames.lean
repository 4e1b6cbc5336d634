import ConstLang.Proofs.Parallel.Run
import ConstLang.Proofs.Tree.Parts

/-!
Free names. A name is free in a tree if the tree refers to it somewhere outside all scopes
of the tree that have it. A tree whose declarations all stand inside scopes of its own
depends on the environment through its free names alone: in two environments that answer
alike for those, of whatever shape, it evaluates alike.
-/

namespace ConstLang

/-- The tree refers to the name where no scope of the tree has it. -/
def FreeIn (whole : Value) (x : String) : Prop :=
  ∃ scopes, Stands whole scopes (.node (.name x)) ∧ ∀ names ∈ scopes, .text x ∉ names

/-- Every declaration in the tree stands inside a scope of the tree. -/
def Enclosed (whole : Value) : Prop :=
  ∀ scopes x v, Stands whole scopes (.node (.declaration x v)) → scopes ≠ []

/-- A name that is free in a part is free in the whole, unless a scope around the part has it. -/
theorem FreeIn.of_stands {whole v : Value} {scopes : List (List Value)} {x : String}
    (h : FreeIn v x) (stands : Stands whole scopes v) (absent : ∀ names ∈ scopes, .text x ∉ names) :
    FreeIn whole x := by
  obtain ⟨inner, refers, absentInner⟩ := h
  exact ⟨inner ++ scopes, stands.trans refers, List.forall_mem_append.mpr ⟨absentInner, absent⟩⟩

theorem freeIn_node {n : Node} {x : String} :
    FreeIn (.node n) x ↔
      n = .name x ∨ (∃ p ∈ n.parts, FreeIn p x) ∧ ∀ names ∈ n.scope, .text x ∉ names := by
  constructor
  · rintro ⟨scopes, stands, absent⟩
    rcases stands_node.mp stands with ⟨-, same⟩ | ⟨p, hp, inner, below, rfl⟩
    · exact .inl (Value.node.inj same).symm
    · obtain ⟨absentInner, absentOwn⟩ := List.forall_mem_append.mp absent
      exact .inr ⟨⟨p, hp, inner, below, absentInner⟩, absentOwn⟩
  · rintro (rfl | ⟨⟨p, hp, free⟩, own⟩)
    · exact ⟨[], .whole, by simp⟩
    · exact free.of_stands (Stands.whole.part hp) (by simpa using own)

/-- What stands in a block is enclosed, whatever the block is made of. -/
theorem enclosed_block (b : Value) : Enclosed (.node (.block b)) := by
  intro scopes x v stands
  rcases stands_node.mp stands with ⟨-, same⟩ | ⟨p, -, inner, -, rfl⟩
  · cases same
  · simp [Node.scope]

theorem Code.free_cases {c : Code} {x : String} (h : c.Free x) :
    c = .name x ∨ ∃ p ∈ c.parts, p.2.Free x ∧ ∀ names ∈ p.1, .text x ∉ names := by
  have listed {cs : List Code} (h : FreeInAny x cs) :
      ∃ p ∈ cs.map (([] : List (List Value)), ·), p.2.Free x ∧ ∀ names ∈ p.1, .text x ∉ names := by
    obtain ⟨c, hc, free⟩ := freeInAny_iff.mp h
    exact ⟨([], c), List.mem_map_of_mem hc, free, by simp⟩
  cases c with
  | literal _ => cases h
  | name y => exact .inl (congrArg Code.name h)
  | declare _ c | returning c => exact .inr ⟨([], c), by simp [parts], h, by simp⟩
  | select p c a =>
      rcases h with h | h | h
      · exact .inr ⟨([], p), by simp [parts], h, by simp⟩
      · exact .inr ⟨([], c), by simp [parts], h, by simp⟩
      · exact .inr ⟨([], a), by simp [parts], h, by simp⟩
  | close params locals body =>
      exact .inr ⟨([params ++ locals], body), by simp [parts], h.1, by simpa using h.2⟩
  | sequence cs => exact .inr (listed h)
  | enter locals body => exact .inr ⟨([locals], body), by simp [parts], h.1, by simpa using h.2⟩
  | apply f xs =>
      rcases h with h | h
      · exact .inr ⟨([], f), by simp [parts], h, by simp⟩
      · obtain ⟨p, hp, free⟩ := listed h
        exact .inr ⟨p, List.mem_cons_of_mem _ hp, free⟩

/-- The free names of code are free in its tree. -/
theorem freeIn_of_analyze {v : Value} {c : Code} {x : String} (ok : v.analyze = .ok c)
    (h : c.Free x) : FreeIn v x := by
  induction c using Code.parts_induction generalizing v with
  | step c ih =>
      rcases c.free_cases h with rfl | ⟨p, hp, free, absent⟩
      · exact ⟨[], name_of_analyze ok, by simp⟩
      · obtain ⟨w, stands, analyzed⟩ := part_of_analyze ok hp
        exact (ih p hp analyzed free).of_stands stands absent

theorem Code.writes_cases {c : Code} (h : c.writes ≠ []) :
    (∃ x d, c = .declare x d) ∨ ∃ p ∈ c.parts, p.1 = [] ∧ p.2.writes ≠ [] := by
  have listed {cs : List Code} (h : writesAll cs ≠ []) :
      ∃ p ∈ cs.map (([] : List (List Value)), ·), p.1 = [] ∧ p.2.writes ≠ [] := by
    induction cs with
    | nil => exact absurd rfl h
    | cons c cs ih =>
        by_cases none : c.writes = []
        · obtain ⟨p, hp, some⟩ := ih (by simpa [writesAll, none] using h)
          exact ⟨p, List.mem_cons_of_mem _ hp, some⟩
        · exact ⟨([], c), List.mem_cons_self, rfl, none⟩
  cases c with
  | literal _ | name _ | close _ _ _ | enter _ _ => exact absurd rfl h
  | declare x d => exact .inl ⟨x, d, rfl⟩
  | returning c => exact .inr ⟨([], c), by simp [parts], rfl, h⟩
  | select p c a =>
      simp only [writes, ne_eq, List.append_eq_nil_iff, not_and_or] at h
      rcases h with (h | h) | h
      · exact .inr ⟨([], p), by simp [parts], rfl, h⟩
      · exact .inr ⟨([], c), by simp [parts], rfl, h⟩
      · exact .inr ⟨([], a), by simp [parts], rfl, h⟩
  | sequence cs => exact .inr (listed h)
  | apply f xs =>
      simp only [writes, ne_eq, List.append_eq_nil_iff, not_and_or] at h
      rcases h with h | h
      · exact .inr ⟨([], f), by simp [parts], rfl, h⟩
      · obtain ⟨p, hp, some⟩ := listed h
        exact .inr ⟨p, List.mem_cons_of_mem _ hp, some⟩

/-- Code of an enclosed tree declares nothing in its own environment. -/
theorem writes_of_enclosed {v : Value} {c : Code} (ok : v.analyze = .ok c) (h : Enclosed v) :
    c.writes = [] := by
  by_contra some
  induction c using Code.parts_induction generalizing v with
  | step c ih =>
      rcases c.writes_cases some with ⟨x, d, rfl⟩ | ⟨p, hp, none, some⟩
      · obtain ⟨w, stands⟩ := declaration_of_analyze ok
        exact h [] x w stands rfl
      · obtain ⟨w, stands, analyzed⟩ := part_of_analyze ok hp
        rw [none] at stands
        refine ih p hp analyzed (fun scopes x u below => ?_) some
        simpa using h _ x u (stands.trans below)

/-- Two runs that start in one memory and may differ in nothing. -/
def Origin.once {m : Memory Code} (whole : m.Whole) : Origin where
  left := m
  right := m
  excused _ := False
  whole := whole
  later := .refl _ m
  output := rfl
  same _ _ _ := .inl rfl

theorem Origin.ρ_once {m : Memory Code} (whole : m.Whole) :
    (Origin.once whole).comparison.ρ = .same :=
  Renaming.between_self m

/-- Both end with the same value or the same fault, and with the same texts displayed. -/
abbrev EndAlike : EStateM.Result Fault (Memory Code) Value →
    EStateM.Result Fault (Memory Code) Value → Prop :=
  Eval.Corresponds Eq Eq fun n n' => n'.output = n.output

theorem Origin.endAlike {m : Memory Code} {whole : m.Whole} {act act' : Eval Code Value}
    (h : (once whole).comparison.Agree m m (once whole).comparison.values act act') :
    EndAlike (act m) (act' m) := by
  unfold Comparison.Agree at h
  generalize act m = r, act' m = r' at h
  cases h with
  | ok _ _ memories values =>
      refine .ok ?_ memories.output
      rw [values.1, ρ_once, Value.rename_same]
  | error faults _ memories =>
      refine .error ?_ memories.output
      rw [faults, ρ_once, Fault.rename_same]
  | excused never => exact never.elim

theorem evaluate_alike {m : Memory Code} (whole : m.Whole) {v : Value} (given : v.Every m.Gave)
    (enclosed : Enclosed v) {env env' : Env} (inside : m.Inside env) (inside' : m.Inside env')
    (alike : ∀ x, FreeIn v x → m.lookup (.text x) env' = m.lookup (.text x) env) (depth : Nat) :
    EndAlike (evaluate depth v env m) (evaluate depth v env' m) := by
  unfold evaluate
  cases analyzed : v.analyze with
  | error e => exact .error rfl rfl
  | ok c =>
      let o := Origin.once whole
      have sees : o.Sees m c.Free env env' :=
        .old inside inside' fun x free => .inl (alike x (freeIn_of_analyze analyzed free))
      have suits : o.Suits m c env env' :=
        ⟨Value.gave_analyze given analyzed, sees, .inl (writes_of_enclosed analyzed enclosed)⟩
      exact Origin.endAlike (o.follows_run depth m m c env c env' o.parallel_start ⟨rfl, suits⟩)

/-- A frame in the midst of an environment is not seen through the names that it has not, nor
through those that frames before it have. -/
theorem Memory.lookupIn_without {β : Type} (m : Memory β) {x : String} {i : Nat} {inner : Env}
    (outer : Env)
    (hidden : .text x ∈ (m.frame i).names → ∃ j ∈ inner, .text x ∈ (m.frame j).names) :
    m.lookupIn (.text x) (inner ++ outer) = m.lookupIn (.text x) (inner ++ i :: outer) := by
  induction inner with
  | nil =>
      have absent : (m.frame i).get? (.text x) = none :=
        Frame.get?_text_eq_none.mpr fun mem => by simpa using hidden mem
      simp [Memory.lookupIn, absent]
  | cons j inner ih =>
      simp only [List.cons_append, Memory.lookupIn]
      rcases found : (m.frame j).get? (.text x) with _ | _ | v
      · refine ih fun mem => ?_
        obtain ⟨k, hk, has⟩ := hidden mem
        rcases List.mem_cons.mp hk with rfl | hk
        · exact absurd has (Frame.get?_text_eq_none.mp found)
        · exact ⟨k, hk, has⟩
      · rfl
      · rfl

/-- A tree whose declarations stand inside scopes of its own depends on an environment through its
free names alone. In particular a frame can be left out of an environment, or put into it, if each
free name that it has is one that frames before it have, too. -/
theorem evaluation_depends_on_free_names {m : Memory Code} (whole : m.Whole) {v : Value}
    (given : v.Every m.Gave) (enclosed : Enclosed v) {env : Env} (inside : m.Inside env)
    (depth : Nat) :
    (∀ env', m.Inside env' →
        (∀ x, FreeIn v x → m.lookup (.text x) env' = m.lookup (.text x) env) →
        EndAlike (evaluate depth v env m) (evaluate depth v env' m)) ∧
      ∀ inner i outer, env = inner ++ i :: outer →
        (∀ x, FreeIn v x → .text x ∈ (m.frame i).names → ∃ j ∈ inner, .text x ∈ (m.frame j).names) →
        EndAlike (evaluate depth v env m) (evaluate depth v (inner ++ outer) m) := by
  refine ⟨fun env' inside' alike => ?_, ?_⟩
  · exact evaluate_alike whole given enclosed inside inside' alike depth
  · rintro inner i outer rfl hidden
    have rest : m.Inside (inner ++ outer) := fun j hj => inside j (by
      rcases List.mem_append.mp hj with hj | hj <;> simp [hj])
    refine evaluate_alike whole given enclosed inside rest (fun x free => ?_) depth
    simpa [Memory.lookup_text] using m.lookupIn_without outer (hidden x free)

namespace Sample

/-- Frames of constants: one with `k`, an empty one, and one with `k` and another name. -/
def shelves : Memory Code :=
  let k : Value × Option Value := (.text "k", some (.int 7))
  let m := (({} : Memory Code).push ⟨[k]⟩ []).2
  let m := (m.push ⟨[]⟩ []).2
  (m.push ⟨[(.text "f", some (.bool true)), k]⟩ []).2

/-- A function `f` that reads `k` is declared in a block, and called there. -/
def reader : Value :=
  .node (.block (.node (.sequence (.tuple [
    .node (.declaration (.text "f")
      (.node (.function (.tuple [.text "x"]) (.node (.returning (.node (.name "k"))))))),
    .node (.application (.node (.name "f")) (.tuple [.node (.literal (.int 1))]))]))))

end Sample

theorem Sample.whole_shelves : shelves.Whole := by
  refine ((Memory.whole_empty.push ?_ _).push ?_ _).push ?_ _ <;>
    simp [Frame.Holds, Value.Every, Memory.Gave]

theorem evaluation_depends_on_free_names_of_reader :
    EndAlike (evaluate 9 Sample.reader [0] Sample.shelves)
        (evaluate 9 Sample.reader [1, 2] Sample.shelves) ∧
      (∃ n, evaluate 9 Sample.reader [0] Sample.shelves = .ok (.int 7) n) := by
  refine ⟨?_, ⟨_, rfl⟩⟩
  have given : Sample.reader.Every Sample.shelves.Gave := by
    simp [Sample.reader, Value.Every, Node.Every, EveryItem, Memory.Gave]
  refine (evaluation_depends_on_free_names Sample.whole_shelves given (enclosed_block _)
    (by simp [Memory.Inside, Sample.shelves, Memory.push]) 9).1 [1, 2]
    (by simp [Memory.Inside, Sample.shelves, Memory.push]) fun x free => ?_
  have only : x = "k" := by
    simp [Sample.reader, freeIn_node, Node.parts, Node.scope, Value.items, Value.iterate,
      Value.declared, Node.declared, declaredAll] at free
    grind
  subst only
  rfl

end ConstLang
