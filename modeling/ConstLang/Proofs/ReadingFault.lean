import ConstLang.Proofs.Display
import ConstLang.Proofs.Reading
import ConstLang.Proofs.Tree.Parts

/-!
Faults of reading. What cannot be read is refused because of its first part out of form, and the
refusal is reported as an unknown tree if that part has a text to show. Two kinds of parts are
reported otherwise: a collection that cannot be gone through, and a part without a text, such as a
number with too many digits. No other report is ever made.
-/

namespace ConstLang

/-- Nothing in the value itself keeps it from having a text, whatever the values inside it are. -/
def Value.Worded : Value → Prop
  | .int i => i.natAbs < 10 ^ Text.digitLimit
  | .function _ params _ => ∀ x ∈ params, ∃ s, x = .text s
  | _ => True

/-- The text is there if what it shows is worded, and there are two mishaps that can prevent it. -/
def ShownIf {α : Type} (worded : Prop) (r : Except Mishap α) : Prop :=
  ∀ m, r = .error m → ¬ worded ∧ (m = .kind ∨ m = .domain)

namespace ShownIf

variable {α γ : Type} {p q : Prop} {a : α} {r : Except Mishap α}

theorem ok : ShownIf p (.ok a : Except Mishap α) := by
  intro m h
  cases h

theorem imp (h : ShownIf p r) (hp : q → p) : ShownIf q r :=
  fun m failed => (h m failed).imp_left (mt hp)

theorem bind {next : α → Except Mishap γ} (h : ShownIf p r) (hn : ∀ a, ShownIf q (next a)) :
    ShownIf (p ∧ q) (r >>= next) := by
  intro m failed
  cases r with
  | ok a => exact ((hn a).imp And.right) m failed
  | error m' =>
      cases failed
      exact (h.imp And.left) m rfl

theorem map {f : α → γ} (h : ShownIf p r) : ShownIf p (do return f (← r)) :=
  (h.bind (q := True) fun _ => .ok).imp fun hp => ⟨hp, trivial⟩

theorem exists_ok (h : ShownIf p r) (hp : p) : ∃ a, r = .ok a := by
  cases r with
  | ok a => exact ⟨a, rfl⟩
  | error m => exact absurd hp (h m rfl).1

end ShownIf

theorem shownIf_showInt (i : Int) : ShownIf (i.natAbs < 10 ^ Text.digitLimit) (showInt i) := by
  intro m failed
  constructor
  · intro worded
    rw [showInt_of_lt worded] at failed
    cases failed
  · unfold showInt at failed
    split at failed <;> cases failed
    exact .inr rfl

theorem shownIf_showFunction (params : List Value) :
    ShownIf (∀ x ∈ params, ∃ s, x = .text s) (showFunction params) := by
  refine .map ?_
  induction params with
  | nil => exact .ok
  | cons x params ih =>
      rw [List.mapM_cons]
      refine (ShownIf.bind (p := ∃ s, x = .text s) ?_ fun s => ih.map).imp List.forall_mem_cons.mp
      cases x with
      | text s => exact .ok
      | _ =>
          intro m failed
          cases failed
          simp

mutual

/-- A value is shown if it and the values inside it are worded. -/
theorem Value.shownIf_inspect : ∀ v : Value, ShownIf (v.Every Value.Worded) v.inspect
  | .null | .undefined | .uninitialized | .bool _ | .float _ | .nan _ | .text _ | .operation _ =>
      .ok
  | .int i => shownIf_showInt i
  | .list xs | .tuple xs => (shownIf_inspectItems xs).map.imp And.right
  | .dict es => (shownIf_inspectEntries es).map.imp And.right
  | .node n => n.shownIf_inspect.imp And.right
  | .primitive _ name _ => by
      have inner := name.shownIf_inspect
      cases name with
      | text s => exact .ok
      | _ => exact inner.map.imp And.right
  | .function _ params _ => (shownIf_showFunction params).imp And.left
  | .marker _ content => content.shownIf_inspect.map.imp And.right

theorem shownIf_inspectItems : ∀ xs : List Value,
    ShownIf (EveryItem Value.Worded xs) (inspectItems xs)
  | [] => .ok
  | x :: xs => x.shownIf_inspect.bind fun _ => (shownIf_inspectItems xs).map

theorem shownIf_inspectEntries : ∀ es : List (Value × Value),
    ShownIf (EveryEntry Value.Worded es) (inspectEntries es)
  | [] => .ok
  | (key, x) :: es =>
      key.shownIf_inspect.bind fun _ => x.shownIf_inspect.bind fun _ =>
        (shownIf_inspectEntries es).map

theorem Node.shownIf_inspect : ∀ n : Node, ShownIf (n.Every Value.Worded) n.inspect
  | .name _ => .ok
  | .literal v | .sequence v | .block v | .returning v => v.shownIf_inspect.map
  | .declaration v w | .function v w | .application v w =>
      v.shownIf_inspect.bind fun _ => w.shownIf_inspect.map
  | .conditional p c a =>
      p.shownIf_inspect.bind fun _ => c.shownIf_inspect.bind fun _ => a.shownIf_inspect.map

end

theorem Tag.mem_of_mem_fields {tag : Tag} {values : List Value} {parts : List Part} {p : Part}
    (form : tag.fields values = some parts) (hp : p ∈ parts) : p.value ∈ values := by
  unfold Tag.fields at form
  split at form <;> cases form
  all_goals simp only [List.mem_cons, List.not_mem_nil, or_false] at hp ⊢
  all_goals grind

namespace Part

variable {P : Value → Prop} (texts : ∀ s, P (.text s)) {p q o : Part}

include texts

/-- The parts of a part are values inside it, characters of a text or keys of a dictionary. -/
theorem every_parts {parts : List Part} (h : p.value.Every P) (form : p.parts? = some parts) :
    ∀ q ∈ parts, q.value.Every P := by
  have tagged {xs : List Value} (hxs : EveryItem P xs) (form : taggedFields xs = some parts) :
      ∀ q ∈ parts, q.value.Every P := by
    intro q hq
    unfold taggedFields at form
    split at form
    · obtain ⟨tag, -, fits⟩ := Option.bind_eq_some_iff.mp form
      exact everyItem_iff.mp hxs.2 _ (Tag.mem_of_mem_fields fits hq)
    · cases form
  have listed {v : Value} {role : Role} (hv : v.Every P)
      (form : v.iterate.toOption.map (·.map (⟨role, ·⟩)) = some parts) :
      ∀ q ∈ parts, q.value.Every P := by
    cases iterated : v.iterate with
    | error m => simp [iterated, Except.toOption] at form
    | ok items =>
        rw [iterated] at form
        cases form
        rw [← Value.items_eq iterated]
        exact List.forall_mem_map.mpr (Value.every_items texts hv)
  obtain ⟨role, v⟩ := p
  cases role with
  | tree =>
      cases v with
      | list xs | tuple xs => exact tagged h.2 form
      | null | bool _ | int _ | float _ | nan _ | text _ =>
          cases form
          simp
      | _ => cases form
  | name =>
      change (if v.isName then some [] else none) = some parts at form
      split at form <;> cases form
      simp
  | trees | names => exact listed h form

theorem every_at? {place : List Nat} (h : p.value.Every P) (found : p.at? place = some q) :
    q.value.Every P := by
  induction place generalizing p with
  | nil =>
      cases found
      exact h
  | cons i place ih =>
      cases form : p.parts? with
      | none => simp [at?, form] at found
      | some parts =>
          rw [at?_cons form] at found
          obtain ⟨part, here, found⟩ := Option.bind_eq_some_iff.mp found
          exact ih (every_parts texts h form part (List.mem_of_getElem? here)) found

theorem FirstOffence.every (h : p.FirstOffence o) (hp : p.value.Every P) : o.value.Every P := by
  obtain ⟨place, found, -, -⟩ := h
  exact every_at? texts hp found

omit texts

/-- The part is to be gone through, item by item. -/
def IsCollection (p : Part) : Prop := p.role = .trees ∨ p.role = .names

/-- The refusal of the part shows it. -/
def Showable (p : Part) : Prop := ¬ p.IsCollection ∧ ∃ text, p.value.inspect = .ok text

theorem fault_of_collection (h : p.IsCollection) : p.fault = .mishap .kind := by
  rcases h with role | role <;> rw [Part.fault, role]

theorem fault_of_single (h : ¬ p.IsCollection) : p.fault = .unknownNode p.value := by
  obtain ⟨role, v⟩ := p
  cases role with
  | tree | name => rfl
  | trees => exact absurd (.inl rfl) h
  | names => exact absurd (.inr rfl) h

theorem report_of_showable (h : p.Showable) : p.fault.report.kind = .unknownNode := by
  obtain ⟨single, text, shown⟩ := h
  rw [fault_of_single single]
  exact Fault.kind_report_unknownNode shown

theorem report_of_not_showable (h : ¬ p.Showable) :
    p.fault.report = Mishap.report .kind ∨ p.fault.report = Mishap.report .domain := by
  by_cases collection : p.IsCollection
  · rw [fault_of_collection collection]
    exact .inl rfl
  · rw [fault_of_single collection]
    cases shown : p.value.inspect with
    | ok text => exact absurd ⟨collection, text, shown⟩ h
    | error m =>
        rw [Fault.report_unknownNode_of_error shown]
        rcases (p.value.shownIf_inspect m shown).2 with rfl | rfl
        · exact .inl rfl
        · exact .inr rfl

end Part

/-- Reading yields a tree, or what it refuses is reported as an unknown tree. -/
def Value.ReadOrUnknown (v : Value) : Prop :=
  (∃ n, v.read = .ok n) ∨ ∃ e, v.read = .error e ∧ e.report.kind = .unknownNode

theorem readOrUnknown_iff_of_firstOffence {v : Value} {o : Part}
    (offence : (Part.mk .tree v).FirstOffence o) : v.ReadOrUnknown ↔ o.Showable := by
  have failed := read_eq_error_iff.mpr ⟨o, offence, rfl⟩
  by_cases shown : o.Showable
  · exact iff_of_true (.inr ⟨_, failed, Part.report_of_showable shown⟩) shown
  · refine iff_of_false ?_ shown
    rintro (⟨n, read⟩ | ⟨e, other, unknown⟩)
    · cases failed.symm.trans read
    · obtain rfl := Except.error.inj (failed.symm.trans other)
      rcases Part.report_of_not_showable shown with report | report
      all_goals
        rw [report] at unknown
        cases unknown

/-- Reading yields a tree or reports an unknown one, unless the first part out of form is a
collection that cannot be gone through, or a part without a text. The first is always reported as a
value of the wrong kind, and where everything is worded there is nothing of the second. No other
report is ever made. -/
theorem reading_reports_unknown_but_of_collections (v : Value) :
    (v.ReadOrUnknown ↔ ∀ o, (Part.mk .tree v).FirstOffence o → o.Showable) ∧
      (v.Every Value.Worded →
        (v.ReadOrUnknown ↔ ∀ o, (Part.mk .tree v).FirstOffence o → ¬ o.IsCollection)) ∧
      (∀ o, (Part.mk .tree v).FirstOffence o → o.IsCollection → v.read = .error (.mishap .kind)) ∧
      ∀ e, v.read = .error e →
        e.report.kind = .unknownNode ∨ e.report = Mishap.report .kind ∨
          e.report = Mishap.report .domain := by
  have showable : v.ReadOrUnknown ↔ ∀ o, (Part.mk .tree v).FirstOffence o → o.Showable := by
    refine ⟨fun h o offence => (readOrUnknown_iff_of_firstOffence offence).mp h, fun h => ?_⟩
    cases read : v.read with
    | ok n => exact .inl ⟨n, read⟩
    | error e =>
        obtain ⟨o, offence, -⟩ := read_eq_error_iff.mp read
        exact (readOrUnknown_iff_of_firstOffence offence).mpr (h o offence)
  refine ⟨showable, fun worded => ?_, ?_, ?_⟩
  · rw [showable]
    refine forall₂_congr fun o offence => and_iff_left ?_
    have inside : o.value.Every Value.Worded := offence.every (fun _ => trivial) worded
    exact o.value.shownIf_inspect.exists_ok inside
  · intro o offence collection
    exact read_eq_error_iff.mpr ⟨o, offence, (Part.fault_of_collection collection).symm⟩
  · intro e failed
    obtain ⟨o, -, rfl⟩ := read_eq_error_iff.mp failed
    by_cases shown : o.Showable
    · exact .inl (Part.report_of_showable shown)
    · exact .inr (Part.report_of_not_showable shown)

namespace Sample

/-- A name without its text. -/
def misnamed : Value := .list [.text "name", .undefined]

/-- A function whose parameters cannot be gone through. -/
def misformed : Value := .list [.text "function_definition", .undefined, .null]

/-- The second statement is a block. -/
def twoStatements (first second : Value) : Value :=
  .tuple [.text "sequence", .list [first, .tuple [.text "block", second]]]

end Sample

/-- Of two parts out of form, the one that comes first decides what is reported. -/
theorem reading_reports_unknown_before_collection :
    (Sample.twoStatements Sample.misnamed Sample.misformed).Every Value.Worded ∧
      (Sample.twoStatements Sample.misnamed Sample.misformed).ReadOrUnknown ∧
      (Sample.twoStatements Sample.misformed Sample.misnamed).Every Value.Worded ∧
      ¬ (Sample.twoStatements Sample.misformed Sample.misnamed).ReadOrUnknown := by
  have worded : Sample.misnamed.Every Value.Worded ∧ Sample.misformed.Every Value.Worded := by
    simp [Sample.misnamed, Sample.misformed, Value.Every, EveryItem, Value.Worded]
  have sequence {v w : Value} (hv : v.Every Value.Worded) (hw : w.Every Value.Worded) :
      (Sample.twoStatements v w).Every Value.Worded := by
    simp [Sample.twoStatements, Value.Every, EveryItem, Value.Worded, hv, hw]
  have first {v w : Value} {o : Part} (offence : (Part.mk .tree v).FirstOffence o) :
      (Part.mk .tree (Sample.twoStatements v w)).FirstOffence o := by
    refine .of_parts [] [] rfl (by simp) ?_
    exact .of_parts [] [_] rfl (by simp) offence
  have named : (Part.mk .tree Sample.misnamed).FirstOffence ⟨.tree, Sample.misnamed⟩ :=
    Part.firstOffence_self rfl
  have formed : (Part.mk .tree Sample.misformed).FirstOffence ⟨.names, .undefined⟩ :=
    .of_parts [] [_] rfl (by simp) (Part.firstOffence_self rfl)
  have whole := sequence worded.1 worded.2
  have turned := sequence worded.2 worded.1
  refine ⟨whole, ?_, turned, ?_⟩
  · refine ((reading_reports_unknown_but_of_collections _).2.1 whole).mpr fun o offence => ?_
    rw [(first named).unique offence]
    simp [Part.IsCollection]
  · intro read
    have single := ((reading_reports_unknown_but_of_collections _).2.1 turned).mp read
    exact single _ (first formed) (.inr rfl)

/-- Reading goes through the statements of a sequence before it knows that it can. -/
theorem number_for_statements_is_of_wrong_kind :
    (Value.list [.text "sequence", .int 5]).read = .error (.mishap .kind) ∧
      (Fault.mishap .kind).report.kind ≠ .unknownNode ∧
      ¬ (Value.list [.text "sequence", .int 5]).ReadOrUnknown := by
  have failed : (Value.list [.text "sequence", .int 5]).read = .error (.mishap .kind) := by rfl
  refine ⟨failed, by decide, ?_⟩
  rintro (⟨n, read⟩ | ⟨e, other, unknown⟩)
  · cases failed.symm.trans read
  · cases failed.symm.trans other
    cases unknown

end ConstLang
