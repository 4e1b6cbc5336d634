import ConstLang.Proofs.Refusal
import ConstLang.Proofs.Tree.Offence
import ConstLang.Proofs.Tree.Spelling

/-!
Reading. A value is read as a tree exactly if it spells the tree, and a value that spells none is
refused because of its first part that is out of form. The parts of a tagged tree are read in their
order, and reading stops at the first that cannot be read.
-/

namespace ConstLang

/-- What comes of reading parts in their order: something that they spell, if all are in form, or
the fault of the first part that is not. -/
inductive ReadInTurn {α : Type} (parts : List Part) (spelt : α → Prop) : Except Fault α → Prop
  | ok {a : α} : (∀ p ∈ parts, p.Clean) → spelt a → ReadInTurn parts spelt (.ok a)
  | error (before after : List Part) {p o : Part} :
      parts = before ++ p :: after → (∀ b ∈ before, b.Clean) → p.FirstOffence o →
      ReadInTurn parts spelt (.error o.fault)

namespace ReadInTurn

variable {α γ : Type} {parts more : List Part} {p : Part} {spelt : α → Prop}

theorem bind {first : γ → Prop} {r : Except Fault γ} {next : γ → Except Fault α}
    (h : ReadInTurn parts first r) (hn : ∀ c, first c → ReadInTurn more spelt (next c)) :
    ReadInTurn (parts ++ more) spelt (r >>= next) := by
  cases h with
  | @ok c clean passed =>
      change ReadInTurn (parts ++ more) spelt (next c)
      have rest := hn c passed
      generalize next c = result at rest
      cases rest with
      | ok others spelt => exact .ok (List.forall_mem_append.mpr ⟨clean, others⟩) spelt
      | error before after split others offence =>
          subst split
          refine .error (parts ++ before) after (by simp) ?_ offence
          exact List.forall_mem_append.mpr ⟨clean, others⟩
  | error before after split clean offence =>
      subst split
      exact .error before (after ++ more) (by simp) clean offence

theorem imp {spelt' : α → Prop} {r : Except Fault α} (h : ReadInTurn parts spelt r)
    (hs : ∀ a, spelt a → spelt' a) : ReadInTurn parts spelt' r := by
  cases h with
  | ok clean passed => exact .ok clean (hs _ passed)
  | error before after split clean offence => exact .error before after split clean offence

/-- To read a part in form is to read its parts. -/
theorem whole {r : Except Fault α} (form : p.parts? = some parts)
    (h : ReadInTurn parts spelt r) : ReadInTurn [p] spelt r := by
  cases h with
  | ok clean passed =>
      have all : p.Clean := Part.clean_of_parts form clean
      exact .ok (by simpa using all) passed
  | error before after split clean offence =>
      refine .error [] [] rfl (by simp) ?_
      rw [split] at form
      exact offence.of_parts before after form clean

theorem nothing {a : α} (h : spelt a) : ReadInTurn [] spelt (.ok a) := .ok (by simp) h

/-- A part out of form is what stops the reading. -/
theorem refused (h : p.Offends) : ReadInTurn [p] spelt (.error p.fault) :=
  .error [] [] rfl (by simp) (Part.firstOffence_self h)

end ReadInTurn

theorem readInTurn_readName (v : Value) : ReadInTurn [⟨.name, v⟩] (SpellsName v) v.readName := by
  by_cases form : v.isName = true
  · have parts : (Part.mk .name v).parts? = some [] := by simp [Part.parts?, form]
    refine .whole parts ?_
    unfold Value.isName at form
    split at form
    · exact .nothing (.text _)
    · obtain rfl := eq_of_beq form
      exact .nothing (.tagged (.list _))
    · obtain rfl := eq_of_beq form
      exact .nothing (.tagged (.tuple _))
    · cases form
  · have offends : (Part.mk .name v).Offends := by simp [Part.Offends, Part.parts?, form]
    have refused : v.readName = .error (.unknownNode v) := by
      unfold Value.isName at form
      unfold Value.readName
      split <;> simp_all
    rw [refused]
    exact .refused offends

/-- Items that are read one by one, all in one role. -/
theorem readInTurn_items {α : Type} {role : Role} {spelt : Value → α → Prop}
    {read : Value → Except Fault α} {items : List Value}
    (each : ∀ v ∈ items, ReadInTurn [⟨role, v⟩] (spelt v) (read v)) :
    ReadInTurn (items.map (⟨role, ·⟩)) (List.Forall₂ spelt items) (items.mapM read) := by
  induction items with
  | nil => exact .nothing .nil
  | cons v items ih =>
      obtain ⟨first, rest⟩ := List.forall_mem_cons.mp each
      rw [List.mapM_cons, List.map_cons, ← List.singleton_append]
      refine first.bind fun a ha => ?_
      rw [← List.append_nil (items.map _)]
      exact (ih rest).bind fun as has => .nothing (.cons ha has)

theorem Value.iterate_eq_error {v : Value} {e : Mishap} (h : v.iterate = .error e) : e = .kind := by
  cases v <;> cases h
  all_goals rfl

/-- A collection is read item by item, if it can be gone through at all. -/
theorem readInTurn_collection {α : Type} {whole item : Role} {v : Value} {spelt : Value → α → Prop}
    {read : Value → Except Fault α}
    (form : (Part.mk whole v).parts? = v.iterate.toOption.map (·.map (⟨item, ·⟩)))
    (fault : (Part.mk whole v).fault = .mishap .kind)
    (each : ∀ w ∈ v.items, ReadInTurn [⟨item, w⟩] (spelt w) (read w)) :
    ReadInTurn [⟨whole, v⟩] (fun as => ∃ items, Collects v items ∧ List.Forall₂ spelt items as)
      (liftMishap v.iterate >>= (·.mapM read)) := by
  cases iterated : v.iterate with
  | error e =>
      obtain rfl := Value.iterate_eq_error iterated
      have offends : (Part.mk whole v).Offends := by
        rw [Part.Offends, form, iterated]
        rfl
      change ReadInTurn _ _ (.error (.mishap .kind))
      rw [← fault]
      exact .refused offends
  | ok items =>
      rw [iterated] at form
      rw [Value.items_eq iterated] at each
      refine .whole form ((readInTurn_items each).imp ?_)
      intro as spelt
      exact ⟨items, collects_iff.mpr iterated, spelt⟩

theorem readInTurn_readNames (v : Value) :
    ReadInTurn [⟨.names, v⟩]
      (fun xs => ∃ items, Collects v items ∧ List.Forall₂ SpellsName items xs) v.readNames :=
  readInTurn_collection rfl rfl fun w _ => readInTurn_readName w

theorem readAll_eq_mapM (vs : List Value) :
    readAll vs = vs.mapM fun v => do return Value.node (← v.read) := by
  induction vs with
  | nil => rfl
  | cons v vs ih =>
      rw [readAll, List.mapM_cons, ih]
      cases v.read <;> rfl

theorem readItems_eq (v : Value) : v.readItems = liftMishap v.iterate >>= readAll := by
  cases iterated : v.iterate with
  | ok items => exact readItems_of_collects (collects_iff.mpr iterated)
  | error e =>
      cases v <;> cases iterated
      all_goals simp only [Value.readItems, liftMishap, bind, Except.bind]

/-- A collection of statements or operands spells the trees, item by item. -/
def SpellsItems (v : Value) (vs : List Value) : Prop :=
  ∃ items ns, Collects v items ∧ List.Forall₂ Spells items ns ∧ vs = ns.map .node

theorem readInTurn_readItems {v : Value}
    (each : ∀ w ∈ v.items, ReadInTurn [⟨.tree, w⟩] (Spells w) w.read) :
    ReadInTurn [⟨.trees, v⟩] (SpellsItems v) v.readItems := by
  have nodes : ∀ w ∈ v.items, ReadInTurn [⟨.tree, w⟩] (fun u => ∃ n, u = .node n ∧ Spells w n)
      (do return Value.node (← w.read)) := by
    intro w hw
    rw [← List.append_nil [_]]
    exact (each w hw).bind fun n spelt => .nothing ⟨n, rfl, spelt⟩
  rw [readItems_eq, funext readAll_eq_mapM]
  refine (readInTurn_collection rfl rfl nodes).imp ?_
  rintro vs ⟨items, collected, spelt⟩
  have split : ∃ ns : List Node, List.Forall₂ Spells items ns ∧ vs = ns.map .node := by
    clear collected
    induction spelt with
    | nil => exact ⟨[], .nil, rfl⟩
    | cons first _ ih =>
        obtain ⟨n, rfl, own⟩ := first
        obtain ⟨ns, each, rfl⟩ := ih
        exact ⟨n :: ns, .cons own each, rfl⟩
  obtain ⟨ns, each, rfl⟩ := split
  exact ⟨items, ns, collected, each, rfl⟩

theorem readInTurn_scalar {v : Value} (h : v.isScalar) :
    ReadInTurn [⟨.tree, v⟩] (Spells v) v.read := by
  have parts : (Part.mk .tree v).parts? = some [] := by
    cases v <;> first | rfl | cases h
  rw [(Spells.scalar h).read]
  exact .whole parts (.nothing (.scalar h))

theorem Bundles.parts? {v : Value} {xs : List Value} (h : Bundles v xs) :
    (Part.mk .tree v).parts? = taggedFields xs := by
  cases h <;> rfl

theorem Bundles.sizeOf_lt {v w : Value} {xs : List Value} (h : Bundles v xs) (hw : w ∈ xs) :
    sizeOf w < sizeOf v := by
  have smaller := List.sizeOf_lt_of_mem hw
  cases h <;> simp only [Value.list.sizeOf_spec, Value.tuple.sizeOf_spec] <;> omega

/-- The fields of a tag are read from the first to the last, given that the trees among them are
read as they spell. -/
theorem readInTurn_readFields {v : Value} {tag : Tag} {fields : List Value} {parts : List Part}
    (bundled : Bundles v (.text tag.text :: fields)) (form : tag.fields fields = some parts)
    (ih : ∀ w, sizeOf w < sizeOf v → ReadInTurn [⟨.tree, w⟩] (Spells w) w.read) :
    ReadInTurn parts (Spells v) (readFields v (some tag) fields) := by
  have tree (w : Value) (hw : w ∈ fields) : ReadInTurn [⟨.tree, w⟩] (Spells w) w.read :=
    ih w (bundled.sizeOf_lt (List.mem_cons_of_mem _ hw))
  have trees (w : Value) (hw : w ∈ fields) :
      ReadInTurn [⟨.trees, w⟩] (SpellsItems w) w.readItems := by
    refine readInTurn_readItems fun u hu => ?_
    rcases Value.mem_items_cases hu with ⟨s, rfl⟩ | smaller
    · exact readInTurn_scalar rfl
    · exact ih u (smaller.trans (bundled.sizeOf_lt (List.mem_cons_of_mem _ hw)))
  unfold Tag.fields at form
  split at form <;> cases form
  · exact .nothing (.name bundled)
  · refine (readInTurn_readName _).bind fun x named => ?_
    rw [← List.append_nil [_]]
    exact (tree _ (by simp)).bind fun n value => .nothing (.declaration bundled named value)
  · refine (tree _ (by simp)).bind fun p hp => ?_
    refine (tree _ (by simp)).bind fun c hc => ?_
    rw [← List.append_nil [_]]
    exact (tree _ (by simp)).bind fun a ha => .nothing (.conditional bundled hp hc ha)
  · refine (readInTurn_readNames _).bind ?_
    rintro xs ⟨items, collected, params⟩
    rw [← List.append_nil [_]]
    exact (tree _ (by simp)).bind fun n body =>
      .nothing (.function bundled collected params body)
  · rw [← List.append_nil [_]]
    refine (trees _ (by simp)).bind ?_
    rintro vs ⟨items, ns, collected, each, rfl⟩
    exact .nothing (.sequence bundled collected each)
  · rw [← List.append_nil [_]]
    exact (tree _ (by simp)).bind fun n body => .nothing (.block bundled body)
  · rw [← List.append_nil [_]]
    exact (tree _ (by simp)).bind fun n expr => .nothing (.returning bundled expr)
  · refine (tree _ (by simp)).bind fun f hf => ?_
    rw [← List.append_nil [_]]
    refine (trees _ (by simp)).bind ?_
    rintro vs ⟨items, ns, collected, each, rfl⟩
    exact .nothing (.application bundled hf collected each)

theorem readFields_eq_error {v : Value} {tag : Tag} {fields : List Value}
    (form : tag.fields fields = none) :
    readFields v (some tag) fields = .error (.unknownNode v) := by
  unfold readFields
  split <;> simp_all [Tag.fields]

theorem readParts_eq_error {v : Value} {xs : List Value} (form : taggedFields xs = none) :
    readParts v xs = .error (.unknownNode v) := by
  unfold taggedFields at form
  split at form
  · rename_i t fields
    rw [readParts]
    cases known : Tag.ofText? t with
    | none => rw [readFields.eq_def]
    | some tag =>
        rw [known] at form
        exact readFields_eq_error form
  · rename_i other
    rw [readParts]
    exact other

theorem readInTurn_bundle {v : Value} {xs : List Value} (bundled : Bundles v xs)
    (ih : ∀ w, sizeOf w < sizeOf v → ReadInTurn [⟨.tree, w⟩] (Spells w) w.read) :
    ReadInTurn [⟨.tree, v⟩] (Spells v) v.read := by
  cases form : taggedFields xs with
  | none =>
      have offends : (Part.mk .tree v).Offends := bundled.parts?.trans form
      rw [bundled.read, readParts_eq_error form]
      exact .refused offends
  | some parts =>
      refine .whole (bundled.parts?.trans form) ?_
      unfold taggedFields at form
      split at form
      · rename_i t fields
        obtain ⟨tag, known, fits⟩ := Option.bind_eq_some_iff.mp form
        obtain rfl := Tag.ofText?_eq_some.mp known
        rw [bundled.read_tagged]
        exact readInTurn_readFields bundled fits ih
      · cases form

/-- Reading a value yields what it spells, or the fault of its first part that is out of form. -/
theorem readInTurn_read (v : Value) : ReadInTurn [⟨.tree, v⟩] (Spells v) v.read := by
  cases v with
  | null | bool _ | int _ | float _ | nan _ | text _ => exact readInTurn_scalar rfl
  | list xs => exact readInTurn_bundle (.list xs) fun w _ => readInTurn_read w
  | tuple xs => exact readInTurn_bundle (.tuple xs) fun w _ => readInTurn_read w
  | _ => exact .refused rfl
termination_by sizeOf v
decreasing_by all_goals assumption

theorem read_eq_ok_iff {v : Value} {n : Node} : v.read = .ok n ↔ Spells v n := by
  constructor
  · intro read
    have turn := readInTurn_read v
    rw [read] at turn
    cases turn with
    | ok _ spelt => exact spelt
  · exact Spells.read

/-- No part of what spells a tree is out of form. -/
theorem Spells.clean {v : Value} {n : Node} (h : Spells v n) : (Part.mk .tree v).Clean := by
  have turn := readInTurn_read v
  rw [h.read] at turn
  cases turn with
  | ok clean _ => exact clean _ List.mem_cons_self

/-- What spells no tree is refused because of its first part out of form. -/
theorem read_eq_error_of_unspelt {v : Value} (unspelt : ¬ ∃ n, Spells v n) :
    ∃ o, (Part.mk .tree v).FirstOffence o ∧ v.read = .error o.fault := by
  have turn := readInTurn_read v
  generalize v.read = r at turn
  cases turn with
  | ok _ spelt => exact absurd ⟨_, spelt⟩ unspelt
  | @error before after p o split _ offence =>
      have only : p = ⟨.tree, v⟩ := by
        cases before with
        | nil => simp_all
        | cons b before => simp at split
      rw [only] at offence
      exact ⟨o, offence, rfl⟩

/-- Reading is refused exactly if there is a first part out of form, with the fault of that part. -/
theorem read_eq_error_iff {v : Value} {e : Fault} :
    v.read = .error e ↔ ∃ o, (Part.mk .tree v).FirstOffence o ∧ e = o.fault := by
  constructor
  · intro failed
    have unspelt : ¬ ∃ n, Spells v n := by
      rintro ⟨n, spelt⟩
      cases failed.symm.trans spelt.read
    obtain ⟨o, offence, read⟩ := read_eq_error_of_unspelt unspelt
    exact ⟨o, offence, Except.error.inj (failed.symm.trans read)⟩
  · rintro ⟨o, offence, rfl⟩
    have unspelt : ¬ ∃ n, Spells v n := by
      rintro ⟨n, spelt⟩
      obtain ⟨place, found, offends, -⟩ := offence
      exact spelt.clean place o found offends
    obtain ⟨o', offence', read⟩ := read_eq_error_of_unspelt unspelt
    rw [read, offence.unique offence']

/-- What is reported of a part out of form. Of a collection it is only told that it is of the wrong
kind; any other part is shown, and if it has no text, the report is about that. -/
def Part.Reported (p : Part) : Prop :=
  match p.role with
  | .trees | .names => p.fault.report = Mishap.report .kind
  | .tree | .name =>
      p.fault = .unknownNode p.value ∧
        match p.value.inspect with
        | .ok text =>
            p.fault.report = ⟨.unknownNode, some ("Unknown statement type in analyze: " ++ text)⟩
        | .error m => p.fault.report = m.report

theorem Part.reported (p : Part) : p.Reported := by
  obtain ⟨role, v⟩ := p
  have shown (role : Role) (h : (Part.mk role v).fault = .unknownNode v) :
      (Part.mk role v).fault = .unknownNode v ∧
        match v.inspect with
        | .ok text => (Part.mk role v).fault.report =
            ⟨.unknownNode, some ("Unknown statement type in analyze: " ++ text)⟩
        | .error m => (Part.mk role v).fault.report = m.report := by
    refine ⟨h, ?_⟩
    rw [h]
    cases text : v.inspect with
    | ok text =>
        simp only [Fault.report, Fault.message, text, bind, Except.bind, pure, Except.pure,
          Fault.kind]
    | error m => exact Fault.report_unknownNode_of_error text
  cases role with
  | tree => exact shown .tree rfl
  | name => exact shown .name rfl
  | trees | names => rfl

/-- Reading accepts exactly what spells a tree, and yields that tree. Anything else is refused
because of its first part out of form, and the refusal tells of that part. Every tree with scalars
for literals and texts for names is read back from its tagged form. -/
theorem reading_accepts_what_spells (v : Value) :
    (∀ n, v.read = .ok n ↔ Spells v n) ∧
      ((¬ ∃ n, Spells v n) →
        ∃ o, (Part.mk .tree v).FirstOffence o ∧
          (∀ o', (Part.mk .tree v).FirstOffence o' → o' = o) ∧
          v.read = .error o.fault ∧ o.Reported) ∧
      ∀ n, Regular (.node n) → n.tagged.read = .ok n := by
  refine ⟨fun n => read_eq_ok_iff, ?_, ?_⟩
  · intro unspelt
    obtain ⟨o, offence, refused⟩ := read_eq_error_of_unspelt unspelt
    exact ⟨o, offence, fun o' => offence.unique, refused, o.reported⟩
  · intro n regular
    obtain ⟨m, same, spelt⟩ := regular.spells_tagged
    cases same
    exact spelt.read

namespace Sample

/-- A function with the characters of a text for its parameters. -/
def spelt : Value :=
  .list [.text "function_definition", .text "xy", .list [.text "name", .text "x"]]

/-- The operands of the second statement are a number, and the third one has an unknown tag. -/
def misspelt : Value :=
  .tuple [.text "sequence", .list [spelt,
    .list [.text "application", .tuple [.text "name", .text "f"], .int 2],
    .list [.text "while_loop"]]]

/-- A declaration whose name is a number that has no text. -/
def wordlessName : Value := .list [.text "constant_declaration", .int huge, .int 1]

end Sample

theorem reading_accepts_what_spells_but_number_for_operands :
    (¬ ∃ n, Spells Sample.misspelt n) ∧
      (Part.mk .tree Sample.misspelt).FirstOffence ⟨.trees, .int 2⟩ ∧
      Sample.misspelt.read = .error (.mishap .kind) := by
  have grammar := reading_accepts_what_spells Sample.misspelt
  have unspelt : ¬ ∃ n, Spells Sample.misspelt n := by
    rintro ⟨n, spelt⟩
    cases (grammar.1 n).mpr spelt
  obtain ⟨o, -, only, refused, -⟩ := grammar.2.1 unspelt
  have before : (Part.mk .tree Sample.spelt).Clean :=
    Spells.clean (.function (.list _) (.characters "xy")
      (.cons (.text "x") (.cons (.text "y") .nil)) (.name (.list _)))
  have operator : (Part.mk .tree (.tuple [.text "name", .text "f"])).Clean :=
    Spells.clean (.name (.tuple _))
  have offence : (Part.mk .tree Sample.misspelt).FirstOffence ⟨.trees, .int 2⟩ := by
    refine .of_parts [] [] rfl (by simp) ?_
    refine .of_parts [⟨.tree, Sample.spelt⟩] [_] rfl (by simpa using before) ?_
    refine .of_parts [⟨.tree, _⟩] [] rfl (by simpa using operator) ?_
    exact Part.firstOffence_self rfl
  rw [← only _ offence] at refused
  exact ⟨unspelt, offence, refused⟩

/-- The report has to show the part that is out of form. Where it cannot, it is about that and no
longer about the part. -/
theorem name_without_text_is_reported_otherwise :
    (¬ ∃ n, Spells Sample.wordlessName n) ∧
      (Part.mk .tree Sample.wordlessName).FirstOffence ⟨.name, .int Sample.huge⟩ ∧
      ∃ e, Sample.wordlessName.read = .error e ∧ e.report = Mishap.report .domain ∧
        e.report.kind ≠ .unknownNode := by
  have report : (Fault.unknownNode (.int Sample.huge)).report = Mishap.report .domain :=
    Fault.report_unknownNode_of_error (Value.inspect_int_eq_error Sample.le_huge)
  have refused : Sample.wordlessName.read = .error (.unknownNode (.int Sample.huge)) := by rfl
  refine ⟨?_, ?_, _, refused, report, ?_⟩
  · rintro ⟨n, spelt⟩
    cases refused.symm.trans spelt.read
  · exact .of_parts [] [_] rfl (by simp) (Part.firstOffence_self rfl)
  · rw [report]
    simp [Mishap.report]

end ConstLang
