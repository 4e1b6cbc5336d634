import ConstLang.Proofs.Regular
import ConstLang.Proofs.Tree.Occurrence

/-!
Spellings of trees. A scalar spells itself as a literal, and a list or a tuple of a tag and as many
fields as the tag has spells the node of that tag. Fields spell the parts of the node: trees, names,
and collections of either. A tree has many spellings, of which one is chosen as its tagged form;
what spells a tree is read as that tree.
-/

namespace ConstLang

/-- A list or a tuple of the items. -/
inductive Bundles : Value → List Value → Prop
  | list (xs : List Value) : Bundles (.list xs) xs
  | tuple (xs : List Value) : Bundles (.tuple xs) xs

/-- A collection of the items, which may also be a text of its characters or a dictionary of its
keys. -/
inductive Collects : Value → List Value → Prop
  | bundle {v : Value} {xs : List Value} : Bundles v xs → Collects v xs
  | characters (s : String) :
      Collects (.text s) (s.toList.map fun c => .text (String.singleton c))
  | keys (es : List (Value × Value)) : Collects (.dict es) (es.map (·.1))

/-- A declared name or a parameter is written as a text, or as a name with its tag. -/
inductive SpellsName : Value → String → Prop
  | text (x : String) : SpellsName (.text x) x
  | tagged {v : Value} {x : String} : Bundles v [.text Tag.name.text, .text x] → SpellsName v x

inductive Spells : Value → Node → Prop
  | scalar {v : Value} : v.isScalar → Spells v (.literal v)
  | name {v : Value} {x : String} :
      Bundles v [.text Tag.name.text, .text x] → Spells v (.name x)
  | declaration {v name value : Value} {x : String} {n : Node} :
      Bundles v [.text Tag.declaration.text, name, value] → SpellsName name x → Spells value n →
      Spells v (.declaration (.text x) (.node n))
  | conditional {v p c a : Value} {predicate consequent alternative : Node} :
      Bundles v [.text Tag.conditional.text, p, c, a] → Spells p predicate →
      Spells c consequent → Spells a alternative →
      Spells v (.conditional (.node predicate) (.node consequent) (.node alternative))
  | function {v params body : Value} {items : List Value} {xs : List String} {n : Node} :
      Bundles v [.text Tag.function.text, params, body] → Collects params items →
      List.Forall₂ SpellsName items xs → Spells body n →
      Spells v (.function (.tuple (xs.map .text)) (.node n))
  | sequence {v statements : Value} {items : List Value} {ns : List Node} :
      Bundles v [.text Tag.sequence.text, statements] → Collects statements items →
      List.Forall₂ Spells items ns → Spells v (.sequence (.tuple (ns.map .node)))
  | block {v body : Value} {n : Node} :
      Bundles v [.text Tag.block.text, body] → Spells body n → Spells v (.block (.node n))
  | returning {v expr : Value} {n : Node} :
      Bundles v [.text Tag.returning.text, expr] → Spells expr n → Spells v (.returning (.node n))
  | application {v f operands : Value} {items : List Value} {operator : Node} {ns : List Node} :
      Bundles v [.text Tag.application.text, f, operands] → Spells f operator →
      Collects operands items → List.Forall₂ Spells items ns →
      Spells v (.application (.node operator) (.tuple (ns.map .node)))

theorem collects_iff {v : Value} {xs : List Value} : Collects v xs ↔ v.iterate = .ok xs := by
  constructor
  · intro h
    cases h with
    | bundle h => cases h <;> rfl
    | characters s => rfl
    | keys es => rfl
  · intro h
    cases v with
    | list ys =>
        cases h
        exact .bundle (.list xs)
    | tuple ys =>
        cases h
        exact .bundle (.tuple xs)
    | text s =>
        cases h
        exact .characters s
    | dict es =>
        cases h
        exact .keys es
    | _ => cases h

theorem Tag.ofText?_eq_some {t : String} {tag : Tag} : ofText? t = some tag ↔ t = tag.text := by
  constructor
  · intro h
    have found := List.find?_some (p := fun g : Tag => g.text == t) h
    exact (eq_of_beq found).symm
  · rintro rfl
    cases tag <;> rfl

/-- Reading a list or a tuple is reading its parts. -/
theorem Bundles.read {v : Value} {xs : List Value} (h : Bundles v xs) :
    v.read = readParts v xs := by
  cases h <;> simp only [Value.read]

/-- A tagged list is read by its tag. -/
theorem Bundles.read_tagged {v : Value} {tag : Tag} {fields : List Value}
    (h : Bundles v (.text tag.text :: fields)) : v.read = readFields v (some tag) fields := by
  rw [h.read, readParts, Tag.ofText?_eq_some.mpr rfl]

theorem SpellsName.readName {v : Value} {x : String} (h : SpellsName v x) :
    v.readName = .ok x := by
  cases h with
  | text x => rfl
  | tagged h => cases h <;> simp [Value.readName]

theorem readNames_of_spells {params : Value} {items : List Value} {xs : List String}
    (collected : Collects params items) (each : List.Forall₂ SpellsName items xs) :
    params.readNames = .ok xs := by
  rw [Value.readNames, collects_iff.mp collected]
  change items.mapM Value.readName = .ok xs
  clear collected
  induction each with
  | nil => rfl
  | cons named _ ih =>
      rw [List.mapM_cons, named.readName, ih]
      rfl

/-- Statements and operands are read one by one, also where they are characters or keys. -/
theorem readItems_of_collects {v : Value} {items : List Value} (h : Collects v items) :
    v.readItems = readAll items := by
  have texts {α : Type} (f : α → String) (as : List α) :
      readAll (as.map fun a => .text (f a)) =
        .ok (as.map fun a => .node (.literal (.text (f a)))) := by
    induction as with
    | nil => rfl
    | cons a as ih => simp [readAll, Value.read, ih, bind, Except.bind, pure, Except.pure]
  cases h with
  | bundle h => cases h <;> simp only [Value.readItems]
  | characters s => rw [texts, Value.readItems]
  | keys es => rw [Value.readItems, readKeys_eq]

theorem sizeOf_le_sizeOf_map_node (ns : List Node) : sizeOf ns ≤ sizeOf (ns.map Value.node) := by
  induction ns with
  | nil => exact Nat.le_refl _
  | cons n ns ih =>
      simp only [List.map_cons, List.cons.sizeOf_spec, Value.node.sizeOf_spec]
      omega

mutual

/-- What spells a tree is read as that tree. -/
theorem Spells.read {v : Value} {n : Node} (h : Spells v n) : v.read = .ok n := by
  cases h with
  | scalar scalar => cases v <;> first | rfl | cases scalar
  | name bundled =>
      rw [bundled.read_tagged]
      rfl
  | declaration bundled named value =>
      rw [bundled.read_tagged, readFields, named.readName, value.read]
      rfl
  | conditional bundled p c a =>
      rw [bundled.read_tagged, readFields, p.read, c.read, a.read]
      rfl
  | function bundled collected params body =>
      rw [bundled.read_tagged, readFields, readNames_of_spells collected params, body.read]
      rfl
  | @sequence _ _ _ ns bundled collected each =>
      have smaller := sizeOf_le_sizeOf_map_node ns
      rw [bundled.read_tagged, readFields, readItems_of_collects collected,
        readAll_of_spells each]
      rfl
  | block bundled body =>
      rw [bundled.read_tagged, readFields, body.read]
      rfl
  | returning bundled expr =>
      rw [bundled.read_tagged, readFields, expr.read]
      rfl
  | @application _ _ _ _ _ ns bundled f collected each =>
      have smaller := sizeOf_le_sizeOf_map_node ns
      rw [bundled.read_tagged, readFields, f.read, readItems_of_collects collected]
      change (readAll _ >>= _) = _
      rw [readAll_of_spells each]
      rfl
termination_by sizeOf n

theorem readAll_of_spells {items : List Value} {ns : List Node}
    (h : List.Forall₂ Spells items ns) : readAll items = .ok (ns.map .node) := by
  cases h with
  | nil => rfl
  | cons first rest =>
      rw [readAll, first.read, readAll_of_spells rest]
      rfl
termination_by sizeOf ns

end

/-- A list of the tag and the fields. -/
def Tag.list (tag : Tag) (fields : List Value) : Value := .list (.text tag.text :: fields)

mutual

/-- The tagged form of a tree, which has lists for all collections, and tags for all names. -/
def Value.tagged : Value → Value
  | .node n => n.tagged
  | v => v

def Node.tagged : Node → Value
  | .literal v => v
  | .name x => Tag.name.list [.text x]
  | .declaration x v => Tag.declaration.list [Tag.name.list [x], v.tagged]
  | .conditional p c a => Tag.conditional.list [p.tagged, c.tagged, a.tagged]
  | .function ps b => Tag.function.list [.list (ps.items.map fun x => Tag.name.list [x]), b.tagged]
  | .sequence ss => Tag.sequence.list [ss.taggedItems]
  | .block b => Tag.block.list [b.tagged]
  | .returning e => Tag.returning.list [e.tagged]
  | .application f xs => Tag.application.list [f.tagged, xs.taggedItems]

def Value.taggedItems : Value → Value
  | .list xs | .tuple xs => .list (taggedAll xs)
  | v => v

def taggedAll : List Value → List Value
  | [] => []
  | v :: vs => v.tagged :: taggedAll vs

end

theorem spellsName_tagged (x : String) : SpellsName (Tag.name.list [.text x]) x :=
  .tagged (.list _)

/-- Trees spelt one by one. -/
theorem spells_taggedAll {vs : List Value}
    (h : ∀ v ∈ vs, ∃ n, v = .node n ∧ Spells v.tagged n) :
    ∃ ns : List Node, vs = ns.map .node ∧ List.Forall₂ Spells (taggedAll vs) ns := by
  induction vs with
  | nil => exact ⟨[], rfl, .nil⟩
  | cons v vs ih =>
      obtain ⟨own, rest⟩ := List.forall_mem_cons.mp h
      obtain ⟨n, rfl, spelt⟩ := own
      obtain ⟨ns, rfl, each⟩ := ih rest
      exact ⟨n :: ns, rfl, .cons spelt each⟩

/-- The tagged form of a tree with scalars for literals and texts for names spells the tree. -/
theorem Regular.spells_tagged {v : Value} (h : Regular v) :
    ∃ n, v = .node n ∧ Spells v.tagged n := by
  induction h with
  | literal scalar => exact ⟨_, rfl, .scalar scalar⟩
  | name x => exact ⟨_, rfl, .name (.list _)⟩
  | declaration x _ ih =>
      obtain ⟨n, rfl, spelt⟩ := ih
      exact ⟨_, rfl, .declaration (.list _) (spellsName_tagged x) spelt⟩
  | conditional _ _ _ ihp ihc iha =>
      obtain ⟨p, rfl, hp⟩ := ihp
      obtain ⟨c, rfl, hc⟩ := ihc
      obtain ⟨a, rfl, ha⟩ := iha
      exact ⟨_, rfl, .conditional (.list _) hp hc ha⟩
  | function xs _ ih =>
      obtain ⟨n, rfl, spelt⟩ := ih
      have params : List.Forall₂ SpellsName ((xs.map Value.text).map fun x => Tag.name.list [x])
          xs := by
        simp only [List.map_map, List.forall₂_map_left_iff, List.forall₂_same]
        intro x _
        exact spellsName_tagged x
      exact ⟨_, rfl, .function (.list _) (.bundle (.list _)) params spelt⟩
  | sequence _ ih =>
      obtain ⟨ns, rfl, each⟩ := spells_taggedAll ih
      exact ⟨_, rfl, .sequence (.list _) (.bundle (.list _)) each⟩
  | block _ ih =>
      obtain ⟨n, rfl, spelt⟩ := ih
      exact ⟨_, rfl, .block (.list _) spelt⟩
  | returning _ ih =>
      obtain ⟨n, rfl, spelt⟩ := ih
      exact ⟨_, rfl, .returning (.list _) spelt⟩
  | application _ _ ihf ihx =>
      obtain ⟨f, rfl, hf⟩ := ihf
      obtain ⟨ns, rfl, each⟩ := spells_taggedAll ihx
      exact ⟨_, rfl, .application (.list _) hf (.bundle (.list _)) each⟩

end ConstLang
