import ConstLang.Code
import ConstLang.Proofs.Renaming.Value
import ConstLang.Tree.Build
import ConstLang.Tree.Reader

/-!
Trees under a renaming. Reading, building and analysing trees, and finding the names of
a scope, take a renamed tree to the renamed result.
-/

namespace ConstLang

namespace Renaming

variable {ρ : Renaming} {α α' γ γ' : Type}

/-- A result whose fault is renamed, and whose value is changed as given. -/
def result (ρ : Renaming) (on : α → α') : Except Fault α → Except Fault α'
  | .ok a => .ok (on a)
  | .error e => .error (e.rename ρ)

theorem result_bind {on : α → α'} {on' : γ → γ'} {next : α → Except Fault γ}
    {next' : α' → Except Fault γ'} (r : Except Fault α)
    (h : ∀ a, next' (on a) = ρ.result on' (next a)) :
    (ρ.result on r >>= next') = ρ.result on' (r >>= next) := by
  cases r with
  | ok a => exact h a
  | error e => rfl

theorem mishap_bind {on : α → α'} {on' : γ → γ'} {next : α → Except Mishap γ}
    {next' : α' → Except Mishap γ'} (r : Except Mishap α)
    (h : ∀ a, next' (on a) = (next a).map on') :
    (r.map on >>= next') = (r >>= next).map on' := by
  cases r with
  | ok a => exact h a
  | error e => rfl

theorem result_liftMishap (ρ : Renaming) (on : α → α') (r : Except Mishap α) :
    liftMishap (r.map on) = ρ.result on (liftMishap r) := by
  cases r <;> rfl

end Renaming

open Renaming

mutual

def Code.rename (ρ : Renaming) : Code → Code
  | .literal v => .literal (v.rename ρ)
  | .name x => .name x
  | .declare x c => .declare (x.rename ρ) (c.rename ρ)
  | .select p c a => .select (p.rename ρ) (c.rename ρ) (a.rename ρ)
  | .close params locals body =>
      .close (params.map (Value.rename ρ)) (locals.map (Value.rename ρ)) (body.rename ρ)
  | .sequence cs => .sequence (renameAll ρ cs)
  | .enter locals body => .enter (locals.map (Value.rename ρ)) (body.rename ρ)
  | .returning c => .returning (c.rename ρ)
  | .apply f xs => .apply (f.rename ρ) (renameAll ρ xs)

def renameAll (ρ : Renaming) : List Code → List Code
  | [] => []
  | c :: cs => c.rename ρ :: renameAll ρ cs

end

variable (ρ : Renaming)

theorem renameAll_eq_map (cs : List Code) : renameAll ρ cs = cs.map (Code.rename ρ) := by
  induction cs with
  | nil => rfl
  | cons c cs ih => simp [renameAll, ih]

theorem insertAll_rename (xs into : List Value) :
    insertAll (xs.map (Value.rename ρ)) (into.map (Value.rename ρ)) =
      ρ.result (List.map (Value.rename ρ)) (insertAll xs into) := by
  induction xs with
  | nil => rfl
  | cons x xs ih =>
      simp only [List.map_cons, insertAll, ih]
      refine result_bind _ fun rest => ?_
      simp only [List.any_map, Function.comp_def, Value.same_rename]
      split <;> rfl

mutual

theorem Value.localNames_rename : ∀ v : Value,
    (v.rename ρ).localNames = ρ.result (List.map (Value.rename ρ)) v.localNames
  | .node n => Node.localNames_rename n
  | .list _ | .tuple _ | .dict _ | .nan _ | .primitive _ _ _ | .function _ _ _ | .marker _ _ | .null
  | .undefined | .uninitialized | .bool _ | .int _ | .float _ | .text _ | .operation _ => rfl

theorem Node.localNames_rename : ∀ n : Node,
    (n.rename ρ).localNames = ρ.result (List.map (Value.rename ρ)) n.localNames
  | .sequence (.tuple ss) | .sequence (.list ss) => by
      simpa [Node.localNames] using localNamesAll_rename ss
  | .sequence (.dict es) => by simpa [Node.localNames] using localNamesKeys_rename es
  | .sequence (.nan _) | .sequence (.primitive _ _ _)
  | .sequence (.function _ _ _) | .sequence (.marker _ _) | .sequence .null
  | .sequence .undefined | .sequence .uninitialized | .sequence (.bool _) | .sequence (.int _)
  | .sequence (.float _) | .sequence (.text _) | .sequence (.operation _) | .sequence (.node _)
  | .literal _ | .name _ | .declaration _ _ | .conditional _ _ _ | .function _ _ | .block _
  | .returning _ | .application _ _ => rfl

theorem localNamesAll_rename : ∀ ss : List Value,
    localNamesAll (ss.map (Value.rename ρ)) =
      ρ.result (List.map (Value.rename ρ)) (localNamesAll ss)
  | [] => rfl
  | s :: ss => by
      simp only [List.map_cons, localNamesAll, localNamesAll_rename ss]
      refine result_bind _ fun rest => ?_
      rw [Value.localNames_rename s]
      exact result_bind _ fun own => insertAll_rename ρ own rest

theorem localNamesKeys_rename : ∀ es : List (Value × Value),
    localNamesKeys (es.map fun e => (e.1.rename ρ, e.2.rename ρ)) =
      ρ.result (List.map (Value.rename ρ)) (localNamesKeys es)
  | [] => rfl
  | (key, _) :: es => by
      simp only [List.map_cons, localNamesKeys, localNamesKeys_rename es]
      refine result_bind _ fun rest => ?_
      rw [Value.localNames_rename key]
      exact result_bind _ fun own => insertAll_rename ρ own rest

end

theorem Value.paramNames_rename (v : Value) :
    (v.rename ρ).paramNames = ρ.result (List.map (Value.rename ρ)) v.paramNames := by
  simp only [paramNames, iterate_rename, result_liftMishap ρ]
  exact result_bind _ fun names => insertAll_rename ρ names []

theorem Code.ofStatements_rename : ∀ cs : List Code,
    ofStatements (cs.map (Code.rename ρ)) = (ofStatements cs).rename ρ
  | [] => rfl
  | [_] => rfl
  | _ :: _ :: _ => by simp [ofStatements, Code.rename, renameAll_eq_map]

mutual

theorem Value.analyze_rename : ∀ v : Value,
    (v.rename ρ).analyze = ρ.result (Code.rename ρ) v.analyze
  | .node n => Node.analyze_rename n
  | .list _ | .tuple _ | .dict _ | .nan _ | .primitive _ _ _ | .function _ _ _ | .marker _ _ | .null
  | .undefined | .uninitialized | .bool _ | .int _ | .float _ | .text _ | .operation _ => rfl

theorem Node.analyze_rename : ∀ n : Node,
    (n.rename ρ).analyze = ρ.result (Code.rename ρ) n.analyze
  | .literal _ | .name _ => rfl
  | .declaration x v => by
      simp only [Node.rename, Node.analyze, Value.analyze_rename v]
      exact result_bind _ fun c => rfl
  | .conditional p c a => by
      simp only [Node.rename, Node.analyze, Value.analyze_rename p, Value.analyze_rename c,
        Value.analyze_rename a]
      exact result_bind _ fun p => result_bind _ fun c => result_bind _ fun a => rfl
  | .function ps b => by
      simp only [Node.rename, Node.analyze, Value.paramNames_rename, Value.localNames_rename,
        Value.analyze_rename b]
      refine result_bind _ fun params => result_bind _ fun locals => ?_
      rw [insertAll_rename]
      exact result_bind _ fun _ => result_bind _ fun body => rfl
  | .sequence ss => by
      simp only [Node.rename, Node.analyze, Value.analyzeItems_rename ss]
      exact result_bind _ fun cs => congrArg Except.ok (Code.ofStatements_rename ρ cs)
  | .block b => by
      simp only [Node.rename, Node.analyze, Value.localNames_rename, Value.analyze_rename b]
      exact result_bind _ fun locals => result_bind _ fun body => rfl
  | .returning e => by
      simp only [Node.rename, Node.analyze, Value.analyze_rename e]
      exact result_bind _ fun c => rfl
  | .application f xs => by
      simp only [Node.rename, Node.analyze, Value.analyze_rename f, Value.analyzeItems_rename xs]
      refine result_bind _ fun f => result_bind _ fun cs => ?_
      simp [pure, Except.pure, result, Code.rename, renameAll_eq_map]

theorem Value.analyzeItems_rename : ∀ v : Value,
    (v.rename ρ).analyzeItems = ρ.result (List.map (Code.rename ρ)) v.analyzeItems
  | .list xs | .tuple xs => by simpa [Value.analyzeItems] using analyzeAll_rename xs
  | .text s => by
      simp only [Value.rename, Value.analyzeItems]
      cases s.toList <;> rfl
  | .dict es => by simpa [Value.analyzeItems] using analyzeKeys_rename es
  | .node _ | .nan _ | .primitive _ _ _ | .function _ _ _ | .marker _ _ | .null
  | .undefined | .uninitialized | .bool _ | .int _ | .float _ | .operation _ => rfl

theorem analyzeAll_rename : ∀ xs : List Value,
    analyzeAll (xs.map (Value.rename ρ)) = ρ.result (List.map (Code.rename ρ)) (analyzeAll xs)
  | [] => rfl
  | x :: xs => by
      simp only [List.map_cons, analyzeAll, Value.analyze_rename x, analyzeAll_rename xs]
      exact result_bind _ fun c => result_bind _ fun cs => rfl

theorem analyzeKeys_rename : ∀ es : List (Value × Value),
    analyzeKeys (es.map fun e => (e.1.rename ρ, e.2.rename ρ)) =
      ρ.result (List.map (Code.rename ρ)) (analyzeKeys es)
  | [] => rfl
  | (key, _) :: es => by
      simp only [List.map_cons, analyzeKeys, Value.analyze_rename key, analyzeKeys_rename es]
      exact result_bind _ fun c => result_bind _ fun cs => rfl

end

theorem Value.readName_rename : ∀ v : Value, (v.rename ρ).readName = ρ.result id v.readName
  | .list [x, y] | .tuple [x, y] => by
      cases x with
      | text t =>
          cases y with
          | text name =>
              simp only [Value.rename, renameItems_eq_map, List.map_cons, List.map_nil, readName]
              split <;> rfl
          | _ => rfl
      | _ => rfl
  | .list [] | .list [_] | .list (_ :: _ :: _ :: _) | .tuple [] | .tuple [_]
  | .tuple (_ :: _ :: _ :: _) => by simp [readName, result, Fault.rename]
  | .node _ | .dict _ | .nan _ | .primitive _ _ _ | .function _ _ _ | .marker _ _ | .null
  | .undefined | .uninitialized | .bool _ | .int _ | .float _ | .text _ | .operation _ => rfl

theorem Value.readNames_rename (v : Value) : (v.rename ρ).readNames = ρ.result id v.readNames := by
  simp only [readNames, iterate_rename, result_liftMishap ρ]
  refine result_bind _ fun xs => ?_
  induction xs with
  | nil => rfl
  | cons x xs ih =>
      simp only [List.map_cons, List.mapM_cons, readName_rename, ih]
      exact result_bind _ fun name => result_bind _ fun names => rfl

mutual

theorem Value.read_rename : ∀ v : Value, (v.rename ρ).read = ρ.result (Node.rename ρ) v.read
  | .list xs => by simpa [Value.read] using readParts_rename (.list xs) xs
  | .tuple xs => by simpa [Value.read] using readParts_rename (.tuple xs) xs
  | .node _ | .dict _ | .nan _ | .primitive _ _ _ | .function _ _ _ | .marker _ _ | .null
  | .undefined | .uninitialized | .bool _ | .int _ | .float _ | .text _ | .operation _ => rfl

theorem readParts_rename (whole : Value) : ∀ xs : List Value,
    readParts (whole.rename ρ) (xs.map (Value.rename ρ)) =
      ρ.result (Node.rename ρ) (readParts whole xs)
  | .text t :: fields => readFields_rename whole (Tag.ofText? t) fields
  | [] => rfl
  | .list _ :: _ | .tuple _ :: _ | .dict _ :: _ | .nan _ :: _ | .primitive _ _ _ :: _
  | .function _ _ _ :: _ | .marker _ _ :: _ | .null :: _ | .undefined :: _ | .uninitialized :: _
  | .bool _ :: _ | .int _ :: _ | .float _ :: _ | .operation _ :: _ | .node _ :: _ => rfl

theorem readFields_rename (whole : Value) (tag : Option Tag) : ∀ fields : List Value,
    readFields (whole.rename ρ) tag (fields.map (Value.rename ρ)) =
      ρ.result (Node.rename ρ) (readFields whole tag fields)
  | [] => by rcases tag with _ | _ | _ <;> rfl
  | [a] => by
      rcases tag with _ | tag
      · rfl
      cases tag with
      | name => cases a <;> rfl
      | sequence =>
          simp only [List.map_cons, List.map_nil, readFields, Value.readItems_rename a]
          exact result_bind _ fun ss => by simp [pure, Except.pure, result]
      | block | returning =>
          simp only [List.map_cons, List.map_nil, readFields, Value.read_rename a]
          exact result_bind _ fun n => rfl
      | _ => rfl
  | [a, b] => by
      rcases tag with _ | tag
      · rfl
      cases tag with
      | declaration =>
          simp only [List.map_cons, List.map_nil, readFields, Value.readName_rename,
            Value.read_rename b]
          exact result_bind _ fun x => result_bind _ fun n => rfl
      | function =>
          simp only [List.map_cons, List.map_nil, readFields, Value.readNames_rename,
            Value.read_rename b]
          refine result_bind _ fun xs => result_bind _ fun n => ?_
          simp [pure, Except.pure, result]
      | application =>
          simp only [List.map_cons, List.map_nil, readFields, Value.read_rename a,
            Value.readItems_rename b]
          exact result_bind _ fun f => result_bind _ fun xs => by simp [pure, Except.pure, result]
      | name => cases a <;> rfl
      | _ => rfl
  | [a, b, c] => by
      rcases tag with _ | tag
      · rfl
      cases tag with
      | conditional =>
          simp only [List.map_cons, List.map_nil, readFields, Value.read_rename a,
            Value.read_rename b, Value.read_rename c]
          exact result_bind _ fun p => result_bind _ fun c => result_bind _ fun a => rfl
      | name => cases a <;> rfl
      | _ => rfl
  | a :: _ :: _ :: _ :: _ => by
      rcases tag with _ | tag
      · rfl
      cases tag with
      | name => cases a <;> rfl
      | _ => rfl

theorem Value.readItems_rename : ∀ v : Value,
    (v.rename ρ).readItems = ρ.result (List.map (Value.rename ρ)) v.readItems
  | .list xs | .tuple xs => by simpa [Value.readItems] using readAll_rename xs
  | .text s => by simp [Value.readItems, result]
  | .dict es => by simpa [Value.readItems] using readKeys_rename es
  | .node _ | .nan _ | .primitive _ _ _ | .function _ _ _ | .marker _ _ | .null
  | .undefined | .uninitialized | .bool _ | .int _ | .float _ | .operation _ => rfl

theorem readAll_rename : ∀ xs : List Value,
    readAll (xs.map (Value.rename ρ)) = ρ.result (List.map (Value.rename ρ)) (readAll xs)
  | [] => rfl
  | x :: xs => by
      simp only [List.map_cons, readAll, Value.read_rename x, readAll_rename xs]
      exact result_bind _ fun n => result_bind _ fun ns => rfl

theorem readKeys_rename : ∀ es : List (Value × Value),
    readKeys (es.map fun e => (e.1.rename ρ, e.2.rename ρ)) =
      ρ.result (List.map (Value.rename ρ)) (readKeys es)
  | [] => rfl
  | (key, _) :: es => by
      simp only [List.map_cons, readKeys, Value.read_rename key, readKeys_rename es]
      exact result_bind _ fun n => result_bind _ fun ns => rfl

end

@[simp] theorem Value.asNode_rename (v : Value) : (v.rename ρ).asNode = v.asNode.rename ρ := by
  cases v <;> simp [asNode]

@[simp] theorem Value.asField_rename (v : Value) : (v.rename ρ).asField = v.asField.rename ρ := by
  cases v <;> simp [asField]

@[simp] theorem Value.nameText_rename (v : Value) : (v.rename ρ).nameText = v.nameText := by
  cases v <;> rfl

theorem NodeKind.build_rename (kind : NodeKind) (fields : List Value) :
    kind.build (fields.map (Value.rename ρ)) = (kind.build fields).map (Node.rename ρ) := by
  rcases fields with _ | ⟨a, _ | ⟨b, _ | ⟨c, _ | ⟨d, rest⟩⟩⟩⟩ <;> cases kind
  case cons.nil.name =>
    simp only [List.map_cons, List.map_nil, NodeKind.build, Value.nameText_rename]
    cases a.nameText <;> rfl
  all_goals simp [NodeKind.build, Except.map]

namespace Node

theorem makeDeclaration_rename (name v : Value) :
    makeDeclaration (name.rename ρ) (v.rename ρ) =
      (makeDeclaration name v).map (Node.rename ρ) := by
  simp only [makeDeclaration, Value.nameText_rename, Value.asNode_rename]
  cases name.nameText <;> rfl

theorem makeFunction_rename (params body : Value) :
    makeFunction (params.rename ρ) (body.rename ρ) =
      (makeFunction params body).map (Node.rename ρ) := by
  simp only [makeFunction, Value.iterate_rename, Value.asNode_rename]
  refine mishap_bind _ fun xs => ?_
  rw [List.mapM_map]
  simp only [Function.comp_def, Value.nameText_rename]
  cases xs.mapM Value.nameText <;> simp [bind, Except.bind, Except.map, pure, Except.pure]

theorem makeApplication_rename (f : Value) (xs : List Value) :
    makeApplication (f.rename ρ) (xs.map (Value.rename ρ)) = (makeApplication f xs).rename ρ := by
  cases f <;> simp [makeApplication]

end Node

theorem Constructor.make_rename (c : Constructor) (args : List Value) :
    c.make (args.map (Value.rename ρ)) = (c.make args).map (Node.rename ρ) := by
  cases c with
  | name =>
      rcases args with _ | ⟨a, _ | ⟨b, rest⟩⟩ <;> try rfl
      simp only [List.map_cons, List.map_nil, make, Value.nameText_rename]
      cases a.nameText <;> rfl
  | declaration =>
      rcases args with _ | ⟨a, _ | ⟨b, _ | ⟨c, rest⟩⟩⟩ <;> try rfl
      exact Node.makeDeclaration_rename ρ a b
  | conditional =>
      rcases args with _ | ⟨a, _ | ⟨b, _ | ⟨c, _ | ⟨d, rest⟩⟩⟩⟩ <;> try rfl
      simp [make, Node.makeConditional, Except.map]
  | function =>
      rcases args with _ | ⟨a, _ | ⟨b, _ | ⟨c, rest⟩⟩⟩ <;> try rfl
      exact Node.makeFunction_rename ρ a b
  | sequence => simp [make, Node.makeSequence, Except.map]
  | block =>
      rcases args with _ | ⟨a, _ | ⟨b, rest⟩⟩ <;> try rfl
      simp [make, Node.makeBlock, Except.map]
  | returning =>
      rcases args with _ | ⟨a, _ | ⟨b, rest⟩⟩ <;> try rfl
      simp [make, Node.makeReturning, Except.map]
  | application =>
      cases args with
      | nil => rfl
      | cons f xs => simp [make, Node.makeApplication_rename, Except.map]
  | functionDeclaration =>
      rcases args with _ | ⟨a, _ | ⟨b, _ | ⟨c, _ | ⟨d, rest⟩⟩⟩⟩ <;> try rfl
      simp only [List.map_cons, List.map_nil, make, Node.makeFunction_rename]
      exact mishap_bind _ fun n => Node.makeDeclaration_rename ρ a (.node n)
  | asNode =>
      rcases args with _ | ⟨a, _ | ⟨b, rest⟩⟩ <;> try rfl
      simp [make, Except.map]

end ConstLang
