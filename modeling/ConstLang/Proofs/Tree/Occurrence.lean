import ConstLang.Proofs.Analysis
import ConstLang.Proofs.Names

/-!
Where trees stand. A node is made of parts, and some nodes open a scope around their
parts; a tree stands in another one inside the scopes of the nodes that it is part of.
The scopes are given by their names, from the innermost outward, as environments are.
-/

namespace ConstLang

/-- The items of a collection, and none of a value that cannot be iterated. -/
def Value.items (v : Value) : List Value :=
  match v.iterate with
  | .ok xs => xs
  | .error _ => []

theorem Value.items_eq {v : Value} {xs : List Value} (h : v.iterate = .ok xs) : v.items = xs := by
  simp [items, h]

mutual

/-- The names that a statement declares in its own scope, through sequences, in source order. -/
def Value.declared : Value → List Value
  | .node n => n.declared
  | _ => []

def Node.declared : Node → List Value
  | .declaration x _ => [x]
  | .sequence (.tuple ss) | .sequence (.list ss) => declaredAll ss
  | .sequence (.dict es) => declaredKeys es
  | _ => []

def declaredAll : List Value → List Value
  | [] => []
  | s :: ss => s.declared ++ declaredAll ss

def declaredKeys : List (Value × Value) → List Value
  | [] => []
  | (key, _) :: es => key.declared ++ declaredKeys es

end

namespace Node

/-- The trees that a node is made of. -/
def parts : Node → List Value
  | .literal _ | .name _ => []
  | .declaration _ v | .function _ v | .block v | .returning v => [v]
  | .conditional p c a => [p, c, a]
  | .sequence ss => ss.items
  | .application f xs => f :: xs.items

/-- The names that a node gives: that of a declaration, and the parameters of a function. -/
def names : Node → List Value
  | .declaration x _ => [x]
  | .function ps _ => ps.items
  | _ => []

/-- The scope that a node opens around its parts, if it opens one. A function has its parameters and
the names of its body in one scope. -/
def scope : Node → List (List Value)
  | .block b => [b.declared]
  | .function ps b => [ps.items ++ b.declared]
  | _ => []

end Node

/-- A tree stands somewhere in the whole, inside the given scopes. -/
inductive Stands (whole : Value) : List (List Value) → Value → Prop
  | whole : Stands whole [] whole
  | part {scopes : List (List Value)} {n : Node} {v : Value} :
      Stands whole scopes (.node n) → v ∈ n.parts → Stands whole (n.scope ++ scopes) v

/-- What stands in a tree stands wherever the tree does, inside the scopes of both. -/
theorem Stands.trans {whole v w : Value} {scopes inner : List (List Value)}
    (h : Stands whole scopes v) (h' : Stands v inner w) : Stands whole (inner ++ scopes) w := by
  induction h' with
  | whole => exact h
  | part _ hw ih => simpa using ih.part hw

theorem Stands.of_part {n : Node} {p v : Value} {scopes : List (List Value)} (h : Stands p scopes v)
    (hp : p ∈ n.parts) : Stands (.node n) (scopes ++ n.scope) v := by
  simpa using (Stands.whole.part hp).trans h

/-- A tree stands in a node if it is the node or stands in one of its parts. -/
theorem stands_node {n : Node} {v : Value} {scopes : List (List Value)} :
    Stands (.node n) scopes v ↔
      scopes = [] ∧ v = .node n ∨
        ∃ p ∈ n.parts, ∃ inner, Stands p inner v ∧ scopes = inner ++ n.scope := by
  constructor
  · intro h
    induction h with
    | whole => exact .inl ⟨rfl, rfl⟩
    | @part _ n' v' _ hv ih =>
        rcases ih with ⟨rfl, same⟩ | ⟨p, hp, inner, stands, rfl⟩
        · cases same
          exact .inr ⟨v', hv, [], .whole, by simp⟩
        · exact .inr ⟨p, hp, n'.scope ++ inner, stands.part hv, by simp⟩
  · rintro (⟨rfl, rfl⟩ | ⟨p, hp, inner, stands, rfl⟩)
    · exact .whole
    · exact stands.of_part hp

theorem stands_of_not_node {w v : Value} {scopes : List (List Value)} (h : w.isNode = false)
    (stands : Stands w scopes v) : scopes = [] ∧ v = w := by
  induction stands with
  | whole => exact ⟨rfl, rfl⟩
  | part _ _ ih =>
      rw [← ih.2] at h
      cases h

/-- Every node in the tree has the property, the tree itself included. -/
def EveryNode (Q : Node → Prop) (whole : Value) : Prop :=
  ∀ scopes n, Stands whole scopes (.node n) → Q n

theorem everyNode_node {Q : Node → Prop} {n : Node} :
    EveryNode Q (.node n) ↔ Q n ∧ ∀ p ∈ n.parts, EveryNode Q p := by
  constructor
  · intro h
    exact ⟨h [] n .whole, fun p hp _ m stands => h _ m (stands.of_part hp)⟩
  · rintro ⟨own, parts⟩ scopes m stands
    rcases stands_node.mp stands with ⟨-, same⟩ | ⟨p, hp, inner, stands, -⟩
    · cases same
      exact own
    · exact parts p hp inner m stands

theorem everyNode_of_not_node {Q : Node → Prop} {v : Value} (h : v.isNode = false) :
    EveryNode Q v := by
  intro scopes n stands
  obtain ⟨-, rfl⟩ := stands_of_not_node h stands
  cases h

theorem EveryNode.of_node {Q : Node → Prop} {n : Node} {p : Value} (h : EveryNode Q (.node n))
    (hp : p ∈ n.parts) : EveryNode Q p :=
  (everyNode_node.mp h).2 p hp

theorem EveryNode.of_stands {Q : Node → Prop} {whole v : Value} {scopes : List (List Value)}
    (h : EveryNode Q whole) (stands : Stands whole scopes v) : EveryNode Q v :=
  fun _ n below => h _ n (stands.trans below)

theorem EveryNode.self {Q : Node → Prop} {n : Node} (h : EveryNode Q (.node n)) : Q n :=
  (everyNode_node.mp h).1

/-- Every declared name and every parameter is a text. -/
abbrev Textual : Value → Prop := EveryNode fun n => ∀ x ∈ n.names, ∃ s, x = .text s

/-- The items of a collection are smaller, unless they are the characters of a text. -/
theorem Value.mem_items_cases {v w : Value} (h : w ∈ v.items) :
    (∃ s, w = .text s) ∨ sizeOf w < sizeOf v := by
  cases v with
  | list xs | tuple xs =>
      have inside : w ∈ xs := h
      have smaller := List.sizeOf_lt_of_mem inside
      refine .inr ?_
      simp only [list.sizeOf_spec, tuple.sizeOf_spec]
      omega
  | text s =>
      obtain ⟨c, -, rfl⟩ := List.mem_map.mp h
      exact .inl ⟨_, rfl⟩
  | dict es =>
      obtain ⟨⟨key, x⟩, inside, rfl⟩ := List.mem_map.mp h
      have smaller := List.sizeOf_lt_of_mem inside
      refine .inr ?_
      simp only [Prod.mk.sizeOf_spec, dict.sizeOf_spec] at smaller ⊢
      omega
  | _ => simp [items, iterate] at h

theorem sizeOf_lt_of_mem_items {v : Value} {n : Node} (h : .node n ∈ v.items) :
    sizeOf n < sizeOf v := by
  rcases Value.mem_items_cases h with ⟨s, same⟩ | smaller
  · cases same
  · rw [Value.node.sizeOf_spec] at smaller
    omega

theorem sizeOf_lt_of_mem_parts {m n : Node} (h : .node m ∈ n.parts) : sizeOf m < sizeOf n := by
  cases n with
  | sequence ss =>
      have smaller := sizeOf_lt_of_mem_items h
      simp
      omega
  | application f xs =>
      rcases List.mem_cons.mp h with rfl | h
      · simp
        omega
      · have smaller := sizeOf_lt_of_mem_items h
        simp
        omega
  | literal _ | name _ => simp [Node.parts] at h
  | conditional _ _ _ =>
      simp only [Node.parts, List.mem_cons, List.not_mem_nil, or_false] at h
      rcases h with rfl | rfl | rfl
      all_goals
        simp
        omega
  | declaration _ _ | function _ _ | block _ | returning _ =>
      obtain rfl := List.mem_singleton.mp h
      simp
      omega

/-- Trees by their parts: what is no node has none. -/
@[elab_as_elim]
theorem Value.parts_induction {motive : Value → Prop}
    (leaf : ∀ v : Value, v.isNode = false → motive v)
    (node : ∀ n : Node, (∀ p ∈ n.parts, motive p) → motive (.node n)) (v : Value) : motive v := by
  cases v with
  | node n =>
      refine node n fun p hp => ?_
      cases p with
      | node m =>
          have smaller := sizeOf_lt_of_mem_parts hp
          exact Value.parts_induction leaf node (.node m)
      | _ => exact leaf _ rfl
  | _ => exact leaf _ rfl
termination_by sizeOf v

theorem declaredAll_eq (ss : List Value) : declaredAll ss = ss.flatMap Value.declared := by
  induction ss with
  | nil => rfl
  | cons s ss ih => simp [declaredAll, ih]

theorem declaredKeys_eq (es : List (Value × Value)) :
    declaredKeys es = (es.map (·.1)).flatMap Value.declared := by
  induction es with
  | nil => rfl
  | cons e es ih => simp [declaredKeys, ih]

theorem Node.declared_sequence (ss : Value) :
    (sequence ss).declared = ss.items.flatMap Value.declared := by
  cases ss with
  | list ss | tuple ss => exact declaredAll_eq ss
  | text s => simp [declared, Value.items, Value.iterate, List.flatMap_map, Value.declared]
  | dict es => exact declaredKeys_eq es
  | _ => rfl

theorem Node.declared_sequence_of_iterate {ss : Value} {vs : List Value}
    (h : ss.iterate = .ok vs) : (sequence ss).declared = declaredAll vs := by
  rw [declared_sequence, Value.items_eq h, declaredAll_eq]

theorem localNamesAll_eq_declaredAll {ss names : List Value}
    (each : ∀ s ∈ ss, ∀ own, s.localNames = .ok own → own = s.declared)
    (h : localNamesAll ss = .ok names) : names = declaredAll ss := by
  induction ss generalizing names with
  | nil =>
      cases h
      rfl
  | cons s ss ih =>
      simp only [localNamesAll, except_bind_eq_ok] at h
      obtain ⟨rest, hrest, own, hown, hall⟩ := h
      rw [insertAll_eq_append hall, each s List.mem_cons_self own hown,
        ih (fun t ht => each t (List.mem_cons_of_mem _ ht)) hrest, declaredAll]

/-- The names of a scope, where they can be found, are those that its statements declare. -/
theorem Value.localNames_eq_declared {v : Value} {names : List Value}
    (h : v.localNames = .ok names) : names = v.declared := by
  induction v using Value.parts_induction generalizing names with
  | leaf v leaf =>
      cases v with
      | node n => cases leaf
      | _ =>
          cases h
          rfl
  | node n ih =>
      cases n with
      | sequence ss =>
          obtain ⟨vs, hvs, all⟩ := Node.localNames_sequence_eq_ok.mp h
          rw [Value.declared, Node.declared_sequence_of_iterate hvs]
          refine localNamesAll_eq_declaredAll (fun s hs _ => ih s ?_) all
          rwa [Node.parts, Value.items_eq hvs]
      | _ =>
          cases h
          rfl

theorem Value.paramNames_eq_items {v : Value} {names : List Value} (h : v.paramNames = .ok names) :
    names = v.items := by
  simp only [paramNames, except_bind_eq_ok, liftMishap_eq_ok] at h
  obtain ⟨xs, hxs, hnames⟩ := h
  rw [insertAll_eq_append hnames, List.append_nil, items_eq hxs]

theorem Textual.declared {v : Value} (h : Textual v) : ∀ x ∈ v.declared, ∃ s, x = .text s := by
  induction v using Value.parts_induction with
  | leaf v leaf => cases v <;> simp_all [Value.declared, Value.isNode]
  | node n ih =>
      cases n with
      | declaration x v => exact h.self
      | sequence ss =>
          intro x hx
          rw [Value.declared, Node.declared_sequence, List.mem_flatMap] at hx
          obtain ⟨s, hs, hx⟩ := hx
          exact ih s hs (h.of_node hs) x hx
      | _ => simp [Value.declared, Node.declared]

end ConstLang
