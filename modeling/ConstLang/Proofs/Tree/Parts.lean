import ConstLang.Proofs.Renaming.Given
import ConstLang.Proofs.Tree.Occurrence

/-!
The parts of code, and the trees that they come from. Code keeps the shape of its tree,
except that a sequence of one statement is that statement; so every part of the code is
the code of a tree that stands in the whole tree, inside the same scopes. The values in the
code are values of the tree.
-/

namespace ConstLang

namespace Code

/-- The code that code is made of, each part with the scope that is opened for it, if one is. -/
def parts : Code → List (List (List Value) × Code)
  | .literal _ | .name _ => []
  | .declare _ c | .returning c => [([], c)]
  | .select p c a => [([], p), ([], c), ([], a)]
  | .close params locals body => [([params ++ locals], body)]
  | .sequence cs => cs.map ([], ·)
  | .enter locals body => [([locals], body)]
  | .apply f xs => ([], f) :: xs.map ([], ·)

theorem sizeOf_lt_of_mem_parts {c : Code} {p : List (List Value) × Code} (h : p ∈ c.parts) :
    sizeOf p.2 < sizeOf c := by
  have listed {cs : List Code} (h : p ∈ cs.map (([] : List (List Value)), ·)) :
      sizeOf p.2 < sizeOf cs := by
    obtain ⟨d, hd, rfl⟩ := List.mem_map.mp h
    exact List.sizeOf_lt_of_mem hd
  cases c with
  | literal _ | name _ => cases h
  | declare _ _ | returning _ | close _ _ _ | enter _ _ =>
      obtain rfl := List.mem_singleton.mp h
      simp only [declare.sizeOf_spec, returning.sizeOf_spec, close.sizeOf_spec, enter.sizeOf_spec]
      omega
  | select _ _ _ =>
      simp only [parts, List.mem_cons, List.not_mem_nil, or_false] at h
      rcases h with rfl | rfl | rfl
      all_goals
        simp only [select.sizeOf_spec]
        omega
  | sequence cs =>
      have smaller := listed h
      simp only [sequence.sizeOf_spec]
      omega
  | apply f xs =>
      rcases List.mem_cons.mp h with rfl | h
      · simp only [apply.sizeOf_spec]
        omega
      · have smaller := listed h
        simp only [apply.sizeOf_spec]
        omega

@[elab_as_elim]
theorem parts_induction {motive : Code → Prop}
    (step : ∀ c : Code, (∀ p ∈ c.parts, motive p.2) → motive c) (c : Code) : motive c :=
  step c fun p hp =>
    have := sizeOf_lt_of_mem_parts hp
    parts_induction step p.2
termination_by sizeOf c

end Code

/-- The tree that code comes from, without the sequences of one statement around it. -/
theorem kernel_of_analyze {v : Value} {c : Code} (ok : v.analyze = .ok c) :
    ∃ n, Stands v [] (.node n) ∧ n.analyze = .ok c ∧
      ∀ ss s, n = .sequence ss → ss.iterate ≠ .ok [s] := by
  induction v using Value.parts_induction with
  | leaf v leaf =>
      obtain ⟨n, rfl, -⟩ := Value.analyze_eq_ok.mp ok
      cases leaf
  | node n ih =>
      by_cases single : ∃ ss s, n = .sequence ss ∧ ss.iterate = .ok [s]
      · obtain ⟨ss, s, rfl, items⟩ := single
        obtain ⟨vs, cs, hvs, each, rfl⟩ := Node.analyze_sequence_eq_ok.mp ok
        obtain rfl : [s] = vs := Except.ok.inj (items.symm.trans hvs)
        obtain ⟨c, _, hc, rest, rfl⟩ := List.forall₂_cons_left_iff.mp each
        obtain rfl := List.forall₂_nil_left_iff.mp rest
        have inside : s ∈ (Node.sequence ss).parts := by simp [Node.parts, Value.items_eq items]
        obtain ⟨n, stands, analyzed, kernel⟩ := ih s inside hc
        exact ⟨n, stands.of_part inside, analyzed, kernel⟩
      · refine ⟨n, .whole, ok, fun ss s hn items => single ⟨ss, s, hn, items⟩⟩

theorem exists_of_mem_analyzed {vs : List Value} {cs : List Code} {c : Code}
    (h : List.Forall₂ (fun v c => v.analyze = .ok c) vs cs) (hc : c ∈ cs) :
    ∃ v ∈ vs, v.analyze = .ok c := by
  induction h with
  | nil => cases hc
  | @cons v d _ _ hv _ ih =>
      rcases List.mem_cons.mp hc with rfl | hc
      · exact ⟨v, List.mem_cons_self, hv⟩
      · obtain ⟨w, hw, ok⟩ := ih hc
        exact ⟨w, List.mem_cons_of_mem _ hw, ok⟩

/-- A part of code comes from a part of the tree, and stands in the scope that the tree opens. -/
theorem part_of_kernel {n : Node} {c : Code} {p : List (List Value) × Code}
    (analyzed : n.analyze = .ok c) (kernel : ∀ ss s, n = .sequence ss → ss.iterate ≠ .ok [s])
    (hp : p ∈ c.parts) : ∃ w ∈ n.parts, n.scope = p.1 ∧ w.analyze = .ok p.2 := by
  have listed {vs : List Value} {cs : List Code}
      (each : List.Forall₂ (fun v c => v.analyze = .ok c) vs cs)
      (h : p ∈ cs.map (([] : List (List Value)), ·)) :
      ∃ w ∈ vs, [] = p.1 ∧ w.analyze = .ok p.2 := by
    obtain ⟨d, hd, rfl⟩ := List.mem_map.mp h
    obtain ⟨w, hw, ok⟩ := exists_of_mem_analyzed each hd
    exact ⟨w, hw, rfl, ok⟩
  cases n with
  | literal _ | name _ =>
      cases analyzed
      cases hp
  | declaration x w =>
      obtain ⟨c', hc, rfl⟩ := Node.analyze_declaration_eq_ok.mp analyzed
      obtain rfl := List.mem_singleton.mp hp
      exact ⟨w, List.mem_singleton_self w, rfl, hc⟩
  | returning w =>
      obtain ⟨c', hc, rfl⟩ := Node.analyze_returning_eq_ok.mp analyzed
      obtain rfl := List.mem_singleton.mp hp
      exact ⟨w, List.mem_singleton_self w, rfl, hc⟩
  | conditional a b d =>
      obtain ⟨a', b', d', ha, hb, hd, rfl⟩ := Node.analyze_conditional_eq_ok.mp analyzed
      simp only [Code.parts, List.mem_cons, List.not_mem_nil, or_false] at hp
      rcases hp with rfl | rfl | rfl
      · exact ⟨a, by simp [Node.parts], rfl, ha⟩
      · exact ⟨b, by simp [Node.parts], rfl, hb⟩
      · exact ⟨d, by simp [Node.parts], rfl, hd⟩
  | function ps b =>
      obtain ⟨params, locals, _, body, hps, hls, -, hb, rfl⟩ :=
        Node.analyze_function_eq_ok.mp analyzed
      obtain rfl := List.mem_singleton.mp hp
      refine ⟨b, List.mem_singleton_self b, ?_, hb⟩
      rw [Node.scope, Value.paramNames_eq_items hps, Value.localNames_eq_declared hls]
  | block b =>
      obtain ⟨locals, body, hls, hb, rfl⟩ := Node.analyze_block_eq_ok.mp analyzed
      obtain rfl := List.mem_singleton.mp hp
      refine ⟨b, List.mem_singleton_self b, ?_, hb⟩
      rw [Node.scope, Value.localNames_eq_declared hls]
  | sequence ss =>
      obtain ⟨vs, cs, hvs, each, rfl⟩ := Node.analyze_sequence_eq_ok.mp analyzed
      have items : (Node.sequence ss).parts = vs := Value.items_eq hvs
      rw [items]
      rcases cs with _ | ⟨c, _ | ⟨d, cs⟩⟩
      · cases hp
      · obtain ⟨s, _, -, rest, rfl⟩ := List.forall₂_cons_right_iff.mp each
        obtain rfl := List.forall₂_nil_right_iff.mp rest
        exact absurd hvs (kernel ss s rfl)
      · exact listed each hp
  | application f xs =>
      obtain ⟨f', vs, cs, hf, hvs, each, rfl⟩ := Node.analyze_application_eq_ok.mp analyzed
      have items : (Node.application f xs).parts = f :: vs := by
        rw [Node.parts, Value.items_eq hvs]
      rw [items]
      rcases List.mem_cons.mp hp with rfl | hp
      · exact ⟨f, List.mem_cons_self, rfl, hf⟩
      · obtain ⟨w, hw, scope, ok⟩ := listed each hp
        exact ⟨w, List.mem_cons_of_mem _ hw, scope, ok⟩

/-- A part of code comes from a tree that stands in the scope of the part. -/
theorem part_of_analyze {v : Value} {c : Code} {p : List (List Value) × Code}
    (ok : v.analyze = .ok c) (hp : p ∈ c.parts) :
    ∃ w, Stands v p.1 w ∧ w.analyze = .ok p.2 := by
  obtain ⟨n, stands, analyzed, kernel⟩ := kernel_of_analyze ok
  obtain ⟨w, hw, scope, ok⟩ := part_of_kernel analyzed kernel hp
  refine ⟨w, ?_, ok⟩
  rw [← scope]
  simpa using stands.part hw

/-- Texts that one scope declares are different, or analysis refuses it. -/
theorem Textual.names_localNames {v : Value} (h : Textual v) {names : List Value}
    (ok : v.localNames = .ok names) : Names names := by
  induction v using Value.parts_induction generalizing names with
  | leaf v leaf =>
      cases v with
      | node n => cases leaf
      | _ =>
          cases ok
          exact names_nil
  | node n ih =>
      cases n with
      | declaration x v =>
          cases ok
          exact ⟨by simp, h.self⟩
      | sequence ss =>
          obtain ⟨vs, hvs, all⟩ := Node.localNames_sequence_eq_ok.mp ok
          refine names_localNamesAll (fun s hs own hown => ?_) all
          have part : s ∈ (Node.sequence ss).parts := by rwa [Node.parts, Value.items_eq hvs]
          exact ih s part (h.of_node part) hown
      | _ =>
          cases ok
          exact names_nil

theorem Textual.names_scope {n : Node} {c : Code} (h : Textual (.node n))
    (analyzed : n.analyze = .ok c) : ∀ names ∈ n.scope, Names names := by
  cases n with
  | function ps b =>
      obtain ⟨params, locals, both, body, hps, hls, hboth, -, -⟩ :=
        Node.analyze_function_eq_ok.mp analyzed
      have texts : ∀ x ∈ params, ∃ s, x = .text s := by
        rw [Value.paramNames_eq_items hps]
        exact h.self
      have body : Textual b := h.of_node (List.mem_singleton_self b)
      have names := names_insertAll hboth texts (body.names_localNames hls)
      rw [insertAll_eq_append hboth, Value.paramNames_eq_items hps,
        Value.localNames_eq_declared hls] at names
      simpa [Node.scope] using names
  | block b =>
      obtain ⟨locals, body, hls, -, -⟩ := Node.analyze_block_eq_ok.mp analyzed
      have inner : Textual b := h.of_node (List.mem_singleton_self b)
      have names := inner.names_localNames hls
      rw [Value.localNames_eq_declared hls] at names
      simpa [Node.scope] using names
  | _ => simp [Node.scope]

/-- The scope that a part of code stands in has different texts for names. -/
theorem Textual.names_part {v : Value} {c : Code} {p : List (List Value) × Code} (h : Textual v)
    (ok : v.analyze = .ok c) (hp : p ∈ c.parts) : ∀ names ∈ p.1, Names names := by
  obtain ⟨n, stands, analyzed, kernel⟩ := kernel_of_analyze ok
  obtain ⟨w, -, scope, -⟩ := part_of_kernel analyzed kernel hp
  rw [← scope]
  exact Textual.names_scope (h.of_stands stands) analyzed

/-- A sequence that is not of one statement is code of its own kind, or nothing. -/
theorem analyze_sequence_kernel {ss : Value} {c : Code} (ok : (Node.sequence ss).analyze = .ok c)
    (kernel : ∀ s, ss.iterate ≠ .ok [s]) :
    c = .literal .undefined ∨ ∃ cs, c = .sequence cs := by
  obtain ⟨vs, cs, hvs, each, rfl⟩ := Node.analyze_sequence_eq_ok.mp ok
  rcases cs with _ | ⟨c, _ | ⟨d, cs⟩⟩
  · exact .inl rfl
  · obtain ⟨s, _, -, rest, rfl⟩ := List.forall₂_cons_right_iff.mp each
    obtain rfl := List.forall₂_nil_right_iff.mp rest
    exact absurd hvs (kernel s)
  · exact .inr ⟨_, rfl⟩

/-- Code that reads a name comes from a reference to the name. -/
theorem name_of_analyze {v : Value} {x : String} (ok : v.analyze = .ok (.name x)) :
    Stands v [] (.node (.name x)) := by
  obtain ⟨n, stands, analyzed, kernel⟩ := kernel_of_analyze ok
  cases n with
  | name y =>
      cases analyzed
      exact stands
  | sequence ss =>
      have own := analyze_sequence_kernel analyzed fun s => kernel ss s rfl
      rcases own with h | ⟨cs, h⟩ <;> cases h
  | _ => simp only [Node.analyze, except_bind_eq_ok, except_pure_eq_ok, Except.ok.injEq,
      reduceCtorEq, and_false, exists_false] at analyzed

theorem declaration_of_analyze {v x : Value} {c : Code} (ok : v.analyze = .ok (.declare x c)) :
    ∃ w, Stands v [] (.node (.declaration x w)) := by
  obtain ⟨n, stands, analyzed, kernel⟩ := kernel_of_analyze ok
  cases n with
  | declaration y w =>
      obtain ⟨c', -, same⟩ := Node.analyze_declaration_eq_ok.mp analyzed
      cases same
      exact ⟨w, stands⟩
  | sequence ss =>
      have own := analyze_sequence_kernel analyzed fun s => kernel ss s rfl
      rcases own with h | ⟨cs, h⟩ <;> cases h
  | _ => simp only [Node.analyze, except_bind_eq_ok, except_pure_eq_ok, Except.ok.injEq,
      reduceCtorEq, and_false, exists_false] at analyzed

theorem Code.every_part {P : Value → Prop} {c : Code} {p : List (List Value) × Code}
    (h : c.Every P) (hp : p ∈ c.parts) : p.2.Every P := by
  have listed {cs : List Code} (h : EveryCode P cs)
      (hp : p ∈ cs.map (([] : List (List Value)), ·)) : p.2.Every P := by
    obtain ⟨d, hd, rfl⟩ := List.mem_map.mp hp
    exact everyCode_iff.mp h d hd
  cases c with
  | literal _ | name _ => cases hp
  | returning c =>
      obtain rfl := List.mem_singleton.mp hp
      exact h
  | declare _ _ | enter _ _ =>
      obtain rfl := List.mem_singleton.mp hp
      exact h.2
  | close _ _ _ =>
      obtain rfl := List.mem_singleton.mp hp
      exact h.2.2
  | select _ _ _ =>
      simp only [parts, List.mem_cons, List.not_mem_nil, or_false] at hp
      rcases hp with rfl | rfl | rfl
      · exact h.1
      · exact h.2.1
      · exact h.2.2
  | sequence cs => exact listed h hp
  | apply f xs =>
      rcases List.mem_cons.mp hp with rfl | hp
      · exact h.1
      · exact listed h.2 hp

section Analyze

variable {P : Value → Prop} (texts : ∀ s, P (.text s)) (undefined : P .undefined)

include texts

theorem Value.every_items {v : Value} (h : v.Every P) : ∀ x ∈ v.items, x.Every P := by
  cases v with
  | list xs | tuple xs => exact everyItem_iff.mp h.2
  | text s =>
      intro x hx
      obtain ⟨c, -, rfl⟩ := List.mem_map.mp hx
      exact texts _
  | dict es =>
      intro x hx
      obtain ⟨e, inside, rfl⟩ := List.mem_map.mp hx
      exact (everyEntry_iff.mp h.2 e inside).1
  | _ => simp [items, iterate]

theorem Node.every_parts {n : Node} (h : n.Every P) : ∀ p ∈ n.parts, p.Every P := by
  cases n with
  | literal _ | name _ => simp [parts]
  | declaration _ _ | function _ _ => simpa [parts] using h.2
  | block _ | returning _ | conditional _ _ _ => simpa [parts, Every] using h
  | sequence _ => exact Value.every_items texts h
  | application _ _ => exact List.forall_mem_cons.mpr ⟨h.1, Value.every_items texts h.2⟩

theorem Value.every_declared {v : Value} (h : v.Every P) : ∀ x ∈ v.declared, x.Every P := by
  induction v using Value.parts_induction with
  | leaf v leaf => cases v <;> simp_all [Value.declared, Value.isNode]
  | node n ih =>
      cases n with
      | declaration x v => simpa [Value.declared, Node.declared] using h.2.1
      | sequence ss =>
          intro x hx
          rw [Value.declared, Node.declared_sequence, List.mem_flatMap] at hx
          obtain ⟨s, hs, hx⟩ := hx
          exact ih s hs (Node.every_parts texts h.2 s hs) x hx
      | _ => simp [Value.declared, Node.declared]

include undefined

/-- What every value in a tree has, every value in its code has. -/
theorem Value.every_analyze {v : Value} {c : Code} (h : v.Every P) (ok : v.analyze = .ok c) :
    c.Every P := by
  induction v using Value.parts_induction generalizing c with
  | leaf v leaf =>
      obtain ⟨n, rfl, -⟩ := Value.analyze_eq_ok.mp ok
      cases leaf
  | node n ih =>
      have part (p : Value) (hp : p ∈ n.parts) {d : Code} (ok : p.analyze = .ok d) : d.Every P :=
        ih p hp (Node.every_parts texts h.2 p hp) ok
      have listed {vs : List Value} {cs : List Code} (hvs : ∀ w ∈ vs, w ∈ n.parts)
          (each : List.Forall₂ (fun v c => v.analyze = .ok c) vs cs) : EveryCode P cs := by
        refine everyCode_iff.mpr fun d hd => ?_
        obtain ⟨w, hw, ok⟩ := exists_of_mem_analyzed each hd
        exact part w (hvs w hw) ok
      cases n with
      | literal v =>
          cases ok
          exact h.2
      | name x =>
          cases ok
          trivial
      | declaration x v =>
          obtain ⟨d, hd, rfl⟩ := Node.analyze_declaration_eq_ok.mp ok
          exact ⟨h.2.1, part v (by simp [Node.parts]) hd⟩
      | conditional a b d =>
          obtain ⟨a', b', d', ha, hb, hd, rfl⟩ := Node.analyze_conditional_eq_ok.mp ok
          exact ⟨part a (by simp [Node.parts]) ha, part b (by simp [Node.parts]) hb,
            part d (by simp [Node.parts]) hd⟩
      | function ps b =>
          obtain ⟨params, locals, _, body, hps, hls, -, hb, rfl⟩ :=
            Node.analyze_function_eq_ok.mp ok
          rw [Value.paramNames_eq_items hps, Value.localNames_eq_declared hls]
          exact ⟨everyItem_iff.mpr (every_items texts h.2.1),
            everyItem_iff.mpr (every_declared texts h.2.2), part b (by simp [Node.parts]) hb⟩
      | block b =>
          obtain ⟨locals, body, hls, hb, rfl⟩ := Node.analyze_block_eq_ok.mp ok
          rw [Value.localNames_eq_declared hls]
          exact ⟨everyItem_iff.mpr (every_declared texts h.2), part b (by simp [Node.parts]) hb⟩
      | returning v =>
          obtain ⟨d, hd, rfl⟩ := Node.analyze_returning_eq_ok.mp ok
          have inner := part v (by simp [Node.parts]) hd
          exact inner
      | sequence ss =>
          obtain ⟨vs, cs, hvs, each, rfl⟩ := Node.analyze_sequence_eq_ok.mp ok
          have all := listed (fun w hw => by simpa [Node.parts, Value.items_eq hvs] using hw) each
          rcases cs with _ | ⟨c, _ | ⟨d, cs⟩⟩
          · exact undefined
          · exact all.1
          · exact all
      | application f xs =>
          obtain ⟨f', vs, cs, hf, hvs, each, rfl⟩ := Node.analyze_application_eq_ok.mp ok
          refine ⟨part f (by simp [Node.parts]) hf, listed (fun w hw => ?_) each⟩
          exact List.mem_cons_of_mem _ (by rwa [Value.items_eq hvs])

end Analyze

end ConstLang
