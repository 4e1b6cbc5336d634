import ConstLang.Proofs.Tree.Occurrence

/-!
When the names of a scope can be found. They are looked up from the last to the first, and each
must differ from all that come after it; this is a property of the list of names alone, however
the sequences that declare them are nested.
-/

namespace ConstLang

/-- No name counts as the same as one before it. -/
abbrev Apart (names : List Value) : Prop := names.Pairwise fun x y => y.same x = false

theorem insertAll_eq_ok {xs into all : List Value} :
    insertAll xs into = .ok all ↔
      all = xs ++ into ∧ Apart xs ∧ ∀ x ∈ xs, ∀ y ∈ into, y.same x = false := by
  induction xs generalizing all with
  | nil => simp [insertAll, @eq_comm _ into]
  | cons x xs ih =>
      have clash (rest : List Value) :
          rest.any (·.same x) = false ↔ ∀ y ∈ rest, y.same x = false := by
        simp [List.any_eq_false]
      simp only [insertAll, except_bind_eq_ok, ih, List.pairwise_cons, List.forall_mem_cons]
      constructor
      · rintro ⟨rest, ⟨rfl, apart, others⟩, ok⟩
        cases found : (xs ++ into).any (·.same x) with
        | true => simp [found] at ok
        | false =>
            simp only [found, Bool.false_eq_true, if_false, Except.ok.injEq] at ok
            have first := List.forall_mem_append.mp ((clash _).mp found)
            exact ⟨ok.symm, ⟨first.1, apart⟩, first.2, others⟩
      · rintro ⟨rfl, ⟨first, apart⟩, first', others⟩
        refine ⟨xs ++ into, ⟨rfl, apart, others⟩, ?_⟩
        rw [(clash _).mpr (List.forall_mem_append.mpr ⟨first, first'⟩)]
        rfl

/-- The names of statements are found if those of each statement are, and all of them are apart. -/
theorem localNamesAll_eq_ok {ss names : List Value} :
    localNamesAll ss = .ok names ↔
      Apart names ∧ ∃ owns, List.Forall₂ (fun s own => s.localNames = .ok own) ss owns ∧
        names = owns.flatten := by
  induction ss generalizing names with
  | nil =>
      simp only [localNamesAll, Except.ok.injEq, List.forall₂_nil_left_iff, exists_eq_left,
        List.flatten_nil]
      constructor
      · rintro rfl
        exact ⟨.nil, rfl⟩
      · exact fun h => h.2.symm
  | cons s ss ih =>
      simp only [localNamesAll, except_bind_eq_ok, ih, insertAll_eq_ok,
        List.forall₂_cons_left_iff]
      constructor
      · rintro ⟨rest, ⟨apart, owns, each, rfl⟩, own, first, rfl, apart', across⟩
        refine ⟨List.pairwise_append.mpr ⟨apart', apart, across⟩, own :: owns, ?_, rfl⟩
        exact ⟨own, owns, first, each, rfl⟩
      · rintro ⟨apart, _, ⟨own, owns, first, each, rfl⟩, rfl⟩
        obtain ⟨apart', apart, across⟩ := List.pairwise_append.mp apart
        exact ⟨_, ⟨apart, owns, each, rfl⟩, own, first, rfl, apart', across⟩

theorem Value.apart_localNames {v : Value} {names : List Value} (h : v.localNames = .ok names) :
    Apart names := by
  cases v with
  | node n =>
      cases n with
      | declaration x w =>
          cases h
          exact List.pairwise_singleton _ x
      | sequence ss =>
          obtain ⟨vs, -, all⟩ := Node.localNames_sequence_eq_ok.mp h
          exact (localNamesAll_eq_ok.mp all).1
      | _ =>
          cases h
          exact .nil
  | _ =>
      cases h
      exact .nil

theorem localNamesAll_of_apart {ss : List Value}
    (each : ∀ s ∈ ss, Apart s.declared → s.localNames = .ok s.declared)
    (apart : Apart (declaredAll ss)) : localNamesAll ss = .ok (declaredAll ss) := by
  rw [localNamesAll_eq_ok]
  rw [declaredAll_eq] at apart ⊢
  refine ⟨apart, ss.map Value.declared, ?_, List.flatMap_def⟩
  rw [List.forall₂_map_right_iff, List.forall₂_same]
  intro s hs
  exact each s hs ((List.pairwise_flatMap.mp apart).1 s hs)

/-- The names that a tree with code declares are found if they are apart. -/
theorem Value.localNames_of_apart {v : Value} {c : Code} (analyzed : v.analyze = .ok c)
    (apart : Apart v.declared) : v.localNames = .ok v.declared := by
  induction v using Value.parts_induction generalizing c with
  | leaf v leaf =>
      obtain ⟨n, rfl, -⟩ := Value.analyze_eq_ok.mp analyzed
      cases leaf
  | node n ih =>
      cases n with
      | sequence ss =>
          obtain ⟨vs, cs, iterated, each, -⟩ := Node.analyze_sequence_eq_ok.mp analyzed
          rw [Value.declared, Node.declared_sequence_of_iterate iterated] at apart ⊢
          rw [Value.localNames, Node.localNames_sequence_of_iterate iterated]
          refine localNamesAll_of_apart (fun s hs apart => ?_) apart
          obtain ⟨c, -, hc⟩ := exists_code_of_mem each hs
          refine ih s ?_ hc apart
          rwa [Node.parts, Value.items_eq iterated]
      | _ => rfl

/-- Trees with code that declare the same names have these for their scope, or neither has any. -/
theorem localNames_iff_of_declared {v w : Value} {c d : Code} (hv : v.analyze = .ok c)
    (hw : w.analyze = .ok d) (same : v.declared = w.declared) (names : List Value) :
    v.localNames = .ok names ↔ w.localNames = .ok names := by
  have found {v : Value} {c : Code} (hv : v.analyze = .ok c) :
      v.localNames = .ok names ↔ names = v.declared ∧ Apart names := by
    constructor
    · intro h
      exact ⟨Value.localNames_eq_declared h, Value.apart_localNames h⟩
    · rintro ⟨rfl, apart⟩
      exact Value.localNames_of_apart hv apart
  rw [found hv, found hw, same]

end ConstLang
