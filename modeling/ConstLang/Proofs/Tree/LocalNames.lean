import Mathlib.Data.List.Duplicate
import ConstLang.Proofs.Tree.Occurrence

/-!
How the names of a scope are found. A statement declares what is reached from it through sequences
alone. The names are gathered from the last to the first, and those of each nested sequence are
checked before they are put in front of the rest; all of this comes to one check of the whole list.
-/

namespace ConstLang

/-- A tree is reached from the whole through sequences only. -/
inductive Directly (whole : Value) : Value → Prop
  | whole : Directly whole whole
  | statement {ss s : Value} :
      Directly whole (.node (.sequence ss)) → s ∈ ss.items → Directly whole s

theorem Directly.of_statement {ss s v : Value} (h : Directly s v) (hs : s ∈ ss.items) :
    Directly (.node (.sequence ss)) v := by
  induction h with
  | whole => exact .statement .whole hs
  | statement _ hv ih => exact .statement ih hv

/-- What is reached from a sequence is the sequence or is reached from one of its statements. -/
theorem directly_sequence {ss v : Value} :
    Directly (.node (.sequence ss)) v ↔
      v = .node (.sequence ss) ∨ ∃ s ∈ ss.items, Directly s v := by
  constructor
  · intro h
    induction h with
    | whole => exact .inl rfl
    | @statement inner s _ hs ih =>
        rcases ih with same | ⟨t, ht, reached⟩
        · cases same
          exact .inr ⟨s, hs, .whole⟩
        · exact .inr ⟨t, ht, .statement reached hs⟩
  · rintro (rfl | ⟨s, hs, reached⟩)
    · exact .whole
    · exact reached.of_statement hs

/-- Nothing else is reached from a tree that is no sequence. -/
theorem directly_iff_eq {whole v : Value} (h : ∀ ss, whole ≠ .node (.sequence ss)) :
    Directly whole v ↔ v = whole := by
  constructor
  · intro reached
    induction reached with
    | whole => rfl
    | statement _ _ ih => exact absurd ih.symm (h _)
  · rintro rfl
    exact .whole

theorem Directly.stands {whole v : Value} (h : Directly whole v) :
    ∃ scopes, Stands whole scopes v := by
  induction h with
  | whole => exact ⟨[], .whole⟩
  | statement _ hs ih =>
      obtain ⟨scopes, stands⟩ := ih
      exact ⟨_, stands.part hs⟩

/-- The names that a tree declares are those of the declarations reached from it. -/
theorem Value.mem_declared_iff {v x : Value} :
    x ∈ v.declared ↔ ∃ w, Directly v (.node (.declaration x w)) := by
  induction v using Value.parts_induction with
  | leaf v leaf =>
      rw [exists_congr fun w => directly_iff_eq (by rintro ss rfl; cases leaf)]
      cases v <;> simp_all [Value.declared, Value.isNode]
  | node n ih =>
      cases n with
      | sequence ss =>
          simp only [Value.declared, Node.declared_sequence, List.mem_flatMap, directly_sequence,
            Value.node.injEq, reduceCtorEq, false_or]
          constructor
          · rintro ⟨s, hs, hx⟩
            obtain ⟨w, reached⟩ := (ih s hs).mp hx
            exact ⟨w, s, hs, reached⟩
          · rintro ⟨w, s, hs, reached⟩
            exact ⟨s, hs, (ih s hs).mpr ⟨w, reached⟩⟩
      | _ =>
          rw [exists_congr fun w => directly_iff_eq (by simp)]
          simp [Value.declared, Node.declared]

theorem insertAll_cases {xs : List Value} (texts : ∀ x ∈ xs, ∃ s, x = .text s)
    (into : List Value) :
    insertAll xs into = .ok (xs ++ into) ∧ xs.Nodup ∧ (∀ x ∈ xs, x ∉ into) ∨
      ∃ x, insertAll xs into = .error (.duplicate x) ∧ (xs ++ into).Duplicate x := by
  induction xs with
  | nil => exact .inl ⟨rfl, List.nodup_nil, by simp⟩
  | cons x xs ih =>
      rcases ih fun y hy => texts y (List.mem_cons_of_mem _ hy) with
        ⟨ok, nodup, apart⟩ | ⟨y, refused, twice⟩
      · obtain ⟨s, rfl⟩ := texts x List.mem_cons_self
        have clash : (xs ++ into).any (·.same (.text s)) ↔ .text s ∈ xs ++ into := by
          simp only [List.any_eq_true, Value.same_text, exists_eq_right]
        by_cases mem : .text s ∈ xs ++ into
        · refine .inr ⟨.text s, ?_, mem.duplicate_cons_self⟩
          simp only [insertAll, ok, bind, Except.bind, clash.mpr mem, if_true]
        · refine .inl ⟨?_, ?_, ?_⟩
          · simp only [insertAll, ok, bind, Except.bind, clash, mem, if_false, List.cons_append]
          · exact List.nodup_cons.mpr ⟨fun h => mem (List.mem_append_left _ h), nodup⟩
          · exact List.forall_mem_cons.mpr ⟨fun h => mem (List.mem_append_right _ h), apart⟩
      · refine .inr ⟨y, ?_, twice.duplicate_cons x⟩
        simp only [insertAll, refused, bind, Except.bind]

theorem localNamesAll_cases {ss : List Value}
    (texts : ∀ s ∈ ss, ∀ x ∈ s.declared, ∃ t, x = .text t)
    (each : ∀ s ∈ ss, s.localNames = .ok s.declared ∧ s.declared.Nodup ∨
      ∃ x, s.localNames = .error (.duplicate x) ∧ s.declared.Duplicate x) :
    localNamesAll ss = .ok (declaredAll ss) ∧ (declaredAll ss).Nodup ∨
      ∃ x, localNamesAll ss = .error (.duplicate x) ∧ (declaredAll ss).Duplicate x := by
  induction ss with
  | nil => exact .inl ⟨rfl, List.nodup_nil⟩
  | cons s ss ih =>
      simp only [declaredAll]
      rcases ih (fun t ht => texts t (List.mem_cons_of_mem _ ht))
          (fun t ht => each t (List.mem_cons_of_mem _ ht)) with ⟨rest, nodup⟩ | ⟨x, refused, twice⟩
      · rcases each s List.mem_cons_self with ⟨own, nodup'⟩ | ⟨x, refused, twice⟩
        · rcases insertAll_cases (texts s List.mem_cons_self) (declaredAll ss) with
            ⟨all, -, apart⟩ | ⟨x, refused, twice⟩
          · refine .inl ⟨?_, List.nodup_append.mpr ⟨nodup', nodup, ?_⟩⟩
            · simp only [localNamesAll, rest, own, bind, Except.bind, all]
            · rintro x hx _ hy rfl
              exact apart x hx hy
          · refine .inr ⟨x, ?_, twice⟩
            simp only [localNamesAll, rest, own, bind, Except.bind, refused]
        · refine .inr ⟨x, ?_, twice.mono_sublist (List.sublist_append_left _ _)⟩
          simp only [localNamesAll, rest, refused, bind, Except.bind]
      · refine .inr ⟨x, ?_, twice.mono_sublist (List.sublist_append_right _ _)⟩
        simp only [localNamesAll, refused, bind, Except.bind]

/-- The names of a scope are found unless one of them is declared twice. -/
theorem Value.localNames_cases {v : Value}
    (texts : ∀ x w, Directly v (.node (.declaration x w)) → ∃ s, x = .text s)
    (collections : ∀ ss, Directly v (.node (.sequence ss)) → ∃ xs, ss.iterate = .ok xs) :
    v.localNames = .ok v.declared ∧ v.declared.Nodup ∨
      ∃ x, v.localNames = .error (.duplicate x) ∧ v.declared.Duplicate x := by
  induction v using Value.parts_induction with
  | leaf v leaf =>
      refine .inl ?_
      cases v <;> simp_all [Value.localNames, Value.declared, Value.isNode]
  | node n ih =>
      cases n with
      | declaration x w => exact .inl ⟨rfl, by simp [Value.declared, Node.declared]⟩
      | sequence ss =>
          have texts' (s : Value) (hs : s ∈ ss.items) :
              ∀ x w, Directly s (.node (.declaration x w)) → ∃ t, x = .text t :=
            fun x w reached => texts x w (reached.of_statement hs)
          have each (s : Value) (hs : s ∈ ss.items) :=
            ih s hs (texts' s hs) fun inner reached => collections inner (reached.of_statement hs)
          obtain ⟨xs, iterated⟩ := collections _ .whole
          rw [Value.items_eq iterated] at texts' each
          rw [Value.localNames, Value.declared, Node.localNames_sequence_of_iterate iterated,
            Node.declared_sequence_of_iterate iterated]
          refine localNamesAll_cases (fun s hs x hx => ?_) each
          obtain ⟨w, reached⟩ := Value.mem_declared_iff.mp hx
          exact texts' s hs x w reached
      | _ => exact .inl ⟨rfl, by simp [Value.declared, Node.declared]⟩

/-- The names that a node declares in its own scope, reached through sequences and nothing else, are
found in source order exactly if no two of them are the same. Otherwise the search is refused for
one that stands there at least twice. -/
theorem local_names_are_exact {n : Node}
    (texts : ∀ x w, Directly (.node n) (.node (.declaration x w)) → ∃ s, x = .text s)
    (collections : ∀ ss, Directly (.node n) (.node (.sequence ss)) → ∃ xs, ss.iterate = .ok xs) :
    (∀ x, x ∈ n.declared ↔ ∃ w, Directly (.node n) (.node (.declaration x w))) ∧
      (n.declared.Nodup → n.localNames = .ok n.declared) ∧
      (¬ n.declared.Nodup →
        ∃ s : String, n.localNames = .error (.duplicate (.text s)) ∧
          n.declared.Duplicate (.text s)) := by
  have cases : n.localNames = .ok n.declared ∧ n.declared.Nodup ∨
      ∃ x, n.localNames = .error (.duplicate x) ∧ n.declared.Duplicate x :=
    Value.localNames_cases texts collections
  have reaches (x : Value) : x ∈ n.declared ↔ ∃ w, Directly (.node n) (.node (.declaration x w)) :=
    Value.mem_declared_iff (v := .node n)
  refine ⟨reaches, fun nodup => ?_, fun repeated => ?_⟩
  · rcases cases with ⟨ok, -⟩ | ⟨x, -, twice⟩
    · exact ok
    · exact absurd nodup twice.not_nodup
  · rcases cases with ⟨-, nodup⟩ | ⟨x, refused, twice⟩
    · exact absurd nodup repeated
    · obtain ⟨w, reached⟩ := (reaches x).mp twice.mem
      obtain ⟨s, rfl⟩ := texts x w reached
      exact ⟨s, refused, twice⟩

namespace Sample

/-- Declares `a`, then the given name in a nested sequence, then `c`; the block in between has
names of its own. -/
def layered (inner : String) : Node :=
  .sequence (.tuple
    [.node (.declaration (.text "a") (.node (.literal .null))),
      .node (.sequence (.tuple
        [.node (.block (.node (.declaration (.text "a") (.node (.literal .null))))),
          .node (.declaration (.text inner) (.node (.literal .null)))])),
      .node (.declaration (.text "c") (.node (.literal .null)))])

theorem directly_layered {inner : String} {v : Value}
    (h : Directly (.node (layered inner)) v) :
    (∃ ss, v = .node (.sequence (.tuple ss))) ∨ (∃ b, v = .node (.block b)) ∨
      ∃ s w, v = .node (.declaration (.text s) w) := by
  simp only [layered, directly_sequence, Value.items, Value.iterate, List.mem_cons,
    List.not_mem_nil, or_false, exists_eq_or_imp, exists_eq_left] at h
  simp only [directly_iff_eq, ne_eq, Value.node.injEq, reduceCtorEq, not_false_eq_true,
    implies_true] at h
  rcases h with rfl | rfl | (rfl | rfl | rfl) | rfl <;> simp

end Sample

theorem local_names_of_layered_sequences :
    (∀ inner : String,
      (∀ x w, Directly (.node (Sample.layered inner)) (.node (.declaration x w)) →
        ∃ s, x = .text s) ∧
      ∀ ss, Directly (.node (Sample.layered inner)) (.node (.sequence ss)) →
        ∃ xs, ss.iterate = .ok xs) ∧
    (Sample.layered "b").localNames = .ok [.text "a", .text "b", .text "c"] ∧
    ∃ s : String, (Sample.layered "c").localNames = .error (.duplicate (.text s)) := by
  have texts (inner : String) (x w : Value)
      (h : Directly (.node (Sample.layered inner)) (.node (.declaration x w))) :
      ∃ s, x = .text s := by
    simpa using Sample.directly_layered h
  have collections (inner : String) (ss : Value)
      (h : Directly (.node (Sample.layered inner)) (.node (.sequence ss))) :
      ∃ xs, ss.iterate = .ok xs := by
    obtain ⟨xs, rfl⟩ : ∃ xs, ss = .tuple xs := by simpa using Sample.directly_layered h
    exact ⟨xs, rfl⟩
  have declared (inner : String) :
      (Sample.layered inner).declared = [.text "a", .text inner, .text "c"] := rfl
  refine ⟨fun inner => ⟨texts inner, collections inner⟩, ?_, ?_⟩
  · rw [(local_names_are_exact (texts "b") (collections "b")).2.1 (by simp [declared]), declared]
  · obtain ⟨s, refused, -⟩ :=
      (local_names_are_exact (texts "c") (collections "c")).2.2 (by simp [declared])
    exact ⟨s, refused⟩

end ConstLang
