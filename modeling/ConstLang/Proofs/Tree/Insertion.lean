import Mathlib.Data.Nat.Find
import ConstLang.Proofs.Tree.Declaration

/-!
Which name is reported when names cannot be put in front of others. The names are gone through from
the last to the first, and the first clash on this way is reported. So it is the one at the greatest
position, whatever clashes stand before it.
-/

namespace ConstLang

/-- The name at a position is the same as one that follows it, or as one that is there already. -/
def Clash (xs into : List Value) (i : Nat) : Prop :=
  ∃ x, xs[i]? = some x ∧ ∃ y ∈ xs.drop (i + 1) ++ into, y.same x = true

/-- The names are apart from each other and from those that are there. -/
def Insertable (xs into : List Value) : Prop :=
  Apart xs ∧ ∀ x ∈ xs, ∀ y ∈ into, y.same x = false

structure LastClash (xs into : List Value) (i : Nat) : Prop where
  clash : Clash xs into i
  last : ∀ j, Clash xs into j → j ≤ i

variable {x : Value} {xs into : List Value} {i : Nat}

theorem clash_zero : Clash (x :: xs) into 0 ↔ ∃ y ∈ xs ++ into, y.same x = true := by
  simp [Clash]

theorem clash_succ : Clash (x :: xs) into (i + 1) ↔ Clash xs into i := by
  simp [Clash]

theorem Clash.lt_length (h : Clash xs into i) : i < xs.length := by
  obtain ⟨x, found, -⟩ := h
  exact (List.getElem?_eq_some_iff.mp found).1

theorem insertable_iff_forall_not_clash : Insertable xs into ↔ ∀ i, ¬ Clash xs into i := by
  induction xs with
  | nil => simp [Insertable, Clash]
  | cons x xs ih =>
      have first : ¬ Clash (x :: xs) into 0 ↔
          (∀ y ∈ xs, y.same x = false) ∧ ∀ y ∈ into, y.same x = false := by
        simp only [clash_zero, not_exists, not_and, Bool.not_eq_true, List.forall_mem_append]
      have others : (∀ i, ¬ Clash (x :: xs) into (i + 1)) ↔ Insertable xs into := by
        simp only [clash_succ, ih]
      rw [← Nat.and_forall_add_one, first, others]
      simp only [Insertable, List.pairwise_cons, List.forall_mem_cons]
      tauto

theorem exists_lastClash (h : ¬ Insertable xs into) : ∃ i, LastClash xs into i := by
  classical
  obtain ⟨i, clash⟩ : ∃ i, Clash xs into i := by
    simpa only [insertable_iff_forall_not_clash, not_forall, not_not] using h
  refine ⟨Nat.findGreatest (Clash xs into) xs.length, ?_, fun j other => ?_⟩
  · exact Nat.findGreatest_spec (Nat.le_of_lt clash.lt_length) clash
  · exact Nat.le_findGreatest (Nat.le_of_lt other.lt_length) other

/-- The names behind the first one have the same clashes, one position before. -/
theorem LastClash.tail (h : LastClash (x :: xs) into (i + 1)) : LastClash xs into i := by
  refine ⟨clash_succ.mp h.clash, fun j other => ?_⟩
  exact Nat.le_of_succ_le_succ (h.last (j + 1) (clash_succ.mpr other))

theorem LastClash.insertable_tail (h : LastClash (x :: xs) into 0) : Insertable xs into := by
  refine insertable_iff_forall_not_clash.mpr fun j other => ?_
  exact Nat.not_succ_le_zero j (h.last (j + 1) (clash_succ.mpr other))

theorem insertAll_of_lastClash (h : LastClash xs into i) :
    ∃ x, xs[i]? = some x ∧ insertAll xs into = .error (.duplicate x) := by
  induction xs generalizing i with
  | nil => exact absurd h.clash.lt_length (Nat.not_lt_zero i)
  | cons x xs ih =>
      cases i with
      | zero =>
          have rest : insertAll xs into = .ok (xs ++ into) :=
            insertAll_eq_ok.mpr ⟨rfl, h.insertable_tail⟩
          have taken : (xs ++ into).any (·.same x) = true :=
            List.any_eq_true.mpr (clash_zero.mp h.clash)
          refine ⟨x, rfl, ?_⟩
          simp only [insertAll, rest, bind, Except.bind, taken, if_true]
      | succ i =>
          obtain ⟨y, found, refused⟩ := ih h.tail
          refine ⟨y, found, ?_⟩
          simp only [insertAll, refused, bind, Except.bind]

/-- Texts are apart if they are different. -/
theorem insertable_texts {names there : List String} :
    Insertable (names.map .text) (there.map .text) ↔ names.Nodup ∧ names.Disjoint there := by
  have different (x y : String) : (Value.text y).same (.text x) = false ↔ x ≠ y := by
    rw [Bool.eq_false_iff, ne_eq, Value.same_text, Value.text.injEq, ne_comm]
  simp only [Insertable, Apart, List.pairwise_map, List.forall_mem_map, different,
    List.disjoint_iff_ne, List.Nodup]

theorem clash_texts {names there : List String} :
    Clash (names.map .text) (there.map .text) i ↔
      ∃ x, names[i]? = some x ∧ (x ∈ names.drop (i + 1) ∨ x ∈ there) := by
  simp [Clash, Value.same_text, ← List.map_drop]

/-- Names that are different, and different from those that are there, stand in front of them
afterwards, in their order. Otherwise none is put in front, and the refusal tells the last one that
comes again behind it or is there already. -/
theorem insertion_names_last_clash (xs into : List Value) :
    (Insertable xs into → insertAll xs into = .ok (xs ++ into)) ∧
      (¬ Insertable xs into → ∃ i x, LastClash xs into i ∧ xs[i]? = some x ∧
        insertAll xs into = .error (.duplicate x) ∧
        ∀ text, x.label = .ok text → (Fault.duplicate x).report =
          ⟨.duplicate, some ("Multiple declarations of: " ++ text)⟩) ∧
      ∀ names there : List String,
        (Insertable (names.map .text) (there.map .text) ↔
          names.Nodup ∧ names.Disjoint there) ∧
        ∀ i, Clash (names.map .text) (there.map .text) i ↔
          ∃ x, names[i]? = some x ∧ (x ∈ names.drop (i + 1) ∨ x ∈ there) := by
  refine ⟨fun fits => insertAll_eq_ok.mpr ⟨rfl, fits⟩, fun clashes => ?_, fun names there => ?_⟩
  · obtain ⟨i, last⟩ := exists_lastClash clashes
    obtain ⟨x, found, refused⟩ := insertAll_of_lastClash last
    refine ⟨i, x, last, found, refused, fun text shown => ?_⟩
    simp only [Fault.report, Fault.message, shown, bind, Except.bind, pure, Except.pure, Fault.kind]
  · exact ⟨insertable_texts, fun i => clash_texts⟩

namespace Sample

/-- The first name comes again as the third, and the last one is there already. -/
def clashing : List Value := ["a", "b", "a", "c"].map .text

def present : List Value := ["c", "d", "d"].map .text

end Sample

theorem insertion_names_later_of_two_clashes :
    Insertable [.text "a", .text "b"] Sample.present ∧
      insertAll [.text "a", .text "b"] Sample.present =
        .ok [.text "a", .text "b", .text "c", .text "d", .text "d"] ∧
      ¬ Insertable Sample.clashing Sample.present ∧ Clash Sample.clashing Sample.present 0 ∧
      ∃ e, insertAll Sample.clashing Sample.present = .error e ∧
        e.report = ⟨.duplicate, some "Multiple declarations of: c"⟩ := by
  have fits : Insertable (["a", "b"].map .text) (["c", "d", "d"].map .text) :=
    insertable_texts.mpr (by simp)
  have unfit : ¬ Insertable Sample.clashing Sample.present :=
    fun h => absurd (insertable_texts.mp h).1 (by decide)
  refine ⟨fits, (insertion_names_last_clash _ _).1 fits, unfit, ?_, ?_⟩
  · exact clash_texts.mpr ⟨"a", rfl, by simp⟩
  obtain ⟨i, x, last, found, refused, report⟩ := (insertion_names_last_clash _ _).2.1 unfit
  have below : i < 4 := last.clash.lt_length
  have above : 3 ≤ i := last.last 3 (clash_texts.mpr ⟨"c", rfl, by simp⟩)
  obtain rfl : i = 3 := by omega
  cases found
  exact ⟨_, refused, report "c" rfl⟩

end ConstLang
