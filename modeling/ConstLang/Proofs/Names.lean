import ConstLang.Memory
import ConstLang.Proofs.Outcome
import ConstLang.Tree.Scope

/-!
Lists of names. The names of a scope are texts and no two of them are equal; a frame
made of such names has its slots in the order in which they are given.
-/

namespace ConstLang

/-- Different texts. -/
def Names (vs : List Value) : Prop := vs.Nodup ∧ ∀ x ∈ vs, ∃ s, x = .text s

theorem names_nil : Names [] := ⟨List.nodup_nil, by simp⟩

theorem names_append {xs ys : List Value} :
    Names (xs ++ ys) ↔ Names xs ∧ Names ys ∧ ∀ x ∈ xs, x ∉ ys := by
  constructor
  · rintro ⟨nodup, texts⟩
    obtain ⟨hx, hy, apart⟩ := List.nodup_append.mp nodup
    refine ⟨⟨hx, fun x h => texts x (by simp [h])⟩, ⟨hy, fun x h => texts x (by simp [h])⟩, ?_⟩
    exact fun x h h' => apart x h x h' rfl
  · rintro ⟨hx, hy, apart⟩
    refine ⟨List.nodup_append.mpr ⟨hx.1, hy.1, ?_⟩, ?_⟩
    · rintro x h _ h' rfl
      exact apart x h h'
    · intro x h
      exact (List.mem_append.mp h).elim (hx.2 x) (hy.2 x)

theorem insertAll_eq_append {xs into all : List Value} (h : insertAll xs into = .ok all) :
    all = xs ++ into := by
  induction xs generalizing all with
  | nil => cases h; rfl
  | cons x xs ih =>
      simp only [insertAll, except_bind_eq_ok] at h
      obtain ⟨rest, hrest, h⟩ := h
      split at h
      · cases h
      · cases h
        rw [ih hrest, List.cons_append]

/-- Texts put in front of names are names again, since those that clash are refused. -/
theorem names_insertAll {xs into all : List Value} (h : insertAll xs into = .ok all)
    (texts : ∀ x ∈ xs, ∃ s, x = .text s) (hinto : Names into) : Names all := by
  induction xs generalizing all with
  | nil => cases h; exact hinto
  | cons x xs ih =>
      simp only [insertAll, except_bind_eq_ok] at h
      obtain ⟨rest, hrest, h⟩ := h
      have names : Names rest := ih hrest fun y hy => texts y (by simp [hy])
      obtain ⟨s, rfl⟩ := texts x (by simp)
      split at h
      · cases h
      · rename_i apart
        cases h
        refine ⟨List.nodup_cons.mpr ⟨fun hmem => apart ?_, names.1⟩, ?_⟩
        · exact List.any_eq_true.mpr ⟨_, hmem, (Value.same_text _ s).mpr rfl⟩
        · exact List.forall_mem_cons.mpr ⟨⟨s, rfl⟩, names.2⟩

theorem names_localNamesAll {ss names : List Value}
    (h : ∀ s ∈ ss, ∀ own, s.localNames = .ok own → Names own) (hn : localNamesAll ss = .ok names) :
    Names names := by
  induction ss generalizing names with
  | nil => cases hn; exact names_nil
  | cons s ss ih =>
      simp only [localNamesAll, except_bind_eq_ok] at hn
      obtain ⟨rest, hrest, own, hown, hall⟩ := hn
      have names : Names rest := ih (fun t ht => h t (by simp [ht])) hrest
      exact names_insertAll hall (h s (by simp) own hown).2 names

namespace Frame

variable {slots : List (Value × Option Value)}

theorem get?_eq_none {x : String} (h : .text x ∉ slots.map (·.1)) :
    (⟨slots⟩ : Frame).get? (.text x) = none := by
  simp only [get?, Option.map_eq_none_iff, List.find?_eq_none, Value.same_text]
  intro s hs e
  exact h (e ▸ List.mem_map_of_mem hs)

theorem get?_text_eq_none {f : Frame} {x : String} :
    f.get? (.text x) = none ↔ .text x ∉ f.names := by
  simp only [get?, Option.map_eq_none_iff, List.find?_eq_none, Value.same_text, names,
    List.mem_map, not_exists, not_and]

theorem mem_names_put {f : Frame} {x : String} {name : Value} {slot : Option Value} :
    .text x ∈ (f.put name slot).names ↔ .text x ∈ f.names ∨ name = .text x := by
  by_cases there : (f.get? name).isSome
  · rw [names_put f name slot there]
    refine ⟨.inl, fun h => h.elim id ?_⟩
    rintro rfl
    refine Classical.byContradiction fun absent => ?_
    rw [get?_text_eq_none.mpr absent] at there
    cases there
  · simp [put, there, names, eq_comm]

theorem mem_names_foldl_put {f : Frame} {x : String} :
    .text x ∈ (slots.foldl (fun f s => f.put s.1 s.2) f).names ↔
      .text x ∈ f.names ∨ .text x ∈ slots.map (·.1) := by
  induction slots generalizing f with
  | nil => simp
  | cons s rest ih => simp only [List.foldl_cons, ih, mem_names_put, List.map_cons,
      List.mem_cons, or_assoc, eq_comm]

/-- A frame has the names of the slots it is made of. -/
theorem mem_names_ofSlots {f : Frame} {x : String} (h : ofSlots slots = .ok f) :
    .text x ∈ f.names ↔ .text x ∈ slots.map (·.1) := by
  unfold ofSlots at h
  split at h
  · cases h
    have none : .text x ∉ empty.names := by simp [empty, names]
    rw [mem_names_foldl_put, or_iff_right none]
  · cases h

/-- Where the names are different, a slot of the list is the slot of its name. -/
theorem get?_of_mem (h : Names (slots.map (·.1))) {x : Value} {content : Option Value}
    (hmem : (x, content) ∈ slots) : (⟨slots⟩ : Frame).get? x = some content := by
  induction slots with
  | nil => simp at hmem
  | cons s rest ih =>
      obtain ⟨y, hy⟩ := h.2 x (List.mem_map_of_mem hmem)
      subst hy
      rcases List.mem_cons.mp hmem with rfl | hmem
      · simp [get?, (Value.same_text (.text y) y).mpr rfl]
      · obtain ⟨absent, nodup⟩ := List.nodup_cons.mp h.1
        have other : s.1.same (.text y) = false := by
          rw [Bool.eq_false_iff, Ne, Value.same_text]
          exact fun e => absent (List.mem_map.mpr ⟨_, hmem, e.symm⟩)
        have found := ih ⟨nodup, fun z hz => h.2 z (List.mem_cons_of_mem _ hz)⟩ hmem
        simpa [get?, List.find?_cons, other] using found

theorem foldl_put (acc : List (Value × Option Value)) (h : Names ((acc ++ slots).map (·.1))) :
    slots.foldl (fun (f : Frame) s => f.put s.1 s.2) ⟨acc⟩ = ⟨acc ++ slots⟩ := by
  induction slots generalizing acc with
  | nil => simp
  | cons s rest ih =>
      have apart : s.1 ∉ acc.map (·.1) := by
        intro hmem
        rw [List.map_append, List.map_cons] at h
        exact (names_append.mp h).2.2 s.1 hmem List.mem_cons_self
      obtain ⟨x, hx⟩ := h.2 s.1 (by simp)
      have added : (⟨acc⟩ : Frame).put s.1 s.2 = ⟨acc ++ [s]⟩ := by
        rw [hx] at apart
        simp only [put, hx, get?_eq_none apart, Option.isSome_none, Bool.false_eq_true, if_false]
        rw [← hx]
      rw [List.foldl_cons, added, ih (acc ++ [s]) (by simpa using h)]
      simp

/-- A frame of different names keeps its slots as they are given. -/
theorem ofSlots_eq_ok (h : Names (slots.map (·.1))) : ofSlots slots = .ok ⟨slots⟩ := by
  have hashable : slots.all (·.1.hashable) = true := by
    rw [List.all_eq_true]
    intro s hs
    obtain ⟨x, hx⟩ := h.2 s.1 (List.mem_map_of_mem hs)
    simp [hx]
  have folded := foldl_put [] h
  simp only [ofSlots, hashable, if_true, empty, folded, List.nil_append]

end Frame
end ConstLang
