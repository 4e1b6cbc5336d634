import Mathlib.Data.List.Induction
import ConstLang.Environment
import ConstLang.Proofs.Assignment

/-!
Frames made of names that may repeat. The slots are put into a frame one after the other, and a name
that is there keeps its place and loses its content. So the first occurrence of a name decides where
its slot stands, and the last one what the slot holds.
-/

namespace ConstLang

/-- The value is the one beside the last occurrence of the name. -/
def LastWith (pairs : List (String × Value)) (x : String) (v : Value) : Prop :=
  ∃ before after, pairs = before ++ (x, v) :: after ∧ x ∉ after.map (·.1)

theorem exists_lastWith {pairs : List (String × Value)} {x : String}
    (h : x ∈ pairs.map (·.1)) : ∃ v, LastWith pairs x v := by
  induction pairs with
  | nil => cases h
  | cons p pairs ih =>
      by_cases again : x ∈ pairs.map (·.1)
      · obtain ⟨v, before, after, rfl, last⟩ := ih again
        exact ⟨v, p :: before, after, rfl, last⟩
      · obtain rfl : x = p.1 := (List.mem_cons.mp h).resolve_right again
        exact ⟨p.2, [], pairs, rfl, again⟩

/-- A name that the list has already adds nothing to the different ones. -/
theorem eraseDups_concat (xs : List String) (x : String) :
    (xs ++ [x]).eraseDups = if x ∈ xs then xs.eraseDups else xs.eraseDups ++ [x] := by
  rw [List.eraseDups_append]
  by_cases there : x ∈ xs <;> simp [List.removeAll, there, List.eraseDups_cons]

theorem map_fst_zip_take {names : List String} {values : List Value} :
    (names.zip values).map (·.1) = names.take (min names.length values.length) := by
  rw [List.zip_eq_zip_take_min]
  exact List.map_fst_zip (by simp)

namespace Frame

/-- The frame with the slots of pairs put into it, from the first to the last. -/
def putAll (f : Frame) (pairs : List (String × Value)) : Frame :=
  pairs.foldl (fun f p => f.put (.text p.1) p.2.slot) f

variable {f : Frame} {pairs : List (String × Value)} {x : String}

theorem putAll_cons (f : Frame) (p : String × Value) (pairs : List (String × Value)) :
    f.putAll (p :: pairs) = (f.put (.text p.1) p.2.slot).putAll pairs := rfl

theorem putAll_append (f : Frame) (before after : List (String × Value)) :
    f.putAll (before ++ after) = (f.putAll before).putAll after := List.foldl_append

theorem ofValues_texts (names : List String) (values : List Value) :
    ofValues (names.map .text) values = .ok (empty.putAll (names.zip values)) := by
  have slots : (names.map Value.text).zip (values.map Value.slot) =
      (names.zip values).map fun p => (.text p.1, p.2.slot) := List.zip_map
  rw [ofValues, slots, ofSlots, if_pos (by simp), List.foldl_map]
  rfl

/-- A name that is there keeps its place, and another one comes last. -/
theorem names_put_text (f : Frame) (x : String) (slot : Option Value) :
    (f.put (.text x) slot).names =
      if (f.get? (.text x)).isSome then f.names else f.names ++ [.text x] := by
  split
  · rename_i there
    exact names_put f _ slot there
  · rename_i absent
    simp [put, absent, names]

theorem names_putAll (pairs : List (String × Value)) :
    (empty.putAll pairs).names = (pairs.map (·.1)).eraseDups.map .text := by
  induction pairs using List.reverseRecOn with
  | nil => rfl
  | append_singleton pairs p ih =>
      have there : ((empty.putAll pairs).get? (.text p.1)).isSome ↔ p.1 ∈ pairs.map (·.1) := by
        rw [← Option.ne_none_iff_isSome, ne_eq, get?_text_eq_none, not_not, ih,
          List.mem_map_of_injective fun x y => Value.text.inj, List.mem_eraseDups]
      have step : empty.putAll (pairs ++ [p]) = (empty.putAll pairs).put (.text p.1) p.2.slot :=
        putAll_append ..
      rw [step, names_put_text, ih, List.map_append, List.map_singleton, eraseDups_concat]
      by_cases again : p.1 ∈ pairs.map (·.1)
      · rw [if_pos (there.mpr again), if_pos again]
      · rw [if_neg (mt there.mp again), if_neg again, List.map_append, List.map_singleton]

theorem get?_putAll_of_not_mem (h : x ∉ pairs.map (·.1)) :
    (f.putAll pairs).get? (.text x) = f.get? (.text x) := by
  induction pairs generalizing f with
  | nil => rfl
  | cons p pairs ih =>
      rw [List.map_cons, List.mem_cons, not_or] at h
      rw [putAll_cons, ih h.2, get?_put, if_neg h.1]

/-- What is put last stays. -/
theorem get?_putAll_of_lastWith {v : Value} (h : LastWith pairs x v) :
    (f.putAll pairs).get? (.text x) = some v.slot := by
  obtain ⟨before, after, rfl, last⟩ := h
  rw [putAll_append, putAll_cons, get?_putAll_of_not_mem last, get?_put, if_pos rfl]

end Frame

namespace Memory

variable {β : Type} (m : Memory β) (f : Frame) (base : Env) (x : String)

/-- A search in an environment with a new frame asks that frame first. -/
theorem lookup_push :
    (m.push f base).2.lookup (.text x) (m.push f base).1 =
      match f.get? (.text x) with
      | some (some v) => .ok v
      | some none => .error (.unassigned (.text x))
      | none => (m.push f base).2.lookup (.text x) base := by
  have innermost : (m.push f base).2.frame m.frames.size = f := by simp [frame_push]
  rw [lookup_text, lookup_text]
  change lookupIn _ _ (m.frames.size :: base) = _
  rcases held : f.get? (.text x) with _ | _ | v
  all_goals simp only [lookupIn, innermost, held]

/-- A new frame changes no search in an environment that was there before. -/
theorem lookup_push_inside (inside : ∀ i ∈ base, i < m.frames.size) :
    (m.push f base).2.lookup (.text x) base = m.lookup (.text x) base := by
  rw [lookup_text, lookup_text]
  exact (grows_push (fun _ _ => False) m f base).lookupIn_eq (fun _ _ _ h => h) _ inside

end Memory

/-- A frame can be made of any names and values, of which as many count as the shorter list has. It
has the different names among them, each where it occurs first, with what the value at its last
occurrence puts there. In an environment with such a frame in front, the last occurrence of a name
decides what a search finds; names that do not occur are searched behind the frame, where everything
is as it was. -/
theorem last_occurrence_counts {β : Type} (names : List String) (values : List Value) :
    ∃ f : Frame, Frame.ofValues (names.map .text) values = .ok f ∧
      f.names = (names.take (min names.length values.length)).eraseDups.map .text ∧
      (∀ x ∈ names.take (min names.length values.length),
        ∃ v, LastWith (names.zip values) x v) ∧
      (∀ x v, LastWith (names.zip values) x v → f.get? (.text x) = some v.slot) ∧
      ∀ (m : Memory β) (base : Env),
        let env := (m.push f base).1
        let n := (m.push f base).2
        Eval.extendZip (names.map .text) values base m = .ok env n ∧
          (∀ x v, LastWith (names.zip values) x v → n.lookup (.text x) env =
            match v.slot with
            | some w => .ok w
            | none => .error (.unassigned (.text x))) ∧
          (∀ x, x ∉ names.take (min names.length values.length) →
            n.lookup (.text x) env = n.lookup (.text x) base) ∧
          ((∀ i ∈ base, i < m.frames.size) →
            ∀ x : String, n.lookup (.text x) base = m.lookup (.text x) base) := by
  have made := Frame.ofValues_texts names values
  have paired : (names.zip values).map (·.1) = names.take (min names.length values.length) :=
    map_fst_zip_take
  have last (x : String) (v : Value) (h : LastWith (names.zip values) x v) :
      (Frame.empty.putAll (names.zip values)).get? (.text x) = some v.slot :=
    Frame.get?_putAll_of_lastWith h
  refine ⟨_, made, ?_, fun x h => exists_lastWith (by rwa [paired]), last, fun m base => ?_⟩
  · rw [Frame.names_putAll, paired]
  · refine ⟨?_, fun x v h => ?_, fun x h => ?_, fun inside x => ?_⟩
    · rw [Eval.extendZip, made]
      rfl
    · rw [Memory.lookup_push, last x v h]
      cases v.slot <;> rfl
    · have absent : (Frame.empty.putAll (names.zip values)).get? (.text x) = none := by
        rw [Frame.get?_putAll_of_not_mem (by rwa [paired])]
        rfl
      rw [Memory.lookup_push, absent]
    · exact Memory.lookup_push_inside m _ base x inside

namespace Sample

/-- The third value belongs to the first name again, and there is none for the last name. -/
def recurring : List String := ["a", "b", "a", "c"]

def given : List Value := [.int 1, .uninitialized, .int 2]

/-- A frame that has two of the names. -/
def behind : Memory Code where
  frames := #[⟨[(.text "c", some (.int 7)), (.text "a", some .null)]⟩]

end Sample

theorem last_occurrence_counts_for_recurring_name :
    (LastWith (Sample.recurring.zip Sample.given) "a" (.int 2) ∧
        LastWith (Sample.recurring.zip Sample.given) "b" .uninitialized ∧
        "c" ∉ Sample.recurring.take (min Sample.recurring.length Sample.given.length)) ∧
      ∃ f env n, Frame.ofValues (Sample.recurring.map .text) Sample.given = .ok f ∧
        f.names = [.text "a", .text "b"] ∧
        Eval.extendZip (Sample.recurring.map .text) Sample.given [0] Sample.behind = .ok env n ∧
        n.lookup (.text "a") env = .ok (.int 2) ∧
        n.lookup (.text "b") env = .error (.unassigned (.text "b")) ∧
        n.lookup (.text "c") env = .ok (.int 7) := by
  have again : LastWith (Sample.recurring.zip Sample.given) "a" (.int 2) :=
    ⟨[("a", .int 1), ("b", .uninitialized)], [], rfl, by simp⟩
  have once : LastWith (Sample.recurring.zip Sample.given) "b" .uninitialized :=
    ⟨[("a", .int 1)], [("a", .int 2)], rfl, by simp⟩
  have cut : "c" ∉ Sample.recurring.take (min Sample.recurring.length Sample.given.length) := by
    decide
  obtain ⟨f, made, names, -, -, environments⟩ :=
    last_occurrence_counts (β := Code) Sample.recurring Sample.given
  obtain ⟨extended, found, further, kept⟩ := environments Sample.behind [0]
  refine ⟨⟨again, once, cut⟩, f, _, _, made, ?_, extended, ?_, ?_, ?_⟩
  · rw [names]
    rfl
  · exact found "a" _ again
  · exact found "b" _ once
  · rw [further "c" cut, kept (by simp [Sample.behind])]
    rfl

end ConstLang
