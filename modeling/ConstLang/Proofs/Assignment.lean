import ConstLang.Code
import ConstLang.Proofs.Growth
import ConstLang.Proofs.Names

/-!
What an assignment changes. A name gets its value in the innermost frame of an environment, and
frames are shared: the same frame may stand in another environment at any depth, behind frames that
have the name or do not. There the name has the value exactly if its search ends in that frame; all
other searches end as they did before.
-/

namespace ConstLang

theorem Value.text_same (x y : String) : (Value.text x).same (.text y) = decide (y = x) := by
  rw [Bool.eq_iff_iff, Value.same_text, decide_eq_true_iff, Value.text.injEq, eq_comm]

namespace Frame

theorem get?_cons (s : Value × Option Value) (rest : List (Value × Option Value)) (name : Value) :
    (⟨s :: rest⟩ : Frame).get? name =
      if s.1.same name then some s.2 else (⟨rest⟩ : Frame).get? name := by
  simp only [get?, List.find?_cons]
  cases s.1.same name <;> rfl

theorem get?_append (slots rest : List (Value × Option Value)) (name : Value) :
    (⟨slots ++ rest⟩ : Frame).get? name =
      ((⟨slots⟩ : Frame).get? name).or ((⟨rest⟩ : Frame).get? name) := by
  simp only [get?, List.find?_append, Option.map_or]

theorem get?_replace (x y : String) (slot : Option Value) (slots : List (Value × Option Value)) :
    (⟨replace (.text x) slot slots⟩ : Frame).get? (.text y) =
      if y = x then ((⟨slots⟩ : Frame).get? (.text y)).map fun _ => slot
      else (⟨slots⟩ : Frame).get? (.text y) := by
  induction slots with
  | nil => simp [replace, get?]
  | cons s rest ih =>
      by_cases first : s.1 = .text x
      · by_cases e : y = x <;> simp [replace, get?_cons, first, Value.text_same, e]
      · have other : s.1.same (.text x) = false := by
          rw [Bool.eq_false_iff, Ne, Value.same_text]
          exact first
        by_cases e : y = x
        · subst e
          simpa [replace, get?_cons, other] using ih
        · simp only [e, if_false] at ih
          simp [replace, get?_cons, other, ih, e]

/-- Putting a slot changes what is found for its name, and for no other. -/
theorem get?_put (f : Frame) (x y : String) (slot : Option Value) :
    (f.put (.text x) slot).get? (.text y) = if y = x then some slot else f.get? (.text y) := by
  by_cases there : (f.get? (.text x)).isSome
  · rw [put, if_pos there, get?_replace]
    by_cases e : y = x
    · subst e
      obtain ⟨content, found⟩ := Option.isSome_iff_exists.mp there
      simp [found]
    · simp only [e, if_false]
  · rw [put, if_neg there, get?_append, get?_cons, Value.text_same]
    by_cases e : y = x
    · subst e
      simp [Option.not_isSome_iff_eq_none.mp there]
    · simp [e, get?]

end Frame

namespace Memory

variable {β : Type}

/-- The first frame of an environment that has the name. -/
def resolve (m : Memory β) (name : Value) (env : Env) : Option Nat :=
  env.find? fun i => ((m.frame i).get? name).isSome

variable {m : Memory β} {x : String} {i : Nat}

/-- An unassigned slot stands in a frame that has been given out. -/
theorem inside_of_get? (free : (m.frame i).get? (.text x) = some none) : i < m.frames.size := by
  refine Nat.lt_of_not_le fun outside => ?_
  simp [frame, Array.getElem?_eq_none outside, Frame.empty, Frame.get?] at free

theorem get?_fill (inside : i < m.frames.size) (v : Value) (j : Nat) (y : String) :
    ((m.fill i (.text x) v).frame j).get? (.text y) =
      if j = i ∧ y = x then some (some v) else (m.frame j).get? (.text y) := by
  by_cases e : j = i
  · subst e
    simp [frame_fill m _ v inside, Frame.get?_put]
  · rw [frame_fill_of_ne m _ v (Ne.symm e)]
    simp [e]

/-- Filling a slot decides the searches that end in it, and no others. -/
theorem lookupIn_fill (free : (m.frame i).get? (.text x) = some none) (v : Value) (y : String)
    (env : Env) :
    (m.fill i (.text x) v).lookupIn (.text y) env =
      if y = x ∧ m.resolve (.text x) env = some i then .ok v else m.lookupIn (.text y) env := by
  induction env with
  | nil => simp [lookupIn, resolve]
  | cons j env ih =>
      simp only [lookupIn, get?_fill (inside_of_get? free) v j y]
      by_cases here : j = i ∧ y = x
      · obtain ⟨rfl, rfl⟩ := here
        simp [resolve, free]
      · simp only [here, if_false]
        cases slot : (m.frame j).get? (.text y) with
        | none =>
            have further (e : y = x) :
                m.resolve (.text x) (j :: env) = m.resolve (.text x) env := by
              subst e
              simp [resolve, slot]
            simp only [ih]
            exact if_congr (and_congr_right fun e => by rw [further e]) rfl rfl
        | some content =>
            have elsewhere : ¬ (y = x ∧ m.resolve (.text x) (j :: env) = some i) := by
              rintro ⟨rfl, found⟩
              simp only [resolve, List.find?_cons, slot, Option.isSome_some, Option.some.injEq]
                at found
              exact here ⟨found, rfl⟩
            rw [if_neg elsewhere]
            cases content <;> rfl

/-- The target of a declaration of a text is the innermost frame, if it awaits the name. -/
theorem target_text_eq_ok {env : Env} :
    m.target (.text x) env = .ok i ↔
      env.head? = some i ∧ (m.frame i).get? (.text x) = some none := by
  constructor
  · exact target_eq_ok
  · rintro ⟨head, free⟩
    cases env with
    | nil => cases head
    | cons j env =>
        obtain rfl : j = i := Option.some.inj head
        simp [target, free]

theorem target_text_eq_error {env : Env} {e : Fault} (h : m.target (.text x) env = .error e) :
    e = .noSlot (.text x) ∨ e = .slotTaken (.text x) := by
  cases env with
  | nil =>
      cases h
      exact .inl rfl
  | cons j env =>
      simp only [target, Value.hashable, if_true] at h
      split at h
      · cases h
        exact .inl rfl
      · cases h
        exact .inr rfl
      · cases h

end Memory

namespace Eval

variable {β : Type}

/-- An assignment is made exactly if the innermost frame has the name without a value; otherwise it
is refused as inconsistent and nothing has changed. Once it is made, a search for the name that
ends in that frame finds the value, and every other search ends as it did before, whatever frames
the two environments share. -/
theorem assignment_changes_its_slot (m : Memory β) (x : String) (v : Value) (env : Env) :
    ((∃ n, assign (.text x) v env m = .ok () n) ↔
        ∃ i, env.head? = some i ∧ (m.frame i).get? (.text x) = some none) ∧
      (∀ e n, assign (.text x) v env m = .error e n → n = m ∧ e.report.kind = .inconsistent) ∧
      ∀ n, assign (.text x) v env m = .ok () n → ∀ (y : String) (env' : Env),
        n.lookup (.text y) env' =
          if y = x ∧ m.resolve (.text x) env' = env.head? then .ok v
          else m.lookup (.text y) env' := by
  simp only [assign_apply]
  cases target : m.target (.text x) env with
  | ok i =>
      have found := Memory.target_text_eq_ok.mp target
      refine ⟨⟨fun _ => ⟨i, found⟩, fun _ => ⟨_, rfl⟩⟩, fun e n refused => ?_, ?_⟩
      · cases refused
      · rintro n made y env'
        cases made
        rw [Memory.lookup_text, Memory.lookup_text, Memory.lookupIn_fill found.2, found.1]
  | error e =>
      refine ⟨⟨?_, ?_⟩, ?_, ?_⟩
      · rintro ⟨n, made⟩
        cases made
      · rintro ⟨i, found⟩
        cases target.symm.trans (Memory.target_text_eq_ok.mpr found)
      · rintro e' n refused
        cases refused
        refine ⟨rfl, ?_⟩
        rcases Memory.target_text_eq_error target with rfl | rfl <;> rfl
      · rintro n made
        cases made

end Eval

namespace Sample

/-- A frame that awaits two names, and one that has a value for the second. -/
def shared : Memory Code where
  frames := #[⟨[(.text "a", none), (.text "b", none)]⟩, ⟨[(.text "b", some (.int 1))]⟩]

end Sample

theorem assignment_changes_shared_frame :
    ∃ n : Memory Code, Eval.assign (.text "b") (.int 2) [0] Sample.shared = .ok () n ∧
      n.lookup (.text "b") [2, 0, 1] = .ok (.int 2) ∧
      n.lookup (.text "b") [1, 0] = .ok (.int 1) ∧
      n.lookup (.text "a") [1, 0] = .error (.unassigned (.text "a")) ∧
      n.lookup (.text "c") [0, 1] = .error (.unbound (.text "c")) := by
  obtain ⟨possible, -, searches⟩ :=
    Eval.assignment_changes_its_slot Sample.shared "b" (.int 2) [0]
  obtain ⟨n, made⟩ := possible.mpr ⟨0, rfl, rfl⟩
  refine ⟨n, made, ?_, ?_, ?_, ?_⟩
  · exact (searches n made "b" [2, 0, 1]).trans rfl
  · exact (searches n made "b" [1, 0]).trans rfl
  · exact (searches n made "a" [1, 0]).trans rfl
  · exact (searches n made "c" [0, 1]).trans rfl

end ConstLang
