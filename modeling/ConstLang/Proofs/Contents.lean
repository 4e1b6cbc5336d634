import ConstLang.Call
import ConstLang.Proofs.Value.Every

/-!
What memory holds. A property of values holds throughout memory if every assigned slot
of every frame has it throughout; lookups then yield values that have it.
-/

namespace ConstLang

namespace Frame

/-- Every assigned slot has the property throughout. -/
def Holds (P : Value → Prop) (f : Frame) : Prop :=
  ∀ s ∈ f.slots, ∀ v, s.2 = some v → v.Every P

variable {P : Value → Prop} {f : Frame}

theorem holds_get? (h : f.Holds P) {name v : Value} (hv : f.get? name = some (some v)) :
    v.Every P := by
  simp only [get?, Option.map_eq_some_iff] at hv
  obtain ⟨s, hs, hv⟩ := hv
  exact h s (List.mem_of_find?_eq_some hs) v hv

theorem mem_replace {name : Value} {slot : Option Value} {slots : List (Value × Option Value)}
    {s : Value × Option Value} (h : s ∈ replace name slot slots) : s ∈ slots ∨ s.2 = slot := by
  induction slots with
  | nil => simp [replace] at h
  | cons t rest ih =>
      simp only [replace] at h
      split at h
      · rcases List.mem_cons.mp h with rfl | h
        · exact .inr rfl
        · exact .inl (List.mem_cons_of_mem _ h)
      · rcases List.mem_cons.mp h with rfl | h
        · exact .inl List.mem_cons_self
        · exact (ih h).imp_left (List.mem_cons_of_mem _)

theorem mem_slots_put {name : Value} {slot : Option Value} {s : Value × Option Value}
    (h : s ∈ (f.put name slot).slots) : s ∈ f.slots ∨ s.2 = slot := by
  unfold put at h
  split at h
  · exact mem_replace h
  · simp only [List.mem_append, List.mem_singleton] at h
    exact h.imp_right fun e => by rw [e]

theorem Holds.put (h : f.Holds P) {slot : Option Value} (hs : ∀ v, slot = some v → v.Every P)
    (name : Value) : (f.put name slot).Holds P := by
  intro s hmem v hv
  rcases mem_slots_put hmem with old | new
  · exact h s old v hv
  · exact hs v (new ▸ hv)

theorem mem_slots_foldl_put {slots : List (Value × Option Value)} {s : Value × Option Value}
    (h : s ∈ (slots.foldl (fun f t => f.put t.1 t.2) f).slots) :
    s ∈ f.slots ∨ ∃ t ∈ slots, s.2 = t.2 := by
  induction slots generalizing f with
  | nil => exact .inl h
  | cons t rest ih =>
      rcases ih h with old | ⟨u, hu, e⟩
      · exact (mem_slots_put old).imp_right fun e => ⟨t, List.mem_cons_self, e⟩
      · exact .inr ⟨u, List.mem_cons_of_mem _ hu, e⟩

/-- A frame has no contents but those of the slots it is made of. -/
theorem mem_slots_ofSlots {slots : List (Value × Option Value)} (hf : ofSlots slots = .ok f)
    {s : Value × Option Value} (hs : s ∈ f.slots) : ∃ t ∈ slots, s.2 = t.2 := by
  unfold ofSlots at hf
  split at hf
  · cases hf
    exact (mem_slots_foldl_put hs).resolve_left (by simp [empty])
  · cases hf

theorem holds_ofSlots {slots : List (Value × Option Value)} (hf : ofSlots slots = .ok f)
    (h : ∀ s ∈ slots, ∀ v, s.2 = some v → v.Every P) : f.Holds P := by
  intro s hs v hv
  obtain ⟨t, ht, e⟩ := mem_slots_ofSlots hf hs
  exact h t ht v (e ▸ hv)

theorem holds_empty : empty.Holds P := fun s hs => by cases hs

theorem holds_unassigned {names : List Value} (hf : unassigned names = .ok f) : f.Holds P := by
  refine holds_ofSlots hf fun s hs v hv => ?_
  obtain ⟨x, -, rfl⟩ := List.mem_map.mp hs
  cases hv

theorem every_of_mem_zip_slot {names values : List Value} (h : ∀ x ∈ values, x.Every P)
    {s : Value × Option Value} (hs : s ∈ names.zip (values.map Value.slot)) {v : Value}
    (hv : s.2 = some v) : v.Every P := by
  obtain ⟨x, hx, e⟩ := List.mem_map.mp (List.of_mem_zip hs).2
  have same : x = v := by
    rw [hv] at e
    cases x <;> simp [Value.slot] at e
    all_goals exact e
  exact same ▸ h x hx

theorem holds_ofValues {names values : List Value} (hf : ofValues names values = .ok f)
    (h : ∀ x ∈ values, x.Every P) : f.Holds P :=
  holds_ofSlots hf fun _ hs _ => every_of_mem_zip_slot h hs

/-- The slots of a call are those of the parameters, then those of the locals. -/
theorem map_fst_callSlots {params locals args : List Value} (arity : args.length = params.length) :
    (callSlots params locals args).map (·.1) = params ++ locals := by
  simp [callSlots, List.map_fst_zip, arity, Function.comp_def]

/-- What the arguments of a call have throughout, its frame has. -/
theorem holds_callSlots {params locals args : List Value}
    (hf : ofSlots (callSlots params locals args) = .ok f) (h : ∀ x ∈ args, x.Every P) :
    f.Holds P := by
  refine holds_ofSlots hf fun s hs v hv => ?_
  rcases List.mem_append.mp hs with hs | hs
  · exact every_of_mem_zip_slot h hs hv
  · obtain ⟨x, -, rfl⟩ := List.mem_map.mp hs
    cases hv

end Frame

namespace Memory

variable {β : Type} {P Q : Value → Prop} {m : Memory β}

def Holds (P : Value → Prop) (m : Memory β) : Prop := ∀ i, (m.frame i).Holds P

theorem Holds.imp (h : m.Holds P) (hPQ : ∀ v, P v → Q v) : m.Holds Q :=
  fun i s hs v hv => (h i s hs v hv).imp hPQ

theorem Holds.push (h : m.Holds P) {f : Frame} (hf : f.Holds P) (env : Env) :
    (m.push f env).2.Holds P := by
  intro i
  rw [frame_push]
  split
  · exact hf
  · exact h i

/-- Filling a slot adds nothing to a frame but the value. -/
theorem holds_frame_fill {j : Nat} (h : (m.frame j).Holds P) {value : Value} (hv : value.Every P)
    (i : Nat) (name : Value) : ((m.fill i name value).frame j).Holds P := by
  by_cases e : i = j
  · subst e
    cases hf : m.frames[i]? with
    | none =>
        have none : (m.fill i name value).frame i = Frame.empty := by
          simp [Memory.fill, frame, Array.getElem?_modify, hf]
        rw [none]
        exact Frame.holds_empty
    | some f =>
        have old : f.Holds P := by simpa [frame, hf] using h
        have filled : (m.fill i name value).frame i = f.put name (some value) := by
          simp [Memory.fill, frame, Array.getElem?_modify, hf]
        rw [filled]
        exact old.put (fun v e => by cases e; exact hv) name
  · rw [frame_fill_of_ne m name value e]
    exact h

theorem Holds.fill (h : m.Holds P) {value : Value} (hv : value.Every P) (i : Nat) (name : Value) :
    (m.fill i name value).Holds P :=
  fun j => holds_frame_fill (h j) hv i name

/-- What the frames of an environment hold, a lookup there yields. -/
theorem every_lookupIn {name v : Value} {env : Env} (h : ∀ i ∈ env, (m.frame i).Holds P)
    (hv : m.lookupIn name env = .ok v) : v.Every P := by
  induction env with
  | nil => cases hv
  | cons i env ih =>
      obtain ⟨own, rest⟩ := List.forall_mem_cons.mp h
      simp only [Memory.lookupIn] at hv
      split at hv
      · cases hv
        exact Frame.holds_get? own ‹_›
      · cases hv
      · exact ih rest hv

theorem Holds.lookup (h : m.Holds P) {name v : Value} {env : Env}
    (hv : m.lookup name env = .ok v) : v.Every P := by
  unfold Memory.lookup at hv
  split at hv
  · exact every_lookupIn (fun i _ => h i) hv
  · cases hv

end Memory
end ConstLang
