import ConstLang.Proofs.Analysis
import ConstLang.Proofs.Names
import ConstLang.Tree.Reader

/-!
Trees as they are read: every part is a tree, literals are scalars, names and
parameters are texts, and lists of parts are tuples.
-/

namespace ConstLang

/-- The values that stand for themselves in a tagged list. -/
def Value.isScalar : Value → Bool
  | .null | .bool _ | .int _ | .float _ | .nan _ | .text _ => true
  | _ => false

inductive Regular : Value → Prop
  | literal {v : Value} : v.isScalar → Regular (.node (.literal v))
  | name (x : String) : Regular (.node (.name x))
  | declaration (x : String) {v : Value} : Regular v → Regular (.node (.declaration (.text x) v))
  | conditional {p c a : Value} :
      Regular p → Regular c → Regular a → Regular (.node (.conditional p c a))
  | function (xs : List String) {b : Value} :
      Regular b → Regular (.node (.function (.tuple (xs.map .text)) b))
  | sequence {ss : List Value} :
      (∀ s ∈ ss, Regular s) → Regular (.node (.sequence (.tuple ss)))
  | block {b : Value} : Regular b → Regular (.node (.block b))
  | returning {e : Value} : Regular e → Regular (.node (.returning e))
  | application {f : Value} {xs : List Value} :
      Regular f → (∀ x ∈ xs, Regular x) → Regular (.node (.application f (.tuple xs)))

mutual

theorem Value.regular_of_read {v : Value} {n : Node} (h : v.read = .ok n) : Regular (.node n) := by
  unfold Value.read at h
  split at h
  case h_7 | h_8 => exact regular_of_readParts h
  case h_9 => cases h
  all_goals
    cases h
    exact .literal rfl
termination_by sizeOf v

theorem regular_of_readParts {whole : Value} {xs : List Value} {n : Node}
    (h : readParts whole xs = .ok n) : Regular (.node n) := by
  unfold readParts at h
  split at h
  · exact regular_of_readFields h
  · cases h
termination_by sizeOf xs

theorem regular_of_readFields {whole : Value} {tag : Option Tag} {fields : List Value} {n : Node}
    (h : readFields whole tag fields = .ok n) : Regular (.node n) := by
  unfold readFields at h
  split at h
  · cases h
    exact .name _
  · simp only [except_bind_eq_ok, except_pure_eq_ok] at h
    obtain ⟨x, -, n, hn, rfl⟩ := h
    exact .declaration x (Value.regular_of_read hn)
  · simp only [except_bind_eq_ok, except_pure_eq_ok] at h
    obtain ⟨p, hp, c, hc, a, ha, rfl⟩ := h
    exact .conditional (Value.regular_of_read hp) (Value.regular_of_read hc)
      (Value.regular_of_read ha)
  · simp only [except_bind_eq_ok, except_pure_eq_ok] at h
    obtain ⟨ps, -, b, hb, rfl⟩ := h
    exact .function ps (Value.regular_of_read hb)
  · simp only [except_bind_eq_ok, except_pure_eq_ok] at h
    obtain ⟨ss, hs, rfl⟩ := h
    exact .sequence (regular_of_readItems hs)
  · simp only [except_bind_eq_ok, except_pure_eq_ok] at h
    obtain ⟨b, hb, rfl⟩ := h
    exact .block (Value.regular_of_read hb)
  · simp only [except_bind_eq_ok, except_pure_eq_ok] at h
    obtain ⟨e, he, rfl⟩ := h
    exact .returning (Value.regular_of_read he)
  · simp only [except_bind_eq_ok, except_pure_eq_ok] at h
    obtain ⟨f, hf, xs, hxs, rfl⟩ := h
    exact .application (Value.regular_of_read hf) (regular_of_readItems hxs)
  · cases h
termination_by sizeOf fields

theorem regular_of_readItems {v : Value} {vs : List Value} (h : v.readItems = .ok vs) :
    ∀ x ∈ vs, Regular x := by
  unfold Value.readItems at h
  split at h
  · exact regular_of_readAll h
  · exact regular_of_readAll h
  · cases h
    simp only [List.mem_map]
    rintro _ ⟨c, -, rfl⟩
    exact .literal rfl
  · exact regular_of_readKeys h
  · cases h
termination_by sizeOf v

theorem regular_of_readAll {xs vs : List Value} (h : readAll xs = .ok vs) :
    ∀ x ∈ vs, Regular x := by
  unfold readAll at h
  split at h
  · cases h
    simp
  · simp only [except_bind_eq_ok, except_pure_eq_ok] at h
    obtain ⟨n, hn, vs, hvs, rfl⟩ := h
    have first := Value.regular_of_read hn
    have rest := regular_of_readAll hvs
    simp only [List.mem_cons, forall_eq_or_imp]
    exact ⟨first, rest⟩
termination_by sizeOf xs

theorem regular_of_readKeys {es : List (Value × Value)} {vs : List Value}
    (h : readKeys es = .ok vs) : ∀ x ∈ vs, Regular x := by
  unfold readKeys at h
  split at h
  · cases h
    simp
  · simp only [except_bind_eq_ok, except_pure_eq_ok] at h
    obtain ⟨n, hn, vs, hvs, rfl⟩ := h
    exact List.forall_mem_cons.mpr ⟨Value.regular_of_read hn, regular_of_readKeys hvs⟩
termination_by sizeOf es

end

/-- A result that is there, or is missing because a name is declared twice. -/
def OkOrDuplicate {α : Type} (r : Except Fault α) : Prop :=
  (∃ a, r = .ok a) ∨ ∃ x, r = .error (.duplicate x)

theorem OkOrDuplicate.bind {α γ : Type} {r : Except Fault α} {next : α → Except Fault γ}
    (h : OkOrDuplicate r) (hn : ∀ a, OkOrDuplicate (next a)) : OkOrDuplicate (r >>= next) := by
  rcases h with ⟨a, rfl⟩ | ⟨x, rfl⟩
  · exact hn a
  · exact .inr ⟨x, rfl⟩

theorem okOrDuplicate_ok {α : Type} (a : α) : OkOrDuplicate (.ok a) := .inl ⟨a, rfl⟩

theorem okOrDuplicate_insertAll (xs into : List Value) : OkOrDuplicate (insertAll xs into) := by
  induction xs with
  | nil => exact okOrDuplicate_ok into
  | cons x xs ih =>
      refine ih.bind fun rest => ?_
      split
      · exact .inr ⟨x, rfl⟩
      · exact okOrDuplicate_ok _

theorem okOrDuplicate_localNamesAll {ss : List Value}
    (h : ∀ s ∈ ss, OkOrDuplicate s.localNames) : OkOrDuplicate (localNamesAll ss) := by
  induction ss with
  | nil => exact okOrDuplicate_ok []
  | cons s ss ih =>
      refine (ih fun t ht => h t (by simp [ht])).bind fun rest => ?_
      exact (h s (by simp)).bind fun own => okOrDuplicate_insertAll own rest

theorem okOrDuplicate_analyzeAll {vs : List Value} (h : ∀ v ∈ vs, OkOrDuplicate v.analyze) :
    OkOrDuplicate (analyzeAll vs) := by
  induction vs with
  | nil => exact okOrDuplicate_ok []
  | cons v vs ih =>
      refine (h v (by simp)).bind fun c => ?_
      exact (ih fun w hw => h w (by simp [hw])).bind fun cs => okOrDuplicate_ok _

namespace Regular

variable {v : Value}

theorem okOrDuplicate_localNames (h : Regular v) : OkOrDuplicate v.localNames := by
  induction h with
  | sequence _ ih => exact okOrDuplicate_localNamesAll ih
  | _ => exact okOrDuplicate_ok _

/-- The names that a scope declares are different texts. -/
theorem names_localNames (h : Regular v) {names : List Value} (hn : v.localNames = .ok names) :
    Names names := by
  induction h generalizing names with
  | declaration x _ _ => cases hn; simp [Names]
  | sequence _ ih => exact names_localNamesAll (fun s hs own => ih s hs) hn
  | _ => cases hn; exact names_nil

/-- Analysis refuses a tree that was read only because of a name declared twice. -/
theorem okOrDuplicate_analyze (h : Regular v) : OkOrDuplicate v.analyze := by
  induction h with
  | literal _ | name _ => exact okOrDuplicate_ok _
  | declaration _ _ ih | returning _ ih => exact ih.bind fun c => okOrDuplicate_ok _
  | conditional _ _ _ ihp ihc iha =>
      exact ihp.bind fun _ => ihc.bind fun _ => iha.bind fun _ => okOrDuplicate_ok _
  | function xs hb ih =>
      refine OkOrDuplicate.bind (okOrDuplicate_insertAll _ []) fun params => ?_
      refine hb.okOrDuplicate_localNames.bind fun locals => ?_
      refine (okOrDuplicate_insertAll params locals).bind fun _ => ?_
      exact ih.bind fun _ => okOrDuplicate_ok _
  | sequence _ ih => exact (okOrDuplicate_analyzeAll ih).bind fun _ => okOrDuplicate_ok _
  | block hb ih =>
      exact hb.okOrDuplicate_localNames.bind fun _ => ih.bind fun _ => okOrDuplicate_ok _
  | application _ _ ihf ihx =>
      exact ihf.bind fun _ => (okOrDuplicate_analyzeAll ihx).bind fun _ => okOrDuplicate_ok _

end Regular

end ConstLang
