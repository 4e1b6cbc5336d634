import ConstLang.Proofs.Lexical.Scene

/-!
A program and its sites side by side. The run of the code and the watched run of the sites
do the same, and since every site fits where it runs, the alarm is never raised.
-/

namespace ConstLang
namespace Scene

open Comparison

variable (o : Scene)

/-- The program refers to the name where no scope around has it, and no global frame has it. -/
def Misses (x : Value) : Prop :=
  ∃ (y : String) (scopes : List (List Value)), x = .text y ∧
    Stands o.program scopes (.node (.name y)) ∧ ∀ ns ∈ scopes ++ o.names, .text y ∉ ns

/-- A name that is unbound is one that the program misses, unless code from elsewhere ran. -/
def Explains (e : Fault) : Prop := ∀ x, e = .unbound x → o.foreign ∨ o.Misses x

/-- The comparison of the code of a program with its sites. -/
def comparison : Comparison Code Site where
  memories := o.Kept
  ρ := .same
  known _ := o.Known
  bodies _ m' c env s env' := s.code = c ∧ env' = env ∧ o.Fit m' s [] env
  expects := o.Explains
  excused _ := False
  fresh h := ⟨h.fresh, h.same.serial⟩
  write h := h.write
  known_of_not_function {_ _ v} h := by cases v <;> trivial
  known_later _ g' h := h.later g'
  bodies_later _ g' h := ⟨h.1, h.2.1, h.2.2.later g'⟩
  expects_of_kind kind := by
    rintro x rfl
    exact absurd rfl kind

variable {o} {m : Memory Code} {m' : Memory Site} {s : Site} {env : Env}

theorem comparison_ρ : o.comparison.ρ = .same := rfl

/-- Values are their own counterparts. -/
theorem values_iff {v v' : Value} :
    o.comparison.values m m' v v' ↔ v' = v ∧ v.Every (o.Known m') := by
  simp [Comparison.values, comparison]

/-- A name that no frame has is one that the program misses. -/
theorem explains_lookup {x : String} {e : Fault} (fit : o.Fit m' s [] env) (code : s.code = .name x)
    (failed : m'.lookup (.text x) env = .error e) : o.Explains e := by
  rintro y rfl
  obtain rfl : y = .text x := by
    rcases Memory.lookup_eq_error failed with same | same | same <;> cases same
    rfl
  cases hs : s.scopes with
  | none => exact .inl (fit.foreign hs)
  | some scopes =>
      obtain ⟨⟨v, stands, analyzed⟩, -, -, shape⟩ := fit.placed scopes hs
      rw [code] at analyzed
      refine .inr ⟨x, scopes, rfl, ?_, ?_⟩
      · simpa using stands.trans (name_of_analyze analyzed)
      · rw [← shape]
        exact Memory.lookup_unbound.mp failed

theorem agree_lookup {x : String} (hm : o.Kept m m') (fit : o.Fit m' s [] env)
    (code : s.code = .name x) :
    o.comparison.Agree m m' o.comparison.values (Eval.lookup (.text x) env)
      (Eval.lookup (.text x) env) := by
  rw [Agree, Eval.lookup_apply, Eval.lookup_apply, ← hm.same.lookup_eq]
  cases found : m'.lookup (.text x) env with
  | ok v =>
      refine .ok (.refl _ _) (.refl _ _) hm (values_iff.mpr ⟨rfl, ?_⟩)
      rw [Memory.lookup_text] at found
      exact Memory.every_lookupIn (fun i hi => hm.holds i (fit.reach i hi)) found
  | error e => exact .error (e.rename_same).symm (explains_lookup fit code found) hm

theorem agree_assign {x v v' : Value} (hm : o.Kept m m') (hv : o.comparison.values m m' v v') :
    o.comparison.Agree m m' (fun _ _ _ _ => True) (Eval.assign x v env)
      (Eval.assign x v' env) := by
  obtain ⟨rfl, known⟩ := values_iff.mp hv
  rw [Agree, Eval.assign_apply, Eval.assign_apply, ← hm.same.target_eq]
  cases found : m'.target x env with
  | error e =>
      refine .error (e.rename_same).symm (o.comparison.expects_of_kind ?_) hm
      rcases Memory.target_eq_error found with rfl | rfl | rfl <;> simp [Fault.kind]
  | ok i =>
      obtain ⟨-, unassigned⟩ := Memory.target_eq_ok found
      have unassigned' : (m.frame i).get? x = some none := by
        rwa [← hm.same.frame_eq]
      exact .ok (Memory.grows_fill unassigned').later (Memory.grows_fill unassigned).later
        (hm.fill unassigned known) trivial

/-- The scope of a block is entered in a frame that has its names. -/
theorem agree_enterScope {locals : List Value} {body : Site} (hm : o.Kept m m')
    (fit : o.Fit m' body [locals] env) :
    o.comparison.Agree m m'
      (fun _ n' inner inner' => inner' = inner ∧ o.Fit n' body [] inner)
      (enterScope locals env) (enterScope locals env) := by
  have framed : o.comparison.Agree m m' (fun _ _ f f' => Frame.unassigned locals = .ok f ∧ f' = f)
      (Eval.ofMishap (Frame.unassigned locals)) (Eval.ofMishap (Frame.unassigned locals)) :=
    agree_ofMishap hm (by cases Frame.unassigned locals <;> rfl) fun f made => ⟨made, rfl⟩
  refine framed.bind fun _ f n n' _ later hn hf => ?_
  obtain ⟨made, rfl⟩ := hf
  have names : Names locals → f.names = locals := by
    intro different
    have slots : Names ((locals.map (·, (none : Option Value))).map (·.1)) := by
      simpa [Function.comp_def] using different
    rw [Frame.unassigned, Frame.ofSlots_eq_ok slots] at made
    cases made
    simp [Frame.names, Function.comp_def]
  refine .ok (n.grows_push _ f env) (n'.grows_push _ f env)
    (hn.push (Frame.holds_unassigned made) env) ⟨?_, ?_⟩
  · rw [hn.same.frames]
  · rw [← hn.same.frames]
    exact (fit.later later).push hn.size_le names

theorem agree_close {params locals : List Value} {body : Site} (hm : o.Kept m m')
    (known : EveryItem (o.Known m') params ∧ EveryItem (o.Known m') locals)
    (fit : o.Fit m' body [params ++ locals] env) :
    o.comparison.Agree m m' o.comparison.values (Eval.close params locals ⟨body.code, env⟩)
      (Eval.close params locals ⟨body, env⟩) := by
  have g' : m'.Later (m'.close params locals ⟨body, env⟩).2 := m'.grows_close _ params locals _
  refine .ok (m.grows_close _ params locals _) g' (hm.close params locals body env)
    (values_iff.mpr ⟨?_, ?_, ?_⟩)
  · rw [hm.same.size_closures]
  · refine ⟨⟨body, env⟩, ?_, fit.later g'⟩
    simp [← hm.same.size_closures]
  · exact ⟨known.1.imp fun _ hv => hv.later g', known.2.imp fun _ hv => hv.later g'⟩

/-- A known function is entered in a frame that has its names, in the environment it was made in. -/
theorem agree_enterCall {id : Nat} {params locals args : List Value} (hm : o.Kept m m')
    (known : o.Known m' (.function id params locals))
    (hargs : ∀ x ∈ args, x.Every (o.Known m')) :
    o.comparison.Agree m m'
      (fun n n' entered entered' =>
        o.comparison.bodies n n' entered.1 entered.2 entered'.1 entered'.2)
      (enterCall (.function id params locals) id params locals args)
      (enterCall (.function id params locals) id params locals args) := by
  obtain ⟨c', hc', fit⟩ := known
  obtain ⟨-, none⟩ | ⟨c, d, hc, hd, body, env⟩ := hm.same.closure id
  · rw [hc'] at none
    cases none
  obtain rfl : d = c' := Option.some.inj (hd.symm.trans hc')
  simp only [Agree, Eval.enterCall_apply, hc, hc']
  by_cases arity : args.length = params.length
  · simp only [arity, if_true]
    cases made : Frame.ofSlots (callSlots params locals args) with
    | error e => exact .error rfl (o.comparison.expects_of_kind (by simp [Fault.kind])) hm
    | ok f =>
        have listed : (callSlots params locals args).map (·.1) = params ++ locals :=
          Frame.map_fst_callSlots arity
        have names : Names (params ++ locals) → f.names = params ++ locals := by
          intro different
          rw [← listed] at different
          rw [Frame.ofSlots_eq_ok different] at made
          cases made
          exact listed
        have entered := hm.push (Frame.holds_callSlots made hargs) c.env
        rw [env]
        refine .ok (m.grows_push _ f c.env) (m'.grows_push _ f c.env) entered ⟨body, ?_, ?_⟩
        · rw [hm.same.frames]
        · rw [env] at fit
          rw [← hm.same.frames]
          exact fit.push hm.size_le names
  · simp only [arity, if_false]
    exact .error rfl (o.comparison.expects_of_kind (by simp [Fault.kind])) hm

section Parts

variable {exec : Code → Env → Eval Code Value} {exec' : Site → Env → Eval Site Value}
  (hexec : o.comparison.Follows exec exec')

include hexec

/-- One step is the same on both sides, given that the steps of the parts are. -/
theorem agree_step (hm : o.Kept m m') (fit : o.Fit m' s [] env) :
    o.comparison.Agree m m' o.comparison.values (s.code.step exec env) (s.step exec' env) := by
  obtain ⟨scopes, code⟩ := s
  have part {c : Code} (hc : ([], c) ∈ code.parts) :
      o.comparison.bodies m m' c env (Site.part ⟨scopes, code⟩ [] c) env :=
    ⟨rfl, rfl, fit.part hc⟩
  have run {c : Code} (hc : ([], c) ∈ code.parts) :
      o.comparison.Agree m m' o.comparison.values (exec c env)
        (exec' (Site.part ⟨scopes, code⟩ [] c) env) :=
    hexec m m' _ _ _ _ hm (part hc)
  have known {v : Value} (hv : v.Every o.Admits) : v.Every (o.Known m') := every_known hm.later hv
  -- Both sides take the same step, of parts that are labelled by themselves or by their scopes.
  rw [Code.step_eq_stepBy, Site.step]
  cases code with
  | literal v => exact agree_pure hm (values_iff.mpr ⟨rfl, known fit.given⟩)
  | name x => exact agree_lookup hm fit rfl
  | declare x c =>
      refine (run (by simp [Code.parts])).bind fun v v' n n' _ _ hn hv => ?_
      refine (agree_assign hn hv).bind fun _ _ k k' _ _ hk _ => ?_
      exact agree_pure hk (o.comparison.values_undefined k k')
  | select p c a =>
      exact agree_select hexec hm (part (by simp [Code.parts])) (part (by simp [Code.parts]))
        (part (by simp [Code.parts]))
  | close params locals body =>
      obtain ⟨hparams, hlocals, -⟩ := fit.given
      have inner : o.Fit m' (Site.part ⟨scopes, _⟩ [params ++ locals] body) [params ++ locals]
          env := fit.part (by simp [Code.parts])
      exact agree_close hm ⟨hparams.imp (known_of_admits hm.later),
        hlocals.imp (known_of_admits hm.later)⟩ inner
  | sequence cs =>
      refine agree_runStatements hexec hm (o.comparison.values_undefined m m') ?_
      refine List.forall₂_map_left_iff.mpr (List.forall₂_map_right_iff.mpr ?_)
      exact List.forall₂_same.mpr fun c hc => part (List.mem_map_of_mem hc)
  | enter locals body =>
      have inner : o.Fit m' (Site.part ⟨scopes, _⟩ [locals] body) [locals] env :=
        fit.part (by simp [Code.parts])
      refine (agree_enterScope hm inner).bind fun inner inner' n n' _ _ hn fit => ?_
      obtain ⟨rfl, fit⟩ := fit
      exact hexec n n' _ _ _ _ hn ⟨rfl, rfl, fit⟩
  | returning c =>
      exact (run (by simp [Code.parts])).bind fun v v' n n' _ _ hn hv => agree_mark hn hv
  | apply f xs =>
      refine (run (by simp [Code.parts])).bind fun g g' n n' later later' hn hg => ?_
      have operands : List.Forall₂ (fun x x' => o.comparison.bodies n n' x env x' env)
          (xs.map fun x => x) (xs.map (Site.part ⟨scopes, .apply f xs⟩ [])) := by
        refine List.forall₂_map_left_iff.mpr (List.forall₂_map_right_iff.mpr ?_)
        refine List.forall₂_same.mpr fun x hx => o.comparison.bodies_later later later' (part ?_)
        exact List.mem_cons_of_mem _ (List.mem_map_of_mem hx)
      refine (agree_runAll hexec hn operands).bind fun args args' k k' later later' hk hargs => ?_
      refine agree_call hexec hk (hg.later later later') hargs fun id params locals known inside => ?_
      simp only [comparison_ρ, Value.rename_same, Value.map_rename_same]
      exact agree_enterCall hk known inside

end Parts

/-- Runs of any depth agree with the watched ones, whatever the alarm. -/
theorem follows_watch (o : Scene) (alarm : Fault) (depth : Nat) :
    o.comparison.Follows (ConstLang.run depth)
      (Site.watch (Site.Fits o.program o.names · · ·) alarm depth) := by
  induction depth with
  | zero => exact fun m m' c env s env' hm _ => agree_throw hm rfl (by simp [Fault.kind])
  | succ depth ih =>
      rintro m m' _ _ s env hm ⟨rfl, rfl, fit⟩
      have quiet : Site.watch (Site.Fits o.program o.names · · ·) alarm (depth + 1) s env m' =
          s.step (Site.watch (Site.Fits o.program o.names · · ·) alarm depth) env m' := by
        rw [Site.watch, Eval.get_bind, if_pos fit.fits]
      rw [Agree, quiet]
      exact agree_step ih hm fit

end Scene
end ConstLang
