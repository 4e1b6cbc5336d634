import ConstLang.Proofs.Lexical.Run

/-!
Resolution of names. Wherever a part of a program runs, the frames of its environment are
those of the scopes around it in the text of the program, and then the global ones. A name
therefore means the same at every run of a reference to it: the slot of the nearest scope
that declares it.
-/

namespace ConstLang

open Eval

/-- The tree of a program, which runs as a block of its own. -/
abbrev programTree (program : Value) : Value := .node (Node.makeBlock program)

/-- The sites of a program, watched for any that is not lexical, and run as the program is. -/
noncomputable def watchProgram (alarm : Fault) (limit : Nat) (program : Value) (code : Code)
    (global : List (List Value)) (env : Env) : Eval Site Value := do
  let v ← guardDepth limit
    (Site.watch (Site.Fits (programTree program) global · · ·) alarm limit ⟨some [], code⟩ env)
  if v.isMarker then throw .strayReturn else return v

namespace Scene

open Comparison

variable {o : Scene} {m : Memory Code} {m' : Memory Site}

theorem agree_guardDepth {α α' : Type} {yields : Memory Code → Memory Site → α → α' → Prop}
    {act : Eval Code α} {act' : Eval Site α'} (h : o.comparison.Agree m m' yields act act')
    (limit : Nat) :
    o.comparison.Agree m m' yields (guardDepth limit act) (guardDepth limit act') := by
  simp only [Agree, guardDepth] at *
  generalize act m = r, act' m' = r' at h
  cases h with
  | ok later later' memories values => exact .ok later later' memories values
  | @error _ e n n' same expected memories =>
      obtain rfl := same.trans (Fault.rename_same _)
      by_cases deep : e = .mishap .stack
      · subst deep
        exact .error rfl (o.comparison.expects_of_kind (by simp [Fault.kind])) memories
      · have unchanged : o.comparison.Ended m m' yields (.error e n) (.error e n') :=
          .error (e.rename_same).symm expected memories
        simpa [deep] using unchanged
  | excused never => exact never.elim

theorem corresponds_of_agree {act : Eval Code Value} {act' : Eval Site Value}
    (h : o.comparison.Agree m m' o.comparison.values act act') :
    Corresponds Eq Eq SameCode (act m) (act' m') := by
  unfold Agree at h
  generalize act m = r, act' m' = r' at h
  cases h with
  | ok _ _ memories values => exact .ok (values_iff.mp values).1.symm memories.same
  | error faults _ memories => exact .error (faults.trans (Fault.rename_same _)).symm memories.same
  | excused never => exact never.elim

theorem explains_of_agree {act : Eval Code Value} {act' : Eval Site Value} {e : Fault}
    {n : Memory Code} (h : o.comparison.Agree m m' o.comparison.values act act')
    (failed : act m = .error e n) : o.Explains e := by
  rw [Agree, failed] at h
  generalize act' m' = r' at h
  cases h with
  | error _ expected _ => exact expected
  | excused never => exact never.elim

/-- The run of a program agrees with the watched run of its sites. -/
theorem agree_program {program : Value} (tree : o.program = programTree program) {code : Code}
    (analyzed : (programTree program).analyze = .ok code) (alarm : Fault) (limit : Nat) :
    o.comparison.Agree o.base o.base.unplaced o.comparison.values
      (runProgram limit program o.global)
      (watchProgram alarm limit program code o.names o.global) := by
  have evaluated : evaluate limit (programTree program) o.global = run limit code o.global := by
    rw [evaluate, analyzed, ofExcept_ok, pure_bind]
  have body := o.follows_watch alarm limit _ _ _ _ _ _ o.kept_start
    ⟨rfl, rfl, o.fit_start (tree ▸ analyzed)⟩
  rw [runProgram, watchProgram, evaluated, ← tree]
  refine (agree_guardDepth body limit).bind fun v v' n n' _ _ hn hv => ?_
  rw [hv.isMarker_eq]
  split
  · exact agree_throw hn rfl (by simp [Fault.kind])
  · exact agree_pure hn hv

end Scene

namespace Sample

/-- A global frame with one constant. -/
def shelf : Memory Code := (({} : Memory Code).push ⟨[(.text "k", some (.int 7))]⟩ []).2

/-- A function is declared that returns `k` or `z`, and called; nothing declares `z`. -/
def missing : Value :=
  .node (.sequence (.tuple [
    .node (.declaration (.text "f") (.node (.function (.tuple [.text "k"])
      (.node (.returning (.node (.conditional (.node (.name "k")) (.node (.name "k"))
        (.node (.name "z"))))))))),
    .node (.application (.node (.name "f")) (.tuple [.node (.literal (.int 1))]))]))

def missingCode : Code :=
  .enter [.text "f"] (.sequence [
    .declare (.text "f") (.close [.text "k"] []
      (.returning (.select (.name "k") (.name "k") (.name "z")))),
    .apply (.name "f") [.literal (.int 1)]])

end Sample

end ConstLang
