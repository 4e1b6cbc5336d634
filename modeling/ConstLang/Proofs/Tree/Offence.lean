import Mathlib.Data.List.Lex
import ConstLang.Proofs.Regular

/-!
Parts of tagged trees that are out of form. A part stands in a role, which tells what form it must
have and in which roles its own parts stand. The place of a part is the list of the positions that
lead to it, so that the order of places is the order in which a tree is gone through: depth first,
from left to right, each part before its own parts.
-/

namespace ConstLang

/-- What a part of a tagged tree is to be read as. -/
inductive Role
  | tree
  | name
  | trees
  | names
  deriving DecidableEq, Repr

structure Part where
  role : Role
  value : Value

/-- The fields of a tag in their roles, if they are as many as the tag has. The only field of a name
is its text. -/
def Tag.fields : Tag → List Value → Option (List Part)
  | .name, [.text _] => some []
  | .declaration, [x, v] => some [⟨.name, x⟩, ⟨.tree, v⟩]
  | .conditional, [p, c, a] => some [⟨.tree, p⟩, ⟨.tree, c⟩, ⟨.tree, a⟩]
  | .function, [ps, b] => some [⟨.names, ps⟩, ⟨.tree, b⟩]
  | .sequence, [ss] => some [⟨.trees, ss⟩]
  | .block, [b] => some [⟨.tree, b⟩]
  | .returning, [e] => some [⟨.tree, e⟩]
  | .application, [f, xs] => some [⟨.tree, f⟩, ⟨.trees, xs⟩]
  | _, _ => none

/-- The fields of a list of a tag and fields. -/
def taggedFields : List Value → Option (List Part)
  | .text t :: fields => (Tag.ofText? t).bind (·.fields fields)
  | _ => none

/-- A text, or a name with its tag. -/
def Value.isName : Value → Bool
  | .text _ => true
  | .list [.text t, .text _] | .tuple [.text t, .text _] => t == Tag.name.text
  | _ => false

namespace Part

/-- The parts that a part is made of, unless it is out of form itself. -/
def parts? : Part → Option (List Part)
  | ⟨.tree, .list xs⟩ | ⟨.tree, .tuple xs⟩ => taggedFields xs
  | ⟨.tree, v⟩ => if v.isScalar then some [] else none
  | ⟨.name, v⟩ => if v.isName then some [] else none
  | ⟨.trees, v⟩ => v.iterate.toOption.map (·.map (⟨.tree, ·⟩))
  | ⟨.names, v⟩ => v.iterate.toOption.map (·.map (⟨.name, ·⟩))

/-- The part is out of form. -/
def Offends (p : Part) : Prop := p.parts? = none

instance (p : Part) : Decidable p.Offends := inferInstanceAs (Decidable (p.parts? = none))

/-- The part at a place. -/
def at? : Part → List Nat → Option Part
  | p, [] => some p
  | p, i :: place => ((p.parts?.getD [])[i]?).bind (·.at? place)

/-- The first part out of form, in the order of places. -/
def FirstOffence (whole p : Part) : Prop :=
  ∃ place, whole.at? place = some p ∧ p.Offends ∧
    ∀ earlier, List.Lex (· < ·) earlier place → ∀ q, whole.at? earlier = some q → ¬ q.Offends

/-- The fault that a part out of form is reported with. A collection cannot be gone through, and is
not named. -/
def fault (p : Part) : Fault :=
  match p.role with
  | .tree | .name => .unknownNode p.value
  | .trees | .names => .mishap .kind

/-- No part is out of form. -/
def Clean (p : Part) : Prop := ∀ place q, p.at? place = some q → ¬ q.Offends

variable {p q : Part} {ps : List Part}

theorem at?_cons (h : p.parts? = some ps) (i : Nat) (place : List Nat) :
    p.at? (i :: place) = (ps[i]?).bind (·.at? place) := by
  rw [at?, h, Option.getD_some]

theorem not_offends (h : p.parts? = some ps) : ¬ p.Offends := by
  simp [Offends, h]

theorem clean_of_parts (h : p.parts? = some ps) (each : ∀ q ∈ ps, q.Clean) : p.Clean := by
  intro place r found
  cases place with
  | nil =>
      cases found
      exact not_offends h
  | cons i place =>
      rw [at?_cons h] at found
      obtain ⟨q, hq, found⟩ := Option.bind_eq_some_iff.mp found
      exact each q (List.mem_of_getElem? hq) place r found

theorem firstOffence_self (h : p.Offends) : p.FirstOffence p := by
  refine ⟨[], rfl, h, ?_⟩
  intro earlier before
  cases before

/-- What is out of form below a part, where what stands before it is clean. -/
theorem FirstOffence.of_parts (before after : List Part) {o : Part}
    (h : p.parts? = some (before ++ q :: after)) (clean : ∀ b ∈ before, b.Clean)
    (first : q.FirstOffence o) : p.FirstOffence o := by
  obtain ⟨place, found, offends, earliest⟩ := first
  have here : (before ++ q :: after)[before.length]? = some q := by simp
  refine ⟨before.length :: place, ?_, offends, ?_⟩
  · rw [at?_cons h, here, Option.bind_some, found]
  · intro earlier sooner r there
    cases sooner with
    | nil =>
        cases there
        exact not_offends h
    | @cons _ earlier _ sooner =>
        rw [at?_cons h, here, Option.bind_some] at there
        exact earliest earlier sooner r there
    | @rel i earlier _ _ less =>
        rw [at?_cons h] at there
        obtain ⟨b, hb, there⟩ := Option.bind_eq_some_iff.mp there
        rw [List.getElem?_append_left less] at hb
        exact clean b (List.mem_of_getElem? hb) earlier r there

/-- There is one first part out of form at most. -/
theorem FirstOffence.unique {o o' : Part} (h : p.FirstOffence o) (h' : p.FirstOffence o') :
    o' = o := by
  obtain ⟨place, found, offends, earliest⟩ := h
  obtain ⟨place', found', offends', earliest'⟩ := h'
  have same : place = place' := by
    rcases trichotomous_of (List.Lex (· < ·)) place place' with sooner | same | later
    · exact absurd offends (earliest' place sooner o found)
    · exact same
    · exact absurd offends' (earliest place' later o' found')
  rw [same] at found
  exact Option.some.inj (found'.symm.trans found)

end Part
end ConstLang
