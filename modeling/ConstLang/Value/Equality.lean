import ConstLang.Value.Basic

/-!
Two equalities. `same` compares numbers by value across kinds, truth values
included, and collections and trees part by part; it decides whether two names
are one, and a NaN is the same as itself. `strictEqual` is the equality of
programs, where a truth value equals no number and a NaN not even itself, though a
collection that holds it equals itself. Both compare functions, primitives and
markers by identity, and collections and trees to any depth, whatever the stack of
the host would bear.
-/

namespace ConstLang

mutual

def Value.same : Value → Value → Bool
  | .null, .null | .undefined, .undefined | .uninitialized, .uninitialized => true
  | .nan i, .nan j => i == j
  | .text s, .text t => s == t
  | .list xs, .list ys | .tuple xs, .tuple ys => sameItems xs ys
  | .dict xs, .dict ys => xs.length == ys.length && sameEntries xs ys
  | .node m, .node n => m.same n
  | .operation f, .operation g => f == g
  | .primitive i _ _, .primitive j _ _ | .function i _ _, .function j _ _
  | .marker i _, .marker j _ => i == j
  | x, y =>
      match x.number?, y.number? with
      | some a, some b => a.equal b
      | _, _ => false
termination_by structural x => x

def sameItems : List Value → List Value → Bool
  | [], [] => true
  | x :: xs, y :: ys => x.same y && sameItems xs ys
  | _, _ => false
termination_by structural xs => xs

/-- Every entry has an entry of the same key and value on the other side, in any order. -/
def sameEntries : List (Value × Value) → List (Value × Value) → Bool
  | [], _ => true
  | (k, x) :: xs, ys => ys.any (fun e => k.same e.1 && x.same e.2) && sameEntries xs ys
termination_by structural xs => xs

def Node.same : Node → Node → Bool
  | .literal v, .literal w => v.same w
  | .name x, .name y => x == y
  | .declaration x v, .declaration y w => x.same y && v.same w
  | .conditional p c a, .conditional p' c' a' => p.same p' && c.same c' && a.same a'
  | .function ps b, .function ps' b' => ps.same ps' && b.same b'
  | .sequence ss, .sequence ss' => ss.same ss'
  | .block b, .block b' => b.same b'
  | .returning e, .returning e' => e.same e'
  | .application f xs, .application f' xs' => f.same f' && xs.same xs'
  | _, _ => false
termination_by structural m => m

end

mutual

/-- Whether a value can be a name or an element of a set: lists and dictionaries cannot, nor can what
is made of them. -/
def Value.hashable : Value → Bool
  | .list _ | .dict _ => false
  | .tuple xs => hashableItems xs
  | .node n => n.hashable
  | _ => true

def hashableItems : List Value → Bool
  | [] => true
  | x :: xs => x.hashable && hashableItems xs

def Node.hashable : Node → Bool
  | .literal v => v.hashable
  | .name _ => true
  | .declaration x v => x.hashable && v.hashable
  | .conditional p c a => p.hashable && c.hashable && a.hashable
  | .function ps b => ps.hashable && b.hashable
  | .sequence ss => ss.hashable
  | .block b => b.hashable
  | .returning e => e.hashable
  | .application f xs => f.hashable && xs.hashable

end

namespace Value

def strictEqual : Value → Value → Bool
  | .bool a, .bool b => a == b
  | .bool _, _ | _, .bool _ | .nan _, _ => false
  | x, y => x.same y

@[simp] theorem hashable_text (x : String) : (text x).hashable = true := rfl

/-- Only a text is the same as a text, and only the equal one. -/
theorem same_text (k : Value) (x : String) : k.same (.text x) = true ↔ k = .text x := by
  cases k <;> simp [same, number?]

end Value
end ConstLang
