import ConstLang.Form
import ConstLang.Proofs.Renaming.Run

/-!
Built values under a renaming. A form that takes nothing from the store builds the
same value up to identities wherever it is built. What is built from an empty memory
has only identities that were given out on the way.
-/

namespace ConstLang

mutual

/-- Whether a form takes nothing that was stored. -/
def Form.free : Form → Bool
  | .stored _ => false
  | .list fs | .tuple fs | .node _ fs | .made _ fs => freeAll fs
  | .dict es => freeEntries es
  | .primitive _ f | .marker f | .tagged f => f.free
  | .scalar _ | .integer _ | .float _ | .standard _ => true

def freeAll : List Form → Bool
  | [] => true
  | f :: fs => f.free && freeAll fs

def freeEntries : List (String × Form) → Bool
  | [] => true
  | (_, f) :: es => f.free && freeEntries es

end

section Rename

variable (ρ : Renaming)

theorem Scalar.value_rename (s : Scalar) : s.value.rename ρ = s.value := by
  cases s <;> rfl

theorem putEntry_rename (key : String) (v : Value) (es : List (String × Value)) :
    putEntry key (v.rename ρ) (renameTable ρ es) = renameTable ρ (putEntry key v es) := by
  induction es with
  | nil => rfl
  | cons e es ih =>
      simp only [renameTable_cons, putEntry]
      split
      · rfl
      · rw [ih, renameTable_cons]

/-- The entries of a dictionary, renamed before or after they are put together. -/
theorem foldl_putEntry_rename (es acc : List (String × Value)) :
    (renameTable ρ es).foldl (fun d e => putEntry e.1 e.2 d) (renameTable ρ acc) =
      renameTable ρ (es.foldl (fun d e => putEntry e.1 e.2 d) acc) := by
  induction es generalizing acc with
  | nil => rfl
  | cons e es ih =>
      rw [renameTable_cons, List.foldl_cons, putEntry_rename, ih, List.foldl_cons]

theorem ofEntries_rename (es : List (String × Value)) :
    Value.ofEntries (renameTable ρ es) = (Value.ofEntries es).rename ρ := by
  simp [Value.ofEntries, renameTable]

theorem standard_lookup_rename {name : String} {v : Value}
    (h : Table.standard.lookup name = some v) : v.rename ρ = v := by
  have fixed : renameTable ρ Table.standard = Table.standard := rfl
  have found := lookup_renameTable ρ name Table.standard
  rw [fixed, h] at found
  exact (Option.some.inj found).symm

end Rename

namespace Eval

variable {ρ : Renaming}

theorem mirrors_readNumber (n : Option Number) :
    Mirrors ρ (Value.rename ρ) (readNumber n) (readNumber n) := by
  cases n with
  | none => exact mirrors_throw rfl
  | some n =>
      exact mirrors_fresh.bind fun id => mirrors_pure (Value.rename_ofNumber ρ id n).symm

theorem mirrors_bindNew (name v : Value) :
    Mirrors ρ (Value.rename ρ) (bindNew name v) (bindNew (name.rename ρ) (v.rename ρ)) :=
  mirrors_fresh.bind fun id => mirrors_pure (v.bindTo_rename ρ id name)

theorem mirrors_standardEntry (name : String) :
    Mirrors ρ (Value.rename ρ) (standardEntry name) (standardEntry name) := by
  unfold standardEntry
  split
  · rename_i v found
    have bound : Mirrors ρ _ _ _ := mirrors_bindNew (.text name) v
    rwa [standard_lookup_rename ρ found] at bound
  · exact mirrors_throw rfl

mutual

theorem mirrors_build (stored stored' : String → Except Mishap Value) : ∀ f : Form, f.free →
    Mirrors ρ (Value.rename ρ) (f.build stored) (f.build stored')
  | .scalar s, _ => mirrors_pure (s.value_rename ρ).symm
  | .integer _, _ | .float _, _ => mirrors_readNumber _
  | .list fs, h | .tuple fs, h =>
      (mirrors_buildAll stored stored' fs h).bind fun xs => mirrors_pure (by simp)
  | .dict es, h =>
      (mirrors_buildEntries stored stored' es h).bind fun es => mirrors_pure <| by
        rw [← ofEntries_rename, ← foldl_putEntry_rename]
        rfl
  | .standard name, _ => mirrors_standardEntry name
  | .primitive op f, h =>
      (mirrors_build stored stored' f h).bind fun name => mirrors_bindNew name (.operation op)
  | .marker f, h =>
      (mirrors_build stored stored' f h).bind fun content =>
        mirrors_fresh.bind fun id => mirrors_pure rfl
  | .tagged f, h =>
      (mirrors_build stored stored' f h).bind fun tree =>
        (mirrors_ofExcept (tree.read_rename ρ)).bind fun n => mirrors_pure rfl
  | .node kind fs, h =>
      (mirrors_buildAll stored stored' fs h).bind fun xs =>
        (mirrors_ofMishap (kind.build_rename ρ xs)).bind fun n => mirrors_pure rfl
  | .made c fs, h =>
      (mirrors_buildAll stored stored' fs h).bind fun xs =>
        (mirrors_ofMishap (c.make_rename ρ xs)).bind fun n => mirrors_pure rfl

theorem mirrors_buildAll (stored stored' : String → Except Mishap Value) : ∀ fs : List Form,
    freeAll fs → Mirrors ρ (List.map (Value.rename ρ)) (buildAll stored fs) (buildAll stored' fs)
  | [], _ => mirrors_pure rfl
  | f :: fs, h => by
      simp only [freeAll, Bool.and_eq_true] at h
      exact (mirrors_build stored stored' f h.1).bind fun v =>
        (mirrors_buildAll stored stored' fs h.2).bind fun vs => mirrors_pure rfl

theorem mirrors_buildEntries (stored stored' : String → Except Mishap Value) :
    ∀ es : List (String × Form), freeEntries es →
      Mirrors ρ (renameTable ρ) (buildEntries stored es) (buildEntries stored' es)
  | [], _ => mirrors_pure rfl
  | (_, f) :: es, h => by
      simp only [freeEntries, Bool.and_eq_true] at h
      exact (mirrors_build stored stored' f h.1).bind fun v =>
        (mirrors_buildEntries stored stored' es h.2).bind fun vs => mirrors_pure rfl

end

end Eval

/-- The renamings that leave the first identities as they are. -/
def Renaming.Keeps (ρ : Renaming) (n : Nat) : Prop := ∀ i < n, ρ.identity i = i

/-- What has no function in it and no identity beyond the first ones. -/
def Settled {α : Type} (on : Renaming → α → α) (n : Nat) (a : α) : Prop :=
  ∀ ρ : Renaming, ρ.Keeps n → on ρ a = a

theorem Settled.mono {α : Type} {on : Renaming → α → α} {n n' : Nat} {a : α}
    (h : Settled on n a) (hn : n ≤ n') : Settled on n' a :=
  fun ρ keeps => h ρ fun i hi => keeps i (Nat.lt_of_lt_of_le hi hn)

namespace Eval

variable {α γ : Type} {on : Renaming → α → α} {on' : Renaming → γ → γ} {n : Nat}

/-- A computation that gives out identities and does nothing else to memory, and whose value has no
others. -/
def Makes (n : Nat) (on : Renaming → α → α) (act : Eval Code α) : Prop :=
  ∀ m : Memory Code, n ≤ m.serial →
    act.Ends m (fun a m' => (∃ k, m' = { m with serial := m.serial + k }) ∧ Settled on m'.serial a)
      (fun _ _ => True)

theorem makes_pure {a : α} (h : Settled on n a) : Makes n on (pure a) :=
  fun _ hn => ⟨⟨0, rfl⟩, h.mono hn⟩

theorem makes_throw (e : Fault) : Makes n on (throw e) := fun _ _ => trivial

theorem Makes.bind {act : Eval Code α} {next : α → Eval Code γ} (h : Makes n on act)
    (hnext : ∀ a n', n ≤ n' → Settled on n' a → Makes n' on' (next a)) :
    Makes n on' (act >>= next) := by
  intro m hn
  refine (h m hn).bind ?_
  rintro a _ ⟨⟨k, rfl⟩, settled⟩
  refine (hnext a (m.serial + k) (by omega) settled _ (Nat.le_refl _)).mono ?_
  rintro c _ ⟨⟨k', rfl⟩, settled'⟩
  exact ⟨⟨k + k', by simp [Nat.add_assoc]⟩, settled'⟩

theorem makes_fresh : Makes n Renaming.identity fresh :=
  fun m _ => ⟨⟨1, rfl⟩, fun _ keeps => keeps m.serial (Nat.lt_succ_self _)⟩

theorem makes_ofExcept (on : Renaming → α → α) {r : Except Fault α}
    (h : ∀ ρ, Renaming.Keeps ρ n → r = ρ.result (on ρ) r) : Makes n on (ofExcept r) := by
  cases r with
  | error e => exact makes_throw e
  | ok a => exact makes_pure fun ρ keeps => (Except.ok.inj (h ρ keeps)).symm

theorem makes_ofMishap (on : Renaming → α → α) {r : Except Mishap α}
    (h : ∀ ρ, Renaming.Keeps ρ n → r = r.map (on ρ)) : Makes n on (ofMishap r) := by
  cases r with
  | error e => exact makes_throw _
  | ok a => exact makes_pure fun ρ keeps => (Except.ok.inj (h ρ keeps)).symm

theorem makes_readNumber (number : Option Number) : Makes n Value.rename (readNumber number) := by
  cases number with
  | none => exact makes_throw _
  | some number =>
      refine makes_fresh.bind fun id n' _ hid => makes_pure fun ρ keeps => ?_
      rw [Value.rename_ofNumber, hid ρ keeps]

theorem makes_bindNew {name v : Value} (hname : Settled Value.rename n name)
    (hv : Settled Value.rename n v) : Makes n Value.rename (bindNew name v) := by
  refine makes_fresh.bind fun id n' hn hid => makes_pure fun ρ keeps => ?_
  rw [← v.bindTo_rename ρ, hid ρ keeps, hname.mono hn ρ keeps, hv.mono hn ρ keeps]

theorem makes_standardEntry (name : String) : Makes n Value.rename (standardEntry name) := by
  unfold standardEntry
  split
  · rename_i v found
    exact makes_bindNew (fun _ _ => rfl) fun ρ _ => standard_lookup_rename ρ found
  · exact makes_throw _

/-- The store that has nothing in it. -/
def nothing : String → Except Mishap Value := fun _ => .error .missing

mutual

theorem makes_build : ∀ (f : Form) (n : Nat), Makes n Value.rename (f.build nothing)
  | .scalar s, _ => makes_pure fun ρ _ => s.value_rename ρ
  | .integer _, _ | .float _, _ => makes_readNumber _
  | .list fs, n =>
      (makes_buildAll fs n).bind fun xs _ _ hxs =>
        makes_pure fun ρ keeps => congrArg Value.list (hxs ρ keeps)
  | .tuple fs, n =>
      (makes_buildAll fs n).bind fun xs _ _ hxs =>
        makes_pure fun ρ keeps => congrArg Value.tuple (hxs ρ keeps)
  | .dict es, n =>
      (makes_buildEntries es n).bind fun es _ _ hes => makes_pure fun ρ keeps => by
        have folded := foldl_putEntry_rename ρ es []
        rw [hes ρ keeps] at folded
        rw [← ofEntries_rename, ← folded]
        rfl
  | .stored _, _ => makes_throw _
  | .standard name, _ => makes_standardEntry name
  | .primitive op f, n =>
      (makes_build f n).bind fun name _ _ hname => makes_bindNew hname fun _ _ => rfl
  | .marker f, n =>
      (makes_build f n).bind fun content _ _ hcontent =>
        makes_fresh.bind fun id _ hn hid => makes_pure fun ρ keeps => by
          simp [hid ρ keeps, hcontent.mono hn ρ keeps]
  | .tagged f, n =>
      (makes_build f n).bind fun tree _ _ htree =>
        (makes_ofExcept Node.rename fun ρ keeps => by
          rw [← tree.read_rename ρ, htree ρ keeps]).bind fun node _ _ hnode =>
            makes_pure fun ρ keeps => by simp [hnode ρ keeps]
  | .node kind fs, n =>
      (makes_buildAll fs n).bind fun xs _ _ hxs =>
        (makes_ofMishap Node.rename fun ρ keeps => by
          rw [← kind.build_rename ρ, ← renameItems_eq_map, hxs ρ keeps]).bind fun node _ _ hnode =>
            makes_pure fun ρ keeps => by simp [hnode ρ keeps]
  | .made c fs, n =>
      (makes_buildAll fs n).bind fun xs _ _ hxs =>
        (makes_ofMishap Node.rename fun ρ keeps => by
          rw [← c.make_rename ρ, ← renameItems_eq_map, hxs ρ keeps]).bind fun node _ _ hnode =>
            makes_pure fun ρ keeps => by simp [hnode ρ keeps]

theorem makes_buildAll : ∀ (fs : List Form) (n : Nat),
    Makes n renameItems (buildAll nothing fs)
  | [], _ => makes_pure fun _ _ => rfl
  | f :: fs, n =>
      (makes_build f n).bind fun v n' _ hv =>
        (makes_buildAll fs n').bind fun vs _ hn hvs => makes_pure fun ρ keeps => by
          rw [renameItems, hv.mono hn ρ keeps, hvs ρ keeps]

theorem makes_buildEntries : ∀ (es : List (String × Form)) (n : Nat),
    Makes n renameTable (buildEntries nothing es)
  | [], _ => makes_pure fun _ _ => rfl
  | (key, f) :: es, n =>
      (makes_build f n).bind fun v n' _ hv =>
        (makes_buildEntries es n').bind fun vs _ hn hvs => makes_pure fun ρ keeps => by
          rw [renameTable_cons, hv.mono hn ρ keeps, hvs ρ keeps]

end

end Eval

end ConstLang
