import ConstLang.Proofs.Isolation
import ConstLang.Proofs.Regular
import ConstLang.Proofs.Value.Every

/-!
Placement of declarations. Where every declaration of a program is a direct statement
of some scope, the names that a scope has slots for are the names that its body
declares, each once. So every declaration that runs finds its slot, unassigned: no
other code fills it, because code fills slots of its own frame only.
-/

namespace ConstLang

mutual

/-- Whether every declaration in a tree, or in a list of trees, is a direct statement of a scope;
the flag tells whether it stands itself where the statements of a scope do. -/
def Value.placed (direct : Bool) : Value → Bool
  | .node n => n.placed direct
  | .list vs | .tuple vs => placedAll direct vs
  | _ => true

def Node.placed (direct : Bool) : Node → Bool
  | .literal _ | .name _ => true
  | .declaration _ v => direct && v.placed false
  | .conditional p c a => p.placed false && c.placed false && a.placed false
  | .function _ b | .block b => b.placed true
  | .sequence ss => ss.placed direct
  | .returning e => e.placed false
  | .application f xs => f.placed false && xs.placed false

def placedAll (direct : Bool) : List Value → Bool
  | [] => true
  | v :: vs => v.placed direct && placedAll direct vs

end

theorem placedAll_iff {direct : Bool} {vs : List Value} :
    placedAll direct vs ↔ ∀ v ∈ vs, v.placed direct := by
  induction vs with
  | nil => simp [placedAll]
  | cons v vs ih => simp [placedAll, ih]

mutual

/-- Code in which every scope has slots for the names that its body declares, all different, and for
no others but the parameters. -/
def Code.Tidy : Code → Prop
  | .literal v => v.isScalar ∨ v = .undefined
  | .name _ => True
  | .declare _ c | .returning c => c.Tidy
  | .select p c a => p.Tidy ∧ c.Tidy ∧ a.Tidy
  | .close params locals body => body.Tidy ∧ body.writes = locals ∧ Names (params ++ locals)
  | .enter locals body => body.Tidy ∧ body.writes = locals ∧ Names locals
  | .sequence cs => TidyAll cs
  | .apply f xs => f.Tidy ∧ TidyAll xs

def TidyAll : List Code → Prop
  | [] => True
  | c :: cs => c.Tidy ∧ TidyAll cs

end

theorem Code.writes_ofStatements (cs : List Code) : (ofStatements cs).writes = writesAll cs := by
  match cs with
  | [] => rfl
  | [c] => simp [ofStatements, writesAll]
  | _ :: _ :: _ => rfl

theorem Code.tidy_ofStatements {cs : List Code} (h : TidyAll cs) : (ofStatements cs).Tidy := by
  match cs with
  | [] => exact .inr rfl
  | [c] => exact h.1
  | _ :: _ :: _ => exact h

/-- What code makes of the placement of a tree: it is tidy, and the names it declares are those of
the scope, or none where no statement of a scope stands. -/
structure Code.Suits (c : Code) (direct : Bool) (v : Value) : Prop where
  tidy : c.Tidy
  inert : direct = false → c.writes = []
  writes : ∀ names, v.localNames = .ok names → c.writes = names

/-- The same of the code of a list of trees. -/
theorem suits_all {direct : Bool} {vs : List Value} {cs : List Code}
    (hcs : List.Forall₂ (fun v c => v.analyze = .ok c) vs cs)
    (h : ∀ v ∈ vs, ∀ c, v.analyze = .ok c → c.Suits direct v) :
    TidyAll cs ∧ (direct = false → writesAll cs = []) ∧
      ∀ names, localNamesAll vs = .ok names → writesAll cs = names := by
  induction hcs with
  | nil =>
      refine ⟨trivial, fun _ => rfl, fun names hn => ?_⟩
      cases hn
      rfl
  | @cons v c vs cs hc _ ih =>
      have first := h v List.mem_cons_self c hc
      have rest := ih fun w hw => h w (List.mem_cons_of_mem _ hw)
      refine ⟨⟨first.tidy, rest.1⟩, fun hd => ?_, fun names hn => ?_⟩
      · simp [writesAll, first.inert hd, rest.2.1 hd]
      · simp only [localNamesAll, except_bind_eq_ok] at hn
        obtain ⟨others, hothers, own, hown, hall⟩ := hn
        rw [writesAll, first.writes own hown, rest.2.2 others hothers, insertAll_eq_append hall]

/-- The parameters of a function that was read are its texts, and clash neither with each other nor
with the names of the body. -/
theorem names_of_function {xs : List String} {b : Value} {params locals both : List Value}
    (hb : Regular b) (hp : (Value.tuple (xs.map .text)).paramNames = .ok params)
    (hl : b.localNames = .ok locals) (hboth : insertAll params locals = .ok both) :
    Names (params ++ locals) := by
  have hp' : insertAll (xs.map .text) [] = .ok params := hp
  have texts : ∀ x ∈ params, ∃ s, x = .text s := by
    rw [insertAll_eq_append hp']
    simp
  rw [← insertAll_eq_append hboth]
  exact names_insertAll hboth texts (hb.names_localNames hl)

theorem Regular.suits {v : Value} (h : Regular v) {direct : Bool} {c : Code}
    (placed : v.placed direct) (hc : v.analyze = .ok c) : c.Suits direct v := by
  induction h generalizing direct c with
  | literal hv =>
      cases hc
      exact ⟨.inl hv, fun _ => rfl, fun names h => by cases h; rfl⟩
  | name x =>
      cases hc
      exact ⟨trivial, fun _ => rfl, fun names h => by cases h; rfl⟩
  | declaration x hv ih =>
      obtain ⟨c', hc', rfl⟩ := Node.analyze_declaration_eq_ok.mp hc
      simp only [Value.placed, Node.placed, Bool.and_eq_true] at placed
      have value := ih placed.2 hc'
      refine ⟨value.tidy, fun hd => ?_, fun names h => ?_⟩
      · simp [hd] at placed
      · cases h
        simp [Code.writes, value.inert rfl]
  | conditional hp ht hf ihp iht ihf =>
      obtain ⟨p', t', f', hp', ht', hf', rfl⟩ := Node.analyze_conditional_eq_ok.mp hc
      simp only [Value.placed, Node.placed, Bool.and_eq_true] at placed
      have p := ihp placed.1.1 hp'
      have t := iht placed.1.2 ht'
      have f := ihf placed.2 hf'
      have none : (Code.select p' t' f').writes = [] := by
        simp [Code.writes, p.inert rfl, t.inert rfl, f.inert rfl]
      exact ⟨⟨p.tidy, t.tidy, f.tidy⟩, fun _ => none, fun names h => by cases h; exact none⟩
  | function xs hb ih =>
      obtain ⟨params, locals, both, body, hp, hl, hi, hb', rfl⟩ :=
        Node.analyze_function_eq_ok.mp hc
      have inner : body.Suits true _ := ih placed hb'
      refine ⟨⟨inner.tidy, inner.writes locals hl, names_of_function hb hp hl hi⟩,
        fun _ => rfl, fun names h => by cases h; rfl⟩
  | @sequence ss hs ih =>
      obtain ⟨vs, cs, hv, hcs, rfl⟩ := Node.analyze_sequence_eq_ok.mp hc
      cases hv
      have each : ∀ v ∈ ss, v.placed direct := placedAll_iff.mp placed
      have all := suits_all hcs fun v hv c => ih v hv (each v hv)
      refine ⟨Code.tidy_ofStatements all.1, fun hd => ?_, fun names h => ?_⟩
      · rw [Code.writes_ofStatements, all.2.1 hd]
      · rw [Code.writes_ofStatements, all.2.2 names h]
  | block hb ih =>
      obtain ⟨locals, body, hl, hb', rfl⟩ := Node.analyze_block_eq_ok.mp hc
      have inner : body.Suits true _ := ih placed hb'
      exact ⟨⟨inner.tidy, inner.writes locals hl, hb.names_localNames hl⟩, fun _ => rfl,
        fun names h => by cases h; rfl⟩
  | returning he ih =>
      obtain ⟨c', hc', rfl⟩ := Node.analyze_returning_eq_ok.mp hc
      have inner : c'.Suits false _ := ih placed hc'
      exact ⟨inner.tidy, fun _ => inner.inert rfl, fun names h => by cases h; exact inner.inert rfl⟩
  | @application f xs hf hx ihf ihx =>
      obtain ⟨f', vs, cs, hf', hv, hcs, rfl⟩ := Node.analyze_application_eq_ok.mp hc
      cases hv
      simp only [Value.placed, Node.placed, Bool.and_eq_true] at placed
      have called := ihf placed.1 hf'
      have each : ∀ x ∈ xs, x.placed false := placedAll_iff.mp placed.2
      have all := suits_all hcs fun x hx c => ihx x hx (each x hx)
      have none : (Code.apply f' cs).writes = [] := by
        simp [Code.writes, called.inert rfl, all.2.1 rfl]
      exact ⟨⟨called.tidy, all.1⟩, fun _ => none, fun names h => by cases h; exact none⟩

end ConstLang
