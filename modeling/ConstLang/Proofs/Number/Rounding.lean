import ConstLang.Number.Decimal
import ConstLang.Proofs.Number.Units

/-!
Rounding of fractions and decimals to doubles. Only the value of a fraction counts, not the way in
which it is written, so that zeros may be added to a decimal; and a double that is written exactly
is read as itself. Whichever decimal is chosen for a double is therefore read as it.
-/

namespace ConstLang

namespace Double

theorem nearest_mul_right (a b : Nat) {c : Nat} (h : 0 < c) :
    nearest (a * c) (b * c) = nearest a b := by
  have below : 2 * (a % b * c) < b * c ↔ 2 * (a % b) < b := by
    rw [← Nat.mul_assoc, Nat.mul_lt_mul_right h]
  have above : b * c < 2 * (a % b * c) ↔ b < 2 * (a % b) := by
    rw [← Nat.mul_assoc, Nat.mul_lt_mul_right h]
  simp only [nearest, Nat.mul_div_mul_right a b h, Nat.mul_mod_mul_right, below, above]

theorem nearest_one (n : Nat) : nearest n 1 = n := by
  simp [nearest, Nat.mod_one]

section Fractions

variable {num den num' den' : Nat}

theorem nearest_congr (same : num * den' = num' * den) (pos : 0 < den) (pos' : 0 < den') :
    nearest num den = nearest num' den' := by
  rw [← nearest_mul_right num den pos', same, Nat.mul_comm den den', nearest_mul_right _ _ pos]

/-- Equal fractions are rounded to the same double. -/
theorem round_congr (s : Bool) (same : num * den' = num' * den) (pos : 0 < den)
    (pos' : 0 < den') : round s num den = round s num' den' := by
  have quotient : num / den = num' / den' := by
    rw [← Nat.mul_div_mul_right num den pos', same, Nat.mul_comm den den',
      Nat.mul_div_mul_right num' den' pos]
  have scaled (k : Nat) : nearest num (den * Nat.pow 2 k) = nearest num' (den' * Nat.pow 2 k) := by
    have one := Nat.two_pow_pos k
    refine nearest_congr ?_ (Nat.mul_pos pos one) (Nat.mul_pos pos' one)
    rw [← Nat.mul_assoc, ← Nat.mul_assoc, same]
  simp only [round, quotient, scaled]

end Fractions

/-- A count of units is not rounded. -/
theorem round_units (s : Bool) (e : Exponent) (f : Fraction) {den : Nat} (pos : 0 < den) :
    round s (units e f * den) den = .finite s e f := by
  obtain ⟨q, last⟩ := units_eq_mul e f
  have reduced : round s (units e f * den) den = round s (units e f) 1 :=
    round_congr s (Nat.mul_one _) pos Nat.one_pos
  rw [reduced, round, Nat.div_one, Nat.one_mul, Nat.pow_eq]
  generalize (units e f).log2 - 52 = k at last
  have one := Nat.two_pow_pos k
  have whole : nearest (units e f) (2 ^ k) = nearest q 1 :=
    nearest_congr (by rw [last, Nat.mul_one]) one Nat.one_pos
  have kept : nearest (units e f) (2 ^ k) = q := whole.trans (nearest_one q)
  rw [kept, ← last, ofUnits_units]

end Double

namespace Decimal

theorem length_repr_mul_ten {q : Nat} (pos : 0 < q) :
    (Nat.repr (q * 10)).length = (Nat.repr q).length + 1 := by
  have zero : (Nat.repr 0).length = 1 := by decide
  rw [Nat.repr_eq_repr_append_repr (by omega), Nat.mul_div_cancel q (by decide),
    Nat.mul_mod_left, String.length_append, zero]

theorem lt_length_repr_iff {n k : Nat} (pos : 0 < k) : k < (Nat.repr n).length ↔ 10 ^ k ≤ n := by
  rw [← Nat.not_le, Nat.length_repr_le_iff pos, Nat.not_lt]

theorem ratio_den_pos (d : Decimal) (factor : Nat) : 0 < (d.ratio factor).2 := by
  unfold ratio
  split
  · exact Nat.one_pos
  · exact Nat.pow_pos (by decide)

theorem ratio_natCast (q n factor : Nat) :
    ratio ⟨q, n⟩ factor = (q * 10 ^ n * factor, 1) := by
  rw [ratio, if_pos (Int.natCast_nonneg n), Int.toNat_natCast, Nat.pow_eq]

theorem ratio_negSucc (q n factor : Nat) :
    ratio ⟨q, Int.negSucc n⟩ factor = (q * factor, 10 ^ (n + 1)) := by
  rw [ratio, if_neg (Int.not_le.mpr (Int.negSucc_lt_zero n)), Int.neg_negSucc]
  rfl

/-- A zero more and a power of ten less make the same fraction. -/
theorem ratio_mul_ten (q : Nat) (x : Int) (factor : Nat) :
    (ratio ⟨q * 10, x - 1⟩ factor).1 * (ratio ⟨q, x⟩ factor).2 =
      (ratio ⟨q, x⟩ factor).1 * (ratio ⟨q * 10, x - 1⟩ factor).2 := by
  cases x with
  | ofNat n =>
      cases n with
      | zero =>
          have below : Int.ofNat 0 - 1 = Int.negSucc 0 := rfl
          have one : (ratio ⟨q, Int.ofNat 0⟩ factor) = (q * 10 ^ 0 * factor, 1) :=
            ratio_natCast q 0 factor
          rw [below, one, ratio_negSucc]
          simp [Nat.mul_right_comm]
      | succ n =>
          have below : ((n + 1 : Nat) : Int) - 1 = n := by omega
          have above : (ratio ⟨q, Int.ofNat (n + 1)⟩ factor) = (q * 10 ^ (n + 1) * factor, 1) :=
            ratio_natCast q (n + 1) factor
          rw [Int.ofNat_eq_natCast, below, ← Int.ofNat_eq_natCast (n + 1), above, ratio_natCast,
            Nat.pow_succ]
          simp only [Nat.mul_one, Nat.mul_comm (10 ^ n) 10, Nat.mul_assoc]
  | negSucc n =>
      have below : Int.negSucc n - 1 = Int.negSucc (n + 1) := by omega
      rw [below, ratio_negSucc, ratio_negSucc, Nat.pow_succ 10 (n + 1)]
      simp only [Nat.mul_comm (10 ^ (n + 1)) 10, Nat.mul_right_comm, Nat.mul_assoc]

/-- A decimal has many forms, which are read alike. -/
theorem toDouble_mul_ten (negative : Bool) (q : Nat) (x : Int) :
    (⟨q * 10, x - 1⟩ : Decimal).toDouble negative = (⟨q, x⟩ : Decimal).toDouble negative := by
  rcases Nat.eq_zero_or_pos q with rfl | pos
  · simp [toDouble]
  · have point : ((Nat.repr (q * 10)).length + (x - 1) : Int) = (Nat.repr q).length + x := by
      rw [length_repr_mul_ten pos]
      omega
    have rounded := Double.round_congr negative (ratio_mul_ten q x Double.scale)
      (ratio_den_pos _ _) (ratio_den_pos _ _)
    have digits : q * 10 = 0 ↔ q = 0 := by omega
    simp only [toDouble, point, digits, rounded]

theorem toDouble_mul_ten_pow (negative : Bool) (q k : Nat) (x : Int) :
    (⟨q * 10 ^ k, x - k⟩ : Decimal).toDouble negative = (⟨q, x⟩ : Decimal).toDouble negative := by
  induction k with
  | zero => simp
  | succ k ih =>
      have below : x - (k + 1 : Nat) = x - k - 1 := by omega
      rw [Nat.pow_succ, ← Nat.mul_assoc, below, toDouble_mul_ten, ih]

end Decimal

namespace Double

variable (e : Exponent) (f : Fraction)

/-- The factor of the exact expansion. -/
theorem five_pow : scale * Nat.pow 5 1074 = 10 ^ 1074 ∧ 10 ^ 674 ≤ Nat.pow 5 1074 ∧
    2 ^ 1024 * scale * Nat.pow 5 1074 ≤ 10 ^ 1474 := by
  decide +kernel

/-- The exact expansion is of a size that reading rounds, and it is read as the number. -/
theorem toDouble_exact (pos : 0 < units e f) :
    (⟨units e f * Nat.pow 5 1074, -1074⟩ : Decimal).toDouble false = .finite false e f := by
  obtain ⟨unit, long, short⟩ := five_pow
  generalize Nat.pow 5 1074 = five at *
  have positive : 0 < five := Nat.lt_of_lt_of_le (Nat.pow_pos (by decide)) long
  have digits : 0 < units e f * five := Nat.mul_pos pos positive
  have least : 674 < (Nat.repr (units e f * five)).length :=
    (Decimal.lt_length_repr_iff (by decide)).mpr
      (Nat.le_trans long (Nat.le_mul_of_pos_left _ pos))
  have greatest : (Nat.repr (units e f * five)).length ≤ 1474 := by
    have below := Nat.mul_lt_mul_of_pos_right (units_lt e f) positive
    refine Nat.le_of_not_lt fun longer => ?_
    have above := (Decimal.lt_length_repr_iff (by decide)).mp longer
    exact Nat.not_le.mpr (Nat.lt_of_lt_of_le below short) above
  have ratio : Decimal.ratio ⟨units e f * five, -1074⟩ scale =
      (units e f * 10 ^ 1074, 10 ^ 1074) := by
    have power : (-1074 : Int) = Int.negSucc 1073 := rfl
    rw [power, Decimal.ratio_negSucc, Nat.mul_assoc, Nat.mul_comm five, unit]
  rw [Decimal.toDouble]
  simp only [ratio]
  rw [if_neg (by omega), if_neg (by omega)]
  have wide : 0 < 10 ^ 1074 := by decide +kernel
  exact round_units false e f wide

theorem nearer_cases (u : Nat) (d : Decimal) : nearer u d = d ∨ nearer u d = next d := by
  simp only [nearer]
  split
  · exact .inl rfl
  · exact .inr rfl
  · split
    · exact .inl rfl
    · exact .inr rfl

/-- Of two neighbours, one that reads back is taken. -/
theorem readsBack_of_choice {u : Nat} {below d : Decimal}
    (h : (match readsBack e f below, readsBack e f (next below) with
      | true, true => some (nearer u below)
      | true, false => some below
      | false, true => some (next below)
      | false, false => none) = some d) : readsBack e f d = true := by
  cases first : readsBack e f below <;> cases second : readsBack e f (next below) <;>
    simp only [first, second, Option.some.injEq, reduceCtorEq] at h
  · rw [← h, second]
  · rw [← h, first]
  · rcases nearer_cases u below with same | same
    · rw [← h, same, first]
    · rw [← h, same, second]

/-- The definition as a whole. Applied to arguments, the two sides would be compared by reading the
candidates. -/
theorem withDigits?_def : withDigits? = fun exponent fraction (count : Nat) =>
    let u := units exponent fraction
    let below := floorOn u (leadingPower u + 1 - count)
    match readsBack exponent fraction below, readsBack exponent fraction (next below) with
    | true, true => some (nearer u below)
    | true, false => some below
    | false, true => some (next below)
    | false, false => none := by
  delta withDigits?
  rfl

theorem readsBack_of_withDigits? {count : Nat} {d : Decimal}
    (h : withDigits? e f count = some d) : readsBack e f d = true := by
  rw [withDigits?_def] at h
  exact readsBack_of_choice e f h

/-- The decimal that is chosen for a double is read as the double. -/
theorem toDouble_shortest : (shortest e f).toDouble false = .finite false e f := by
  rcases Nat.eq_zero_or_pos (units e f) with none | pos
  · have zero : ofUnits false 0 = .finite false e f := by rw [← none, ofUnits_units]
    rw [shortest, if_pos none, ← zero]
    rfl
  · rw [shortest, if_neg (Nat.ne_of_gt pos)]
    cases found : (List.range 17).findSome? fun n => withDigits? e f (n + 1) with
    | none => exact toDouble_exact e f pos
    | some d =>
        obtain ⟨n, -, chosen⟩ := List.exists_of_findSome?_eq_some found
        exact of_decide_eq_true (readsBack_of_withDigits? e f chosen)

end Double
end ConstLang
