import Mathlib.Algebra.Group.Nat.Defs
import ConstLang.Number.Basic

/-!
Doubles as counts of units, and numbers by their places. Every finite double is the one form of its
count, so the count and the sign determine the double; equal signed counts are the same double,
except that zero has two signs. Two numbers are equal if they have the same place.
-/

namespace ConstLang
namespace Double

theorem log2_scaled {m : Nat} (low : 2 ^ 52 ≤ m) (high : m < 2 ^ 53) (k : Nat) :
    (m * 2 ^ k).log2 = 52 + k := by
  have nonzero : m * 2 ^ k ≠ 0 := by
    have positive := Nat.mul_pos (show 0 < m by omega) (Nat.two_pow_pos k)
    omega
  refine (Nat.log2_eq_iff nonzero).mpr ⟨?_, ?_⟩
  · rw [Nat.pow_add]
    exact Nat.mul_le_mul_right _ low
  · rw [show 52 + k + 1 = 53 + k by omega, Nat.pow_add]
    exact Nat.mul_lt_mul_of_pos_right high (Nat.two_pow_pos k)

theorem scale_eq : scale = 2 ^ 1074 := by decide +kernel

theorem two_pow_le_mul {x a b : Nat} (h : x ≤ a + b) : 2 ^ x ≤ 2 ^ a * 2 ^ b := by
  rw [← Nat.pow_add]
  exact Nat.pow_le_pow_right (by decide) h

theorem fraction_lt (f : Fraction) : f.val < 2 ^ 52 := f.isLt

theorem finite_congr {s : Bool} {e e' : Exponent} {f f' : Fraction} (exponents : e.val = e'.val)
    (fractions : f.val = f'.val) : finite s e f = finite s e' f' := by
  rw [Fin.ext exponents, Fin.ext fractions]

theorem natAbs_signed (s : Bool) (n : Nat) : (signed s n).natAbs = n := by
  cases s <;> simp [signed]

theorem signed_mul (s : Bool) (n k : Nat) : signed s (n * k) = signed s n * k := by
  cases s with
  | false => exact Int.natCast_mul n k
  | true => exact (congrArg Neg.neg (Int.natCast_mul n k)).trans (Int.neg_mul n k).symm

theorem scale_pos : (0 : Int) < scale := by decide +kernel

theorem whole_inj {i j : Int} : i * scale = j * scale ↔ i = j :=
  Int.mul_eq_mul_right_iff (Int.ne_of_gt scale_pos)

variable (e : Exponent) (f : Fraction)

/-- A count is a mantissa of at most 53 bits, times its last place. -/
theorem units_cases :
    e.val = 0 ∧ units e f = f.val ∨
      0 < e.val ∧ units e f = (2 ^ 52 + f.val) * 2 ^ (e.val - 1) := by
  rcases Nat.eq_zero_or_pos e.val with zero | pos
  · exact .inl ⟨zero, if_pos zero⟩
  · exact .inr ⟨pos, if_neg (Nat.ne_of_gt pos)⟩

theorem log2_units (count : units e f = (2 ^ 52 + f.val) * 2 ^ (e.val - 1)) :
    (units e f).log2 - 52 = e.val - 1 := by
  have below := fraction_lt f
  rw [count, log2_scaled (by omega) (by omega), Nat.add_sub_cancel_left]

/-- The last place of a count divides it. -/
theorem units_eq_mul : ∃ q, units e f = q * 2 ^ ((units e f).log2 - 52) := by
  rcases units_cases e f with ⟨-, count⟩ | ⟨-, count⟩
  · have below := fraction_lt f
    have last : (units e f).log2 - 52 = 0 := by
      rw [count]
      rcases Nat.eq_zero_or_pos f.val with zero | pos
      · rw [zero]
        rfl
      · have small := (Nat.log2_lt (Nat.ne_of_gt pos)).mpr below
        omega
    exact ⟨units e f, by rw [last, Nat.pow_zero, Nat.mul_one]⟩
  · rw [log2_units e f count]
    exact ⟨_, count⟩

theorem units_lt : units e f < 2 ^ 1024 * scale := by
  have below := fraction_lt f
  have top := e.isLt
  have one := Nat.two_pow_pos (e.val - 1)
  have least : units e f < 2 ^ 53 * 2 ^ (e.val - 1) := by
    rcases units_cases e f with ⟨-, count⟩ | ⟨-, count⟩
    · have covered := Nat.le_mul_of_pos_right (2 ^ 53) one
      omega
    · rw [count]
      exact Nat.mul_lt_mul_of_pos_right (by omega) one
  refine Nat.lt_of_lt_of_le least ?_
  rw [scale_eq, ← Nat.pow_add]
  exact two_pow_le_mul (by omega)

/-- A count of units has one form. -/
theorem ofUnits_units (s : Bool) : ofUnits s (units e f) = .finite s e f := by
  have below := fraction_lt f
  have top := e.isLt
  rcases units_cases e f with ⟨zero, count⟩ | ⟨pos, count⟩
  · have small : units e f < fractionCount := by
      rw [count]
      exact below
    rw [ofUnits, dif_pos small]
    exact finite_congr zero.symm count
  · have one := Nat.two_pow_pos (e.val - 1)
    have large : ¬ units e f < fractionCount := by
      have least := Nat.le_mul_of_pos_right (2 ^ 52 + f.val) one
      rw [count]
      show ¬ _ < 2 ^ 52
      omega
    have exponent := log2_units e f count
    have range : (units e f).log2 - 52 + 1 < 2047 := by omega
    rw [ofUnits, dif_neg large, dif_pos range]
    refine finite_congr (by simp only [exponent]; omega) ?_
    show units e f / 2 ^ ((units e f).log2 - 52) % 2 ^ 52 = f.val
    rw [exponent, count, Nat.mul_div_cancel _ one, Nat.add_mod_left, Nat.mod_eq_of_lt below]

variable {e f} {s : Bool} {i : Int}

/-- Doubles that are not zero are the same if their signed counts are. -/
theorem ofUnits_signed {u : Int} (count : u = signed s (units e f)) (nonzero : u ≠ 0) :
    ofUnits (u < 0) u.natAbs = .finite s e f := by
  have sign : decide (u < 0) = s ∧ u.natAbs = units e f := by
    subst count
    cases s <;> simp only [signed, if_true, if_false, Bool.false_eq_true, decide_eq_true_eq,
      decide_eq_false_iff_not] at nonzero ⊢ <;> omega
  rw [sign.1, sign.2, ofUnits_units]

theorem natAbs_mul_scale (count : i * scale = signed s (units e f)) :
    i.natAbs * scale = units e f := by
  rw [← natAbs_signed s (units e f), ← count, Int.natAbs_mul, Int.natAbs_natCast]

/-- A double is an integer if it counts as many units as the integer. -/
theorem toInt?_eq_some :
    (finite s e f).toInt? = some i ↔ i * scale = signed s (units e f) := by
  constructor
  · intro whole
    simp only [toInt?] at whole
    split at whole
    · rename_i divides
      cases whole
      rw [← signed_mul, Nat.div_mul_cancel (Nat.dvd_of_mod_eq_zero divides)]
    · cases whole
  · intro count
    have magnitude := natAbs_mul_scale count
    have quotient : signed s i.natAbs = i := by
      rw [← whole_inj, count, ← signed_mul, magnitude]
    have divides : units e f % scale = 0 := by rw [← magnitude, Nat.mul_mod_left]
    have natural : units e f / scale = i.natAbs := by
      have positive := scale_pos
      rw [← magnitude, Nat.mul_div_cancel _ (by omega)]
    rw [toInt?, if_pos divides, natural, quotient]

end Double

namespace Place

theorem compare_eq_iff {p q : Place} : p.compare q = .eq ↔ p = q := by
  cases p <;> cases q <;> simp [compare]

end Place

namespace Number

/-- Numbers are equal if they have the same place. -/
theorem equal_iff {x y : Number} :
    x.equal y = true ↔ ∃ p, x.place? = some p ∧ y.place? = some p := by
  simp only [equal, beq_iff_eq, compare?.eq_def x y]
  split
  · rename_i i j
    simp only [Option.some.injEq, Std.LawfulEqOrd.compare_eq_iff_eq, place?, exists_eq_left',
      Place.at.injEq, Double.whole_inj]
    exact eq_comm
  · cases x.place? <;> cases y.place? <;> simp [Place.compare_eq_iff, @eq_comm Place]

end Number
end ConstLang
