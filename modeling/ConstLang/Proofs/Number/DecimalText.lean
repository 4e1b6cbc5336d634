import ConstLang.Number.Reading
import ConstLang.Proofs.Number.Rounding

/-!
Decimal text is read as the decimal that was written, up to zeros at its end. Writing lays out the
digits around a point or before an exponent; a reader takes runs of digits, each of which ends where
something else begins.
-/

namespace ConstLang

namespace Text

/-- Characters from 0 to 9. -/
def AllDigits (cs : List Char) : Prop := ∀ c ∈ cs, c.isDigit

theorem digitValue?_of_isDigit {c : Char} (h : c.isDigit) :
    digitValue? c = some (c.toNat - '0'.toNat) := by
  obtain ⟨low, high⟩ := Char.isDigit_iff_toNat.mp h
  have least : '0'.toNat = 0x30 := rfl
  have greatest : '9'.toNat = 0x39 := rfl
  have inside : 0x30 ≤ c.toNat ∧ c.toNat < 0x30 + 10 := by omega
  simp [digitValue?, zeroCodes, inside, least]

/-- A run of digits cannot be longer than this text from its beginning on. -/
def Stops (rest : List Char) : Prop := ∀ joined, digitRun joined rest = ([], rest)

theorem stops_nil : Stops [] := fun _ => rfl

theorem stops_cons {c : Char} (cs : List Char) (value : digitValue? c = none) (other : c ≠ '_') :
    Stops (c :: cs) := by
  intro joined
  simp [digitRun, value, other]

theorem stops_point (cs : List Char) : Stops ('.' :: cs) := stops_cons cs (by decide) (by decide)

theorem stops_exponent (cs : List Char) : Stops ('e' :: cs) :=
  stops_cons cs (by decide) (by decide)

theorem digitRun_append {cs rest : List Char} (digits : AllDigits cs) (stops : Stops rest)
    (joined : Bool) :
    digitRun joined (cs ++ rest) = (cs.map fun c => c.toNat - '0'.toNat, rest) := by
  induction cs generalizing joined with
  | nil => exact stops joined
  | cons c cs ih =>
      obtain ⟨first, others⟩ := List.forall_mem_cons.mp digits
      simp only [List.cons_append, digitRun, digitValue?_of_isDigit first, ih others true,
        List.map_cons]

theorem ofDigits_map (cs : List Char) :
    ofDigits (cs.map fun c => c.toNat - '0'.toNat) = Nat.ofDigitChars 10 cs 0 := by
  rw [ofDigits, List.foldl_map, Nat.ofDigitChars_eq_foldl]

theorem allDigits_append {xs ys : List Char} :
    AllDigits (xs ++ ys) ↔ AllDigits xs ∧ AllDigits ys := List.forall_mem_append

theorem allDigits_zeros (n : Nat) : AllDigits (Decimal.zeros n) := by
  intro c hc
  rw [(List.mem_replicate.mp hc).2]
  rfl

theorem allDigits_repr (n : Nat) : AllDigits (Nat.repr n).toList := by
  intro c hc
  rw [Nat.toList_repr] at hc
  exact Nat.isDigit_of_mem_toDigits (by decide) (by decide) hc

theorem toList_repr_ne_nil (n : Nat) : (Nat.repr n).toList ≠ [] := by
  rw [Nat.toList_repr]
  exact Nat.toDigits_ne_nil

theorem startsWithDigit_cons {c : Char} (digit : c.isDigit) (cs : List Char) :
    startsWithDigit (c :: cs) = true := by
  simp [startsWithDigit, digitValue?_of_isDigit digit]

theorem startsWithDigit_repr (n : Nat) : startsWithDigit (Nat.repr n).toList = true := by
  obtain ⟨c, cs, digits⟩ := List.exists_cons_of_ne_nil (toList_repr_ne_nil n)
  have first : c.isDigit := allDigits_repr n c (digits ▸ List.mem_cons_self)
  rw [digits, startsWithDigit_cons first]

/-- The sign in front of a digit can be told from the digits. -/
theorem sign_append {cs : List Char} (digit : startsWithDigit cs = true) (negative : Bool) :
    sign ((if negative then ['-'] else []) ++ cs) = (negative, cs) := by
  cases negative with
  | true => rfl
  | false =>
      match cs, digit with
      | c :: cs, digit =>
          have minus : c ≠ '-' := by
            rintro rfl
            exact absurd digit (by simp [startsWithDigit]; decide)
          have plus : c ≠ '+' := by
            rintro rfl
            exact absurd digit (by simp [startsWithDigit]; decide)
          simp [sign, minus, plus]

end Text

namespace Decimal

open Text

theorem ofDigitChars_zeros_append (n : Nat) (cs : List Char) :
    Nat.ofDigitChars 10 (zeros n ++ cs) 0 = Nat.ofDigitChars 10 cs 0 := by
  rw [zeros, Nat.ofDigitChars_append, Nat.ofDigitChars_replicate_zero, Nat.mul_zero]

theorem ofDigitChars_append_zeros (cs : List Char) (n : Nat) :
    Nat.ofDigitChars 10 (cs ++ zeros n) 0 = Nat.ofDigitChars 10 cs 0 * 10 ^ n := by
  rw [zeros, Nat.ofDigitChars_append, Nat.ofDigitChars_replicate_zero, Nat.mul_comm]

section Reading

variable {whole part tail : List Char} {e : Int}

/-- Reading a point between digits. -/
theorem read?_point (digits : AllDigits whole) (digits' : AllDigits part) (nonempty : whole ≠ [])
    (stops : Stops tail) (ends : readExponent? tail = some e) :
    read? (whole ++ '.' :: (part ++ tail)) =
      some ⟨Nat.ofDigitChars 10 (whole ++ part) 0, e - part.length⟩ := by
  obtain ⟨c, cs, rfl⟩ := List.exists_cons_of_ne_nil nonempty
  have first := digitRun_append digits (stops_point (part ++ tail)) false
  have second := digitRun_append digits' stops false
  simp only [read?, first, second, ends, ← List.map_append, List.length_map]
  rw [← ofDigits_map, List.cons_append, List.map_cons]

/-- Reading digits without a point. -/
theorem read?_exponent (digits : AllDigits whole) (nonempty : whole ≠ []) {cs : List Char}
    (ends : readExponent? ('e' :: cs) = some e) :
    read? (whole ++ 'e' :: cs) = some ⟨Nat.ofDigitChars 10 whole 0, e⟩ := by
  obtain ⟨c, cs', rfl⟩ := List.exists_cons_of_ne_nil nonempty
  have first := digitRun_append digits (stops_exponent cs) false
  rw [← ofDigits_map, List.map_cons]
  simp only [read?, first, List.map_cons]
  simp [ends]

theorem readExponent?_exponentText (style : DecimalStyle) (power : Int) :
    readExponent? ('e' :: exponentText style power) = some power := by
  let ds := zeros (style.exponentDigits - (Nat.repr power.natAbs).toList.length) ++
    (Nat.repr power.natAbs).toList
  have digits : AllDigits ds := allDigits_append.mpr ⟨allDigits_zeros _, allDigits_repr _⟩
  have value : Nat.ofDigitChars 10 ds 0 = power.natAbs := by
    rw [ofDigitChars_zeros_append, Nat.toList_repr, Nat.ofDigitChars_ten_toDigits]
  have nonempty : ds ≠ [] := List.append_ne_nil_of_right_ne_nil _ (toList_repr_ne_nil _)
  have text : exponentText style power = (if power < 0 then '-' else '+') :: ds := rfl
  clear_value ds
  have signs : sign ((if power < 0 then '-' else '+') :: ds) = (decide (power < 0), ds) := by
    by_cases negative : power < 0 <;> simp [negative, sign]
  obtain ⟨c, cs, rfl⟩ := List.exists_cons_of_ne_nil nonempty
  have run : digitRun false (c :: cs) = ((c :: cs).map fun c => c.toNat - '0'.toNat, []) := by
    simpa using digitRun_append digits stops_nil false
  have magnitude : Double.signed (power < 0) power.natAbs = power := by
    simp only [Double.signed, decide_eq_true_eq]
    split <;> omega
  rw [← ofDigits_map, List.map_cons] at value
  simp only [readExponent?, text, signs, run, List.map_cons, value, magnitude, true_or, if_true]

end Reading

/-- The first digit, and the others behind a point. -/
def mantissa : List Char → List Char
  | [] => []
  | [c] => [c]
  | c :: rest => c :: '.' :: rest

/-- The digits of a number around a point, or before an exponent if the point would be far off. -/
def layout (style : DecimalStyle) (ds : List Char) (point : Int) : List Char :=
  if style.leastPoint ≤ point ∧ point ≤ style.greatestPoint then
    if point ≤ 0 then '0' :: '.' :: (zeros (-point).toNat ++ ds)
    else if ds.length ≤ point.toNat then ds ++ zeros (point.toNat - ds.length) ++ ['.', '0']
    else ds.take point.toNat ++ '.' :: ds.drop point.toNat
  else mantissa ds ++ 'e' :: exponentText style (point - 1)

/-- The digits that are written. -/
def written (d : Decimal) : List Char :=
  if d.digits = 0 then (Nat.repr d.digits).toList else dropFinalZeros (Nat.repr d.digits).toList

theorem write_eq_layout (style : DecimalStyle) (d : Decimal) :
    d.write style = layout style d.written ((Nat.repr d.digits).toList.length + d.exponent) :=
  rfl

section Layout

variable {ds : List Char}

theorem read?_inner {xs ys : List Char} (digits : AllDigits (xs ++ ys)) (nonempty : xs ≠ []) :
    read? (xs ++ '.' :: ys) = some ⟨Nat.ofDigitChars 10 (xs ++ ys) 0, -ys.length⟩ := by
  obtain ⟨before, after⟩ := allDigits_append.mp digits
  have read := read?_point before after nonempty stops_nil rfl
  rwa [List.append_nil, Int.zero_sub] at read

theorem read?_leading (digits : AllDigits ds) (n : Nat) :
    read? ('0' :: '.' :: (zeros n ++ ds)) =
      some ⟨Nat.ofDigitChars 10 ds 0, -(n + ds.length : Nat)⟩ := by
  have all : AllDigits (zeros 1 ++ (zeros n ++ ds)) :=
    allDigits_append.mpr ⟨allDigits_zeros 1, allDigits_append.mpr ⟨allDigits_zeros n, digits⟩⟩
  have read := read?_inner all (by simp [zeros])
  rwa [ofDigitChars_zeros_append, ofDigitChars_zeros_append, List.length_append, zeros,
    zeros, List.length_replicate] at read

theorem read?_trailing (digits : AllDigits ds) (nonempty : ds ≠ []) (n : Nat) :
    read? (ds ++ zeros n ++ ['.', '0']) =
      some ⟨Nat.ofDigitChars 10 ds 0 * 10 ^ (n + 1), -1⟩ := by
  have split : ds ++ zeros n ++ zeros 1 = ds ++ zeros (n + 1) := by
    rw [List.append_assoc, zeros, zeros, List.replicate_append_replicate, zeros]
  have all : AllDigits (ds ++ zeros n ++ zeros 1) := by
    rw [split]
    exact allDigits_append.mpr ⟨digits, allDigits_zeros _⟩
  have read := read?_inner all (List.append_ne_nil_of_left_ne_nil nonempty _)
  rwa [split, ofDigitChars_append_zeros] at read

theorem read?_scientific (digits : AllDigits ds) (nonempty : ds ≠ []) (style : DecimalStyle)
    (power : Int) :
    read? (mantissa ds ++ 'e' :: exponentText style power) =
      some ⟨Nat.ofDigitChars 10 ds 0, power - (ds.length - 1 : Nat)⟩ := by
  have ends := readExponent?_exponentText style power
  match ds with
  | [] => exact absurd rfl nonempty
  | [c] => simpa [mantissa] using read?_exponent digits nonempty ends
  | c :: d :: rest =>
      have first : AllDigits [c] := fun x hx => digits x (by simp_all)
      have others : AllDigits (d :: rest) := fun x hx => digits x (List.mem_cons_of_mem _ hx)
      exact read?_point first others (by simp) (stops_exponent _) ends

/-- However the digits are laid out, they are read as themselves, with zeros that the layout has
put behind them. -/
theorem read?_layout (style : DecimalStyle) (digits : AllDigits ds) (nonempty : ds ≠ [])
    (point : Int) :
    ∃ k : Nat, read? (layout style ds point) =
      some ⟨Nat.ofDigitChars 10 ds 0 * 10 ^ k, point - ds.length - k⟩ := by
  have length := List.length_pos_iff.mpr nonempty
  simp only [layout]
  split
  · split
    · refine ⟨0, (read?_leading digits _).trans ?_⟩
      simp only [Nat.pow_zero, Nat.mul_one, Option.some.injEq, Decimal.mk.injEq, true_and]
      omega
    · split
      · refine ⟨point.toNat - ds.length + 1, (read?_trailing digits nonempty _).trans ?_⟩
        simp only [Option.some.injEq, Decimal.mk.injEq, true_and]
        omega
      · rename_i inside
        have whole : AllDigits (ds.take point.toNat ++ ds.drop point.toNat) := by
          rwa [List.take_append_drop]
        have begun : ds.take point.toNat ≠ [] := by
          simp only [ne_eq, List.take_eq_nil_iff, nonempty, or_false]
          omega
        refine ⟨0, (read?_inner whole begun).trans ?_⟩
        simp only [List.take_append_drop, List.length_drop, Nat.pow_zero, Nat.mul_one,
          Option.some.injEq, Decimal.mk.injEq, true_and]
        omega
  · refine ⟨0, (read?_scientific digits nonempty style _).trans ?_⟩
    simp only [Nat.pow_zero, Nat.mul_one, Option.some.injEq, Decimal.mk.injEq, true_and]
    omega

end Layout

theorem startsWithDigit_layout (style : DecimalStyle) {ds : List Char} (digits : AllDigits ds)
    (nonempty : ds ≠ []) (point : Int) : startsWithDigit (layout style ds point) = true := by
  obtain ⟨c, cs, rfl⟩ := List.exists_cons_of_ne_nil nonempty
  have first : c.isDigit := digits c List.mem_cons_self
  simp only [layout]
  split
  · split
    · exact startsWithDigit_cons rfl _
    · split
      · exact startsWithDigit_cons first _
      · obtain ⟨n, hn⟩ : ∃ n, point.toNat = n + 1 := ⟨point.toNat - 1, by omega⟩
        rw [hn]
        exact startsWithDigit_cons first _
  · cases cs <;> exact startsWithDigit_cons first _

/-- Every layout shows a point or an exponent, so that it is not taken for a whole number. -/
theorem mem_layout (style : DecimalStyle) (ds : List Char) (point : Int) :
    '.' ∈ layout style ds point ∨ 'e' ∈ layout style ds point := by
  simp only [layout]
  split
  · refine .inl ?_
    split
    · simp
    · split <;> simp
  · exact .inr (by simp)

theorem dropFinalZeros_append (cs : List Char) : ∃ n, cs = dropFinalZeros cs ++ zeros n := by
  have zero : ∀ c ∈ cs.reverse.takeWhile (· == '0'), c = '0' := by
    intro c hc
    exact beq_iff_eq.mp (List.all_eq_true.mp List.all_takeWhile c hc)
  have run := List.eq_replicate_iff.mpr ⟨rfl, zero⟩
  refine ⟨(cs.reverse.takeWhile (· == '0')).length, ?_⟩
  have split := congrArg List.reverse (List.takeWhile_append_dropWhile (p := (· == '0'))
    (l := cs.reverse))
  rw [List.reverse_append, List.reverse_reverse, run, List.reverse_replicate] at split
  rw [dropFinalZeros, zeros]
  exact split.symm

/-- What is not written of a number are zeros at its end. -/
theorem written_append (d : Decimal) :
    ∃ n, (Nat.repr d.digits).toList = d.written ++ zeros n := by
  unfold written
  split
  · exact ⟨0, (List.append_nil _).symm⟩
  · exact dropFinalZeros_append _

theorem written_ne_nil (d : Decimal) : d.written ≠ [] := by
  intro none
  obtain ⟨n, all⟩ := written_append d
  by_cases zero : d.digits = 0
  · rw [written, if_pos zero] at none
    exact toList_repr_ne_nil _ none
  · have value := Nat.ofDigitChars_ten_toDigits (n := d.digits)
    rw [none, List.nil_append, Nat.toList_repr] at all
    rw [all, zeros, Nat.ofDigitChars_replicate_zero] at value
    exact zero value.symm

theorem allDigits_written (d : Decimal) : AllDigits d.written := by
  obtain ⟨n, all⟩ := written_append d
  have digits := allDigits_repr d.digits
  rw [all] at digits
  exact (allDigits_append.mp digits).1

theorem startsWithDigit_write (style : DecimalStyle) (d : Decimal) :
    startsWithDigit (d.write style) = true := by
  rw [write_eq_layout]
  exact startsWithDigit_layout style (allDigits_written d) (written_ne_nil d) _

theorem mem_write (style : DecimalStyle) (d : Decimal) :
    '.' ∈ d.write style ∨ 'e' ∈ d.write style := by
  rw [write_eq_layout]
  exact mem_layout style d.written _

/-- A decimal that is written is read as one that rounds to the same double. -/
theorem read?_write (style : DecimalStyle) (d : Decimal) :
    ∃ d', read? (d.write style) = some d' ∧ ∀ s, d'.toDouble s = d.toDouble s := by
  obtain ⟨n, all⟩ := written_append d
  obtain ⟨k, read⟩ := read?_layout style (allDigits_written d) (written_ne_nil d)
    ((Nat.repr d.digits).toList.length + d.exponent)
  rw [← write_eq_layout] at read
  refine ⟨_, read, fun s => ?_⟩
  have digits : d.digits = Nat.ofDigitChars 10 d.written 0 * 10 ^ n := by
    rw [← ofDigitChars_append_zeros, ← all, Nat.toList_repr, Nat.ofDigitChars_ten_toDigits]
  have point : ((Nat.repr d.digits).toList.length : Int) + d.exponent - d.written.length =
      d.exponent + n := by
    rw [all, List.length_append, zeros, List.length_replicate]
    omega
  have same : d = ⟨Nat.ofDigitChars 10 d.written 0 * 10 ^ n, d.exponent + n - n⟩ := by
    rw [← digits, Int.add_sub_cancel]
  rw [point, toDouble_mul_ten_pow]
  exact ((congrArg (toDouble s) same).trans (toDouble_mul_ten_pow ..)).symm

end Decimal

namespace Text

/-- An integer is written as a sign and digits. -/
theorem toList_writeInt (i : Int) :
    (writeInt i).toList =
      (if decide (i < 0) then ['-'] else []) ++ (Nat.repr i.natAbs).toList := by
  by_cases negative : i < 0 <;> simp [writeInt, negative]

theorem sign_writeInt (i : Int) :
    sign (writeInt i).toList = (decide (i < 0), (Nat.repr i.natAbs).toList) := by
  rw [toList_writeInt, sign_append (startsWithDigit_repr _)]

/-- Different integers are written differently. -/
theorem writeInt_injective {i j : Int} (h : writeInt i = writeInt j) : i = j := by
  have parts := congrArg (fun t : String => sign t.toList) h
  simp only [sign_writeInt, Prod.mk.injEq, decide_eq_decide, Nat.toList_repr] at parts
  have magnitude : i.natAbs = j.natAbs := by
    rw [← Nat.ofDigitChars_ten_toDigits (n := i.natAbs), parts.2, Nat.ofDigitChars_ten_toDigits]
  omega

end Text

namespace Double

open Text

theorem toList_text (s : Bool) (e : Exponent) (f : Fraction) :
    (finite s e f).text.toList =
      (if s then ['-'] else []) ++ (shortest e f).write DecimalStyle.plain := by
  cases s <;> simp [text]

/-- The text of a double begins with its sign, behind which there is a digit. -/
theorem sign_text (s : Bool) (e : Exponent) (f : Fraction) :
    sign (finite s e f).text.toList = (s, (shortest e f).write DecimalStyle.plain) := by
  rw [toList_text, sign_append (Decimal.startsWithDigit_write _ _)]

/-- Different doubles have different texts. -/
theorem text_injective {s s' : Bool} {e e' : Exponent} {f f' : Fraction}
    (h : (finite s e f).text = (finite s' e' f').text) : finite s e f = finite s' e' f' := by
  have parts := congrArg (fun t : String => sign t.toList) h
  simp only [sign_text, Prod.mk.injEq] at parts
  obtain ⟨rfl, written⟩ := parts
  obtain ⟨d, read, rounded⟩ := Decimal.read?_write DecimalStyle.plain (shortest e f)
  obtain ⟨d', read', rounded'⟩ := Decimal.read?_write DecimalStyle.plain (shortest e' f')
  rw [written, read'] at read
  cases read
  have same := (toDouble_shortest e f).symm.trans ((rounded false).symm.trans
    ((rounded' false).trans (toDouble_shortest e' f')))
  cases same
  rfl

end Double
end ConstLang
