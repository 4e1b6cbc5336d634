import ConstLang.Proofs.Number.DecimalText
import ConstLang.Proofs.Text.Quoted
import ConstLang.Value.Equality
import ConstLang.Value.Show

/-!
What a display tells. Programs can tell two values without parts from each other exactly if they
are displayed differently; only NaN, which is displayed in one way, is equal to nothing. A value
comes down to a datum, in which a whole double is the integer that it equals: equal values have the
same datum, and the text of a display is the text of the datum and of no other.
-/

namespace ConstLang

/-- What there is to tell of a value that has no parts. -/
inductive Datum
  | null
  | undefined
  | truth (b : Bool)
  | nan
  | infinite (negative : Bool)
  | whole (i : Int)
  | fraction (d : Double)
  | text (s : String)
  deriving DecidableEq

/-- The place of a datum that is a number. -/
def Datum.place? : Datum → Option Place
  | .infinite s => (Number.float (.infinity s)).place?
  | .whole i => (Number.int i).place?
  | .fraction d => (Number.float d).place?
  | _ => none

/-- The datum of the numbers at a place. -/
def Place.datum : Place → Datum
  | .bottom => .infinite true
  | .top => .infinite false
  | .at u =>
      if u % Double.scale = 0 then .whole (u / Double.scale)
      else .fraction (.ofUnits (u < 0) u.natAbs)

namespace Number

def datum : Number → Datum
  | .int i => .whole i
  | .float (.infinity s) => .infinite s
  | .float (.finite s e f) =>
      match (Double.finite s e f).toInt? with
      | some i => .whole i
      | none => .fraction (.finite s e f)
  | .nan => .nan

variable {x y : Number}

/-- A finite double is the integer whose place it has, or a fraction. -/
theorem datum_finite_cases (s : Bool) (e : Double.Exponent) (f : Double.Fraction) :
    (∃ i : Int, (Number.float (.finite s e f)).datum = .whole i ∧
      i * Double.scale = Double.signed s (Double.units e f)) ∨
    (Number.float (.finite s e f)).datum = .fraction (.finite s e f) ∧
      ∀ i : Int, i * Double.scale ≠ Double.signed s (Double.units e f) := by
  cases whole : (Double.finite s e f).toInt? with
  | some i =>
      refine .inl ⟨i, ?_, Double.toInt?_eq_some.mp whole⟩
      simp only [datum, whole]
  | none =>
      refine .inr ⟨by simp only [datum, whole], fun i count => ?_⟩
      cases whole.symm.trans (Double.toInt?_eq_some.mpr count)

theorem place?_datum (x : Number) : x.datum.place? = x.place? := by
  match x with
  | .int _ | .float (.infinity _) | .nan => rfl
  | .float (.finite s e f) =>
      rcases datum_finite_cases s e f with ⟨i, same, count⟩ | ⟨same, -⟩
      · rw [same, Datum.place?, place?, place?, count]
      · rw [same, Datum.place?]

theorem datum_whole (i : Int) : (Place.at (i * Double.scale)).datum = .whole i := by
  have positive := Double.scale_pos
  rw [Place.datum, if_pos (Int.mul_emod_left _ _), Int.mul_ediv_cancel _ (Int.ne_of_gt positive)]

/-- The place of a number decides its datum. -/
theorem datum_of_place {p : Place} (h : x.place? = some p) : x.datum = p.datum := by
  match x with
  | .int i =>
      cases h
      rw [datum_whole, datum]
  | .float (.infinity s) =>
      cases h
      cases s <;> rfl
  | .float (.finite s e f) =>
      cases h
      rcases datum_finite_cases s e f with ⟨i, same, count⟩ | ⟨same, fraction⟩
      · rw [same, ← count, datum_whole]
      · generalize count : Double.signed s (Double.units e f) = u at fraction
        have nonzero : u ≠ 0 := by
          intro zero
          exact fraction 0 (by rw [zero, Int.zero_mul])
        have remainder : ¬ u % Double.scale = 0 := by
          intro divides
          exact fraction (u / Double.scale) (Int.ediv_mul_cancel_of_emod_eq_zero divides)
        rw [same, Place.datum, if_neg remainder, Double.ofUnits_signed count.symm nonzero]
  | .nan => cases h

theorem place?_eq_none (h : x.place? = none) : x = .nan := by
  match x with
  | .nan => rfl
  | .int _ | .float (.infinity _) | .float (.finite _ _ _) => cases h

/-- Numbers have the same datum if they are equal, and NaN has one of its own. -/
theorem datum_eq_iff : x.datum = y.datum ↔ x.equal y = true ∨ x = .nan ∧ y = .nan := by
  rw [equal_iff]
  constructor
  · intro same
    have places : x.place? = y.place? := by rw [← place?_datum, same, place?_datum]
    cases place : x.place? with
    | some p => exact .inl ⟨p, rfl, places.symm.trans place⟩
    | none => exact .inr ⟨place?_eq_none place, place?_eq_none (places.symm.trans place)⟩
  · rintro (⟨p, hx, hy⟩ | ⟨rfl, rfl⟩)
    · rw [datum_of_place hx, datum_of_place hy]
    · rfl

end Number

namespace Value

/-- The values without parts that are displayed: all but the integers beyond the limit of digits. -/
def Printable : Value → Prop
  | .null | .undefined | .bool _ | .float _ | .nan _ | .text _ => True
  | .int i => i.natAbs < 10 ^ Text.digitLimit
  | _ => False

def IsNaN (v : Value) : Prop := v.strictNumber? = some .nan

def datum (v : Value) : Datum :=
  match v, v.strictNumber? with
  | _, some x => x.datum
  | .null, _ => .null
  | .bool b, _ => .truth b
  | .text s, _ => .text s
  | _, _ => .undefined

variable {v x y : Value} {a b : Number}

theorem datum_of_number (h : v.strictNumber? = some a) : v.datum = a.datum := by
  cases v <;> simp_all [datum, strictNumber?]

theorem strictEqual_of_numbers (hx : x.strictNumber? = some a) (hy : y.strictNumber? = some b) :
    x.strictEqual y = a.equal b := by
  cases x <;> cases hx <;> cases y <;> cases hy <;> rfl

/-- A number is equal to no other value, and has the datum of none. -/
theorem number_apart (hx : x.strictNumber? = some a) (hy : y.strictNumber? = none) :
    x.strictEqual y = false ∧ y.strictEqual x = false ∧ x.datum ≠ y.datum := by
  have number : a.datum ≠ .null ∧ a.datum ≠ .undefined ∧ (∀ b, a.datum ≠ .truth b) ∧
      ∀ s, a.datum ≠ .text s := by
    match a with
    | .int _ | .float (.infinity _) | .nan => simp [Number.datum]
    | .float (.finite s e f) =>
        rcases Number.datum_finite_cases s e f with ⟨i, same, -⟩ | ⟨same, -⟩ <;> simp [same]
  rw [datum_of_number hx]
  cases x <;> cases hx <;> cases y <;> cases hy
  all_goals simp [strictEqual, same, number?, datum, strictNumber?, number]

/-- Values have the same datum if programs cannot tell them apart. -/
theorem datum_eq_iff (hx : x.Printable) (hy : y.Printable) :
    x.datum = y.datum ↔ x.strictEqual y = true ∨ x.IsNaN ∧ y.IsNaN := by
  unfold IsNaN
  cases number : x.strictNumber? with
  | some a =>
      cases number' : y.strictNumber? with
      | some b =>
          rw [datum_of_number number, datum_of_number number', Number.datum_eq_iff,
            strictEqual_of_numbers number number', Option.some.injEq, Option.some.injEq]
      | none =>
          obtain ⟨unequal, -, apart⟩ := number_apart number number'
          simp [unequal, apart]
  | none =>
      cases number' : y.strictNumber? with
      | some b =>
          obtain ⟨-, unequal, apart⟩ := number_apart number' number
          simp [unequal, apart.symm]
      | none =>
          cases x <;> cases number <;> cases hx <;> cases y <;> cases number' <;> cases hy
          all_goals simp [strictEqual, same, number?, datum, strictNumber?]

end Value

namespace Datum

/-- The text in which a datum is displayed. -/
def display : Datum → String
  | .null => "null"
  | .undefined => "undefined"
  | .truth b => if b then "true" else "false"
  | .nan => "NaN"
  | .infinite s => if s then "-Infinity" else "Infinity"
  | .whole i => Text.writeInt i
  | .fraction d => d.text
  | .text s => Text.display s

end Datum

theorem showInt_of_lt {i : Int} (h : i.natAbs < 10 ^ Text.digitLimit) :
    showInt i = .ok (Text.writeInt i) := by
  have short : (Nat.repr i.natAbs).length ≤ Text.digitLimit :=
    (Nat.length_repr_le_iff (by decide)).mpr h
  rw [showInt, Text.writeInt?, if_pos short]

/-- No double is an integer beyond the limit of digits. -/
theorem Double.natAbs_lt_of_toInt? {d : Double} {i : Int} (h : d.toInt? = some i) :
    i.natAbs < 10 ^ Text.digitLimit := by
  cases d with
  | infinity s => cases h
  | finite s e f =>
      have magnitude := natAbs_mul_scale (toInt?_eq_some.mp h)
      have below : i.natAbs < 2 ^ 1024 := by
        refine Nat.lt_of_mul_lt_mul_right (a := scale) ?_
        rw [magnitude]
        exact units_lt e f
      have limit : 2 ^ 1024 ≤ 10 ^ Text.digitLimit := by decide +kernel
      exact Nat.lt_of_lt_of_le below limit

namespace Value

variable {v : Value}

/-- A value is displayed as its datum. -/
theorem display_eq (h : v.Printable) : v.display = .ok v.datum.display := by
  cases v with
  | null | undefined | nan _ | text _ => rfl
  | bool b => rfl
  | int i => exact showInt_of_lt h
  | float d =>
      cases d with
      | infinity s => rfl
      | finite s e f =>
          simp only [display, displayDouble, datum, strictNumber?, Number.datum]
          cases whole : (Double.finite s e f).toInt? with
          | some i => exact showInt_of_lt (Double.natAbs_lt_of_toInt? whole)
          | none => rfl
  | _ => cases h

end Value

/-- What kind of datum a text shows. -/
inductive TextForm
  | word
  | whole
  | fraction
  | quoted
  deriving DecidableEq

namespace TextForm

open Text

/-- The kind is seen from the first characters, and for numbers from a point or an exponent. -/
def ofChars (cs : List Char) : TextForm :=
  if cs.head? = some '\x22' then .quoted
  else if startsWithDigit (sign cs).2 then
    if '.' ∈ cs ∨ 'e' ∈ cs then .fraction else .whole
  else .word

theorem ofChars_display (s : String) : ofChars (Text.display s).toList = .quoted := by
  simp [ofChars, Text.display]

theorem ofChars_number {cs : List Char} (digit : startsWithDigit (sign cs).2 = true) :
    ofChars cs = if '.' ∈ cs ∨ 'e' ∈ cs then .fraction else .whole := by
  have unquoted : cs.head? ≠ some '\x22' := by
    intro quote
    obtain ⟨rest, rfl⟩ := List.head?_eq_some_iff.mp quote
    have other : digitValue? '\x22' = none := by decide
    simp [sign, startsWithDigit, other] at digit
  rw [ofChars, if_neg unquoted, if_pos digit]

theorem ofChars_writeInt (i : Int) : ofChars (writeInt i).toList = .whole := by
  have plain : ∀ c ∈ (writeInt i).toList, c = '-' ∨ c.isDigit := by
    intro c hc
    rw [toList_writeInt, List.mem_append] at hc
    rcases hc with sign | digit
    · split at sign
      · exact .inl (List.mem_singleton.mp sign)
      · cases sign
    · exact .inr (allDigits_repr _ c digit)
  have digit : startsWithDigit (sign (writeInt i).toList).2 = true := by
    rw [sign_writeInt]
    exact startsWithDigit_repr _
  have absent : ¬ ('.' ∈ (writeInt i).toList ∨ 'e' ∈ (writeInt i).toList) := by
    rintro (point | exponent)
    · exact absurd (plain _ point) (by decide)
    · exact absurd (plain _ exponent) (by decide)
  rw [ofChars_number digit, if_neg absent]

theorem ofChars_text (s : Bool) (e : Double.Exponent) (f : Double.Fraction) :
    ofChars (Double.finite s e f).text.toList = .fraction := by
  have digit : startsWithDigit (sign (Double.finite s e f).text.toList).2 = true := by
    rw [Double.sign_text]
    exact Decimal.startsWithDigit_write _ _
  have shown : '.' ∈ (Double.finite s e f).text.toList ∨
      'e' ∈ (Double.finite s e f).text.toList := by
    simp only [Double.toList_text, List.mem_append]
    exact (Decimal.mem_write _ _).imp .inr .inr
  rw [ofChars_number digit, if_pos shown]

end TextForm

namespace Datum

def form : Datum → TextForm
  | .whole _ => .whole
  | .fraction _ => .fraction
  | .text _ => .quoted
  | _ => .word

/-- Fractions are finite. -/
def Proper : Datum → Prop
  | .fraction d => ∃ s e f, d = .finite s e f
  | _ => True

theorem ofChars_display {a : Datum} (h : a.Proper) :
    TextForm.ofChars a.display.toList = a.form := by
  cases a with
  | null | undefined | nan => decide
  | truth b | infinite b => cases b <;> decide
  | whole i => exact TextForm.ofChars_writeInt i
  | fraction d =>
      obtain ⟨s, e, f, rfl⟩ := h
      exact TextForm.ofChars_text s e f
  | text s => exact TextForm.ofChars_display s

/-- The data that are displayed by words. -/
def words : List Datum :=
  [.null, .undefined, .truth false, .truth true, .nan, .infinite false, .infinite true]

theorem mem_words {a : Datum} (h : a.form = .word) : a ∈ words := by
  cases a with
  | null | undefined | nan => decide
  | truth b | infinite b => cases b <;> decide
  | whole _ | fraction _ | text _ => cases h

theorem words_apart : ∀ a ∈ words, ∀ b ∈ words, a.display = b.display → a = b := by decide

/-- No two data are displayed alike. -/
theorem display_injective {a b : Datum} (ha : a.Proper) (hb : b.Proper)
    (h : a.display = b.display) : a = b := by
  have forms : a.form = b.form := by rw [← ofChars_display ha, h, ofChars_display hb]
  by_cases word : a.form = .word
  · exact words_apart a (mem_words word) b (mem_words (forms ▸ word)) h
  · cases a with
    | whole i =>
        cases b <;> cases forms
        rw [Text.writeInt_injective h]
    | fraction d =>
        cases b <;> cases forms
        obtain ⟨s, e, f, rfl⟩ := ha
        obtain ⟨s', e', f', rfl⟩ := hb
        rw [Double.text_injective h]
    | text s =>
        cases b <;> cases forms
        rw [Text.display_injective h]
    | _ => exact absurd rfl word

end Datum

namespace Value

theorem proper_datum (v : Value) : v.datum.Proper := by
  cases number : v.strictNumber? with
  | some a =>
      rw [datum_of_number number]
      match a with
      | .int _ | .float (.infinity _) | .nan => trivial
      | .float (.finite s e f) =>
          rcases Number.datum_finite_cases s e f with ⟨i, same, -⟩ | ⟨same, -⟩
          · rw [same]
            trivial
          · rw [same]
            exact ⟨s, e, f, rfl⟩
  | none => cases v <;> cases number <;> trivial

/-- Two values without parts are displayed alike exactly if they are strictly equal, or both are
NaN. -/
theorem displayed_alike_iff_strictly_equal {x y : Value} (hx : x.Printable) (hy : y.Printable) :
    ∃ s t, x.display = .ok s ∧ y.display = .ok t ∧
      (s = t ↔ x.strictEqual y = true ∨ x.IsNaN ∧ y.IsNaN) := by
  refine ⟨_, _, display_eq hx, display_eq hy, ?_⟩
  rw [← datum_eq_iff hx hy]
  constructor
  · exact Datum.display_injective x.proper_datum y.proper_datum
  · intro same
    rw [same]

end Value

namespace Sample

/-- The double from which on not every integer is one. -/
def great : Value := .float (.ofUnits false (9007199254740992 * Double.scale))

end Sample

theorem great_double_is_displayed_as_integer :
    Sample.great.Printable ∧ (Value.int 9007199254740992).Printable ∧
      (Value.int 9007199254740993).Printable ∧
      (∃ s, Sample.great.display = .ok s ∧ (Value.int 9007199254740992).display = .ok s) ∧
      ∃ s t, Sample.great.display = .ok s ∧ (Value.int 9007199254740993).display = .ok t ∧
        s ≠ t := by
  have printable : ∀ n ∈ [9007199254740992, 9007199254740993], n < 10 ^ Text.digitLimit := by
    decide +kernel
  have first : (Value.int 9007199254740992).Printable := printable 9007199254740992 (by simp)
  have second : (Value.int 9007199254740993).Printable := printable 9007199254740993 (by simp)
  have equal : Sample.great.strictEqual (.int 9007199254740992) = true := by decide +kernel
  have unequal : ¬ Sample.great.strictEqual (.int 9007199254740993) = true := by decide +kernel
  refine ⟨trivial, first, second, ?_, ?_⟩
  · obtain ⟨s, t, double, integer, alike⟩ :=
      Value.displayed_alike_iff_strictly_equal (x := Sample.great) trivial first
    obtain rfl := alike.mpr (.inl equal)
    exact ⟨s, double, integer⟩
  · obtain ⟨s, t, double, integer, alike⟩ :=
      Value.displayed_alike_iff_strictly_equal (x := Sample.great) trivial second
    refine ⟨s, t, double, integer, fun same => ?_⟩
    rcases alike.mp same with same | ⟨nan, -⟩
    · exact unequal same
    · cases nan

end ConstLang
