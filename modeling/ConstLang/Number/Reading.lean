import ConstLang.Number.Basic
import ConstLang.Number.Decimal
import ConstLang.Text.Blank
import ConstLang.Text.Digit

/-!
Reading doubles from text: a decimal with optional point and exponent, or one of
the words for the infinities and NaN, in any case and between blanks.
-/

namespace ConstLang

open Text

namespace Decimal

/-- The exponent that ends a decimal; zero when there is none. -/
def readExponent? : List Char → Option Int
  | [] => some 0
  | c :: cs =>
      if c = 'e' ∨ c = 'E' then
        let (negative, rest) := sign cs
        match digitRun false rest with
        | (ds@(_ :: _), []) => some (Double.signed negative (ofDigits ds))
        | _ => none
      else none

/-- Digits before and after the point, at least one in all. -/
def read? (cs : List Char) : Option Decimal :=
  let (whole, rest) := digitRun false cs
  let (part, rest) := match rest with
    | '.' :: after => digitRun false after
    | _ => ([], rest)
  match whole ++ part, readExponent? rest with
  | ds@(_ :: _), some e => some ⟨ofDigits ds, e - part.length⟩
  | _, _ => none

end Decimal

namespace Number

/-- A text between blanks that reads as a double or as NaN. -/
def readFloat? (s : String) : Option Number :=
  let (negative, cs) := sign (strip s.toList)
  let word := String.ofList (cs.map Char.toLower)
  if word = "inf" ∨ word = "infinity" then some (.float (.infinity negative))
  else if word = "nan" then some .nan
  else (Decimal.read? cs).map fun d => .float (d.toDouble negative)

end Number
end ConstLang
