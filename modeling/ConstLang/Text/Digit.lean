/-!
Decimal digits of every script, and whole numbers written with them.
-/

namespace ConstLang.Text

/-- The code points of the digit zero; the digits one to nine follow each of them. -/
def zeroCodes : List Nat :=
  [0x30, 0x660, 0x6f0, 0x7c0, 0x966, 0x9e6, 0xa66, 0xae6, 0xb66, 0xbe6, 0xc66, 0xce6, 0xd66, 0xde6,
    0xe50, 0xed0, 0xf20, 0x1040, 0x1090, 0x17e0, 0x1810, 0x1946, 0x19d0, 0x1a80, 0x1a90, 0x1b50,
    0x1bb0, 0x1c40, 0x1c50, 0xa620, 0xa8d0, 0xa900, 0xa9d0, 0xa9f0, 0xaa50, 0xabf0, 0xff10, 0x104a0,
    0x10d30, 0x11066, 0x110f0, 0x11136, 0x111d0, 0x112f0, 0x11450, 0x114d0, 0x11650, 0x116c0,
    0x11730, 0x118e0, 0x11950, 0x11c50, 0x11d50, 0x11da0, 0x16a60, 0x16ac0, 0x16b50, 0x1d7ce,
    0x1d7d8, 0x1d7e2, 0x1d7ec, 0x1d7f6, 0x1e140, 0x1e2f0, 0x1e950, 0x1fbf0]

def digitValue? (c : Char) : Option Nat :=
  zeroCodes.findSome? fun z =>
    if z ≤ c.toNat ∧ c.toNat < z + 10 then some (c.toNat - z) else none

/-- Whether a digit comes first. -/
def startsWithDigit (cs : List Char) : Bool :=
  cs.head?.any fun c => (digitValue? c).isSome

/-- The leading run of digits and what follows it. A single underscore may stand between two digits,
so one is passed over only right after a digit, which `joined` tells, and before another. -/
def digitRun (joined : Bool) : List Char → List Nat × List Char
  | [] => ([], [])
  | c :: cs =>
      match digitValue? c with
      | some v =>
          let (vs, rest) := digitRun true cs
          (v :: vs, rest)
      | none =>
          if joined && c == '_' && startsWithDigit cs then digitRun false cs else ([], c :: cs)

def ofDigits (digits : List Nat) : Nat := digits.foldl (fun n d => 10 * n + d) 0

/-- The sign in front, true for a minus, and what follows it. -/
def sign : List Char → Bool × List Char
  | '-' :: cs => (true, cs)
  | '+' :: cs => (false, cs)
  | cs => (false, cs)

/-- The most digits an integer may have in text, read or written. -/
def digitLimit : Nat := 4300

/-- An integer that fills the whole text: a sign, then digits up to the limit. -/
def readInt? (cs : List Char) : Option Int :=
  let (negative, rest) := sign cs
  match digitRun false rest with
  | (ds@(_ :: _), []) =>
      if ds.length ≤ digitLimit then
        some (if negative then -(ofDigits ds : Int) else ofDigits ds)
      else none
  | _ => none

/-- The decimal text of an integer of any size. -/
def writeInt (i : Int) : String :=
  let digits := Nat.repr i.natAbs
  if i < 0 then "-" ++ digits else digits

/-- The decimal text of an integer; none beyond the limit of digits. -/
def writeInt? (i : Int) : Option String :=
  if (Nat.repr i.natAbs).length ≤ digitLimit then some (writeInt i) else none

end ConstLang.Text
