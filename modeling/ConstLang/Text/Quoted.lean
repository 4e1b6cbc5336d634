import ConstLang.Text.Printable

/-!
Quoted text in two styles: for inspection, with the quote that needs less
escaping, and for display, always between double quotes.
-/

namespace ConstLang.Text

/-- The low hexadecimal digits of a code point, `width` of them. -/
def hex (width : Nat) (c : Char) : List Char :=
  (List.range width).reverse.map fun i => Nat.digitChar (c.toNat / Nat.pow 16 i % 16)

/-- Inside inspected text the quote in use, the backslash and the characters that are not printable
are escaped, these by as many digits as their code point needs. -/
def inspectChar (quote c : Char) : List Char :=
  if c = quote ∨ c = '\\' then ['\\', c]
  else if c = '\n' then ['\\', 'n']
  else if c = '\r' then ['\\', 'r']
  else if c = '\t' then ['\\', 't']
  else if isPrintable c then [c]
  else if c.toNat < 0x100 then '\\' :: 'x' :: hex 2 c
  else if c.toNat < 0x10000 then '\\' :: 'u' :: hex 4 c
  else '\\' :: 'U' :: hex 8 c

/-- Single quotes, unless the text has some and no double ones. -/
def inspectQuote (cs : List Char) : Char :=
  if cs.contains '\x27' && !cs.contains '\x22' then '\x22' else '\x27'

def inspect (s : String) : String :=
  let q := inspectQuote s.toList
  String.ofList (q :: (s.toList.flatMap (inspectChar q) ++ [q]))

/-- Inside displayed text the double quote, the backslash and the characters below the space are
escaped. -/
def displayChar (c : Char) : List Char :=
  if c = '\x22' ∨ c = '\\' then ['\\', c]
  else if c = '\n' then ['\\', 'n']
  else if c = '\r' then ['\\', 'r']
  else if c = '\t' then ['\\', 't']
  else if c = '\x08' then ['\\', 'b']
  else if c = '\x0c' then ['\\', 'f']
  else if c.toNat < 0x20 then '\\' :: 'u' :: hex 4 c
  else [c]

def display (s : String) : String :=
  String.ofList ('\x22' :: (s.toList.flatMap displayChar ++ ['\x22']))

end ConstLang.Text
