/-!
Faults that carry no text: an operation met operands it is not made for.
-/

namespace ConstLang

inductive Mishap
  /-- An operand of the wrong kind, or the wrong number of operands. -/
  | kind
  /-- A number beyond the range that the operation can hold. -/
  | range
  /-- An operand of the right kind outside the domain of the operation. -/
  | domain
  /-- A result larger than can be held. -/
  | size
  /-- A key under which nothing is kept. -/
  | missing
  /-- Evaluation nested deeper than the limit in force. -/
  | stack
  deriving DecidableEq, Repr

end ConstLang
