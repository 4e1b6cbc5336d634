/-!
The operations that a table of primitives can bind. They are the ones the library has
itself. A host may put functions of its own into a table as well; these are left out
here, since nothing is known of what they compute, keep or report.
-/

namespace ConstLang

inductive Operation
  | display
  | error
  | add
  | subtract
  | multiply
  | divide
  | remainder
  | equal
  | unequal
  | less
  | lessEq
  | greater
  | greaterEq
  | not
  /-- The text that `display` would write. -/
  | render
  /-- Whether a value is a number; a truth value is none. -/
  | isNumber
  /-- What a table binds to a name. -/
  | bindTo
  deriving DecidableEq, Repr

namespace Operation

/-- The name an operation goes by when it is bound under an empty one. -/
def ownName : Operation → String
  | .display => "display"
  | .error => "error"
  | .add => "add"
  | .subtract => "minus"
  | .multiply => "mul"
  | .divide => "div"
  | .remainder => "rem"
  | .equal => "strict_equals"
  | .unequal => "strict_not_equals"
  | .less => "lt"
  | .lessEq => "lte"
  | .greater => "gt"
  | .greaterEq => "gte"
  | .not => "logical_not"
  | .render => "stringify"
  | .isNumber => "_is_number"
  | .bindTo => "as_binding"

/-- Operations that can be named from outside; `display` belongs to one output and cannot. -/
def all : List Operation :=
  [.error, .add, .subtract, .multiply, .divide, .remainder, .equal, .unequal, .less, .lessEq,
    .greater, .greaterEq, .not, .render, .isNumber, .bindTo]

def ofOwnName? (name : String) : Option Operation := all.find? (·.ownName == name)

end Operation
end ConstLang
