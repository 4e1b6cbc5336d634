import ConstLang.Fault
import ConstLang.Text.Blank

/-!
Settings given as text. A setting that is missing or blank has its default, and
any other must be a positive integer.
-/

namespace ConstLang.Setting

def positive (key : String) (default : Int) (raw : Option String) : Except Fault Int :=
  match raw with
  | none => .ok default
  | some raw =>
      match Text.strip raw.toList with
      | [] => .ok default
      | cs =>
          match Text.readInt? cs with
          | none => .error (.mishap .domain)
          | some i => if i ≤ 0 then .error (.setting key raw) else .ok i

/-- The limit on the depth of evaluation. -/
def depthLimit (raw : Option String) : Except Fault Int :=
  positive "SYNAN_RECURSION_LIMIT" 10000 raw

end ConstLang.Setting
