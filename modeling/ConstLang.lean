import ConstLang.Query
import ConstLang.Walk
import ConstLang.Proofs.Agreement
import ConstLang.Proofs.Assignment
import ConstLang.Proofs.Calls
import ConstLang.Proofs.Consistency
import ConstLang.Proofs.Depth.Limit
import ConstLang.Proofs.Display
import ConstLang.Proofs.FreeNames
import ConstLang.Proofs.History
import ConstLang.Proofs.Initialization.Program
import ConstLang.Proofs.Marker.Confinement
import ConstLang.Proofs.Marker.Nesting
import ConstLang.Proofs.Marker.ShortCircuit
import ConstLang.Proofs.Overwriting
import ConstLang.Proofs.ReadingFault
import ConstLang.Proofs.Refusal
import ConstLang.Proofs.Repetition
import ConstLang.Proofs.Resolution
import ConstLang.Proofs.Splicing
import ConstLang.Proofs.Subtraction
import ConstLang.Proofs.Tree.Insertion
import ConstLang.Proofs.WriteOnce
