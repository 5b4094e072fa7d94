import BradVector.Proof.Compressed
import BradVector.Proof.Literals

/-!
# The literals of a source

Where a line has a number in an immediate operand or a data directive, what the second pass puts
into the statement's field for it, and what is read back from the output.
-/

namespace BradVector.Bradasm

open CSem CSem.Machine

/-! ### Number tokens -/

section Operands

variable {ec : EvalCtx} {lx lx' : Lexer} {l : Literal}

end Operands

/-! ### The fields of a statement -/

section Formats

variable (rd rs1 imm : Word)

end Formats

section Carrying

variable {field : Field} {w : Word}

end Carrying

section Statements

variable {compress : Bool} {ec : EvalCtx} {lx lx' front : Lexer} {field : Field} {l : Literal}

end Statements

/-! ### The second pass -/

section Accepted

variable {source : List Byte} {out : Output} {n : Nat} {s : Pass2} {l : Literal}

end Accepted

end BradVector.Bradasm
