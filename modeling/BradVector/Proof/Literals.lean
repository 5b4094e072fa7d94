import BradVector.Bradasm
import BradVector.Library.Digits
import Mathlib.Data.BitVec

/-!
# Numbers as they are written

What a number in a source stands for, what the tokenizer takes it for, and the fields it is put
into. The tokenizer stops at the `x` of a hexadecimal number, takes a leading zero for base 8, and
hands only the first characters to `strtol`; the fields keep their low bits without a check.
-/

namespace BradVector.Bradasm

open CSem

/-! ### Literals -/

/-- A number in a source: its sign, and the text from its first character on. -/
structure Literal where
  minus : Bool
  text : List Byte
  deriving DecidableEq, Repr

namespace Literal

/-- The characters of the number token. -/
def digits (l : Literal) : List Byte := takeNumber l.text

/-- What is written behind the sign: a hexadecimal or a decimal number. A token with a dot in it is
neither. -/
def magnitude? (l : Literal) : Option Nat :=
  if hasHexPrefix l.text then
    some (digitsValue 16 ((l.text.drop 2).takeWhile fun b => digitValue b < 16))
  else if l.digits.all isDigit then some (digitsValue 10 l.digits)
  else none

/-- A number with the sign of the literal. -/
def signed (l : Literal) (n : Int) : Int := if l.minus then -n else n

/-- What the tokenizer takes the number for. -/
def taken (l : Literal) : Int := (strtol (l.digits.take (dirTextSize - 1)) 0).1

/-- What the expression takes the literal for. -/
def word (l : Literal) : Word := BitVec.ofInt 32 (l.signed l.taken)

/-- A literal of the value `n`, behind its sign, that is taken for what is written: 0, or decimal
digits without a leading zero, or so few of them with one that they fit the buffer and stand for a
digit of base 8. -/
def Plain (l : Literal) (n : Nat) : Prop :=
  n = 0 ∨ hasHexPrefix l.text = false ∧
    (l.digits.headD 0 ≠ ch '0' ∨ n < 8 ∧ l.digits.length < dirTextSize)

section Taken

variable {l : Literal} {n : Nat}

/-- The digits are read before `long` bounds their value. -/
theorem taken_eq (hdigits : ∀ d ∈ l.digits, isDigit d = true) :
    l.taken = min longMax (readNumeral (l.digits.take (dirTextSize - 1)) 0).1 := by
  have hbounds := readNumeral_take_bounds (by decide : 0 < dirTextSize - 1) hdigits
  unfold taken strtol
  dsimp only
  unfold longMin longMax
  omega

end Taken

end Literal

/-! ### Fields -/

/-- How the bits of a field are read: with two's complement, without, or in either way. -/
inductive Reading where
  | signed | unsigned | either
  deriving DecidableEq, Repr

/-- The low bits of an item. -/
structure Field where
  width : Nat
  reading : Reading
  width_pos : 0 < width
  width_le : width ≤ 32

namespace Field

/-- `.word`, `.half` and `.byte`: an assembler takes a negative number as well as one of the full
width. -/
def word : Field := ⟨32, .either, by decide, by decide⟩
def half : Field := ⟨16, .either, by decide, by decide⟩
def byte : Field := ⟨8, .either, by decide, by decide⟩

/-- The immediate of `ADDI`, `LDW` and `STW`. -/
def imm16 : Field := ⟨16, .signed, by decide, by decide⟩

/-- The least and the greatest number that come back out of a field. -/
def low (f : Field) : Int :=
  match f.reading with
  | .unsigned => 0
  | .signed | .either => -2 ^ (f.width - 1)

def high (f : Field) : Int :=
  match f.reading with
  | .signed => 2 ^ (f.width - 1) - 1
  | .unsigned | .either => 2 ^ f.width - 1

/-- The field in the low bits of `w` is read as `v`. For the immediate of an instruction that is how
the decoder reads it (`imm16_decodes_iff`). -/
def Decodes (f : Field) (w : Word) (v : Int) : Prop :=
  match f.reading with
  | .signed => (w.setWidth f.width).toInt = v
  | .unsigned => (w.setWidth f.width).toNat = v
  | .either => (w.setWidth f.width).toInt = v ∨ (w.setWidth f.width).toNat = v

/-- The literal is plain and in the range of the field. -/
def Takes (f : Field) (l : Literal) : Prop :=
  ∃ n, l.magnitude? = some n ∧ l.Plain n ∧ f.low ≤ l.signed n ∧ l.signed n ≤ f.high

section Decoding

variable {f : Field} {l : Literal} {n : Nat}

end Decoding

/-- The field of a 32-bit instruction is what the decoder makes its immediate. -/
theorem imm16_decodes_iff (w : Word) (v : Int) :
    imm16.Decodes w v ↔ (bradIsaDecode w).imm.toInt = v := by
  have himm : (bradIsaDecode w).immediate = w.setWidth 16 := by
    ext i
    simp [bradIsaDecode]
  unfold BradInsn.imm
  rw [BitVec.toInt_signExtend_of_le (by decide), himm]
  rfl

end Field

end BradVector.Bradasm
