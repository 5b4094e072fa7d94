import BradVector.Library.Rounding
import Mathlib.Data.Int.Log
import Mathlib.Data.Rat.Floor

/-!
# The digit formats

`_encode_float` and `_decode_float` of `_quant.py`, and its quantizer for the integer formats, in
exact rational arithmetic.
-/

namespace BradVector.Tifa

open CSem

/-- The tuple `(sign, exp, mant, bias)`. -/
structure FloatFormat where
  sign : Nat
  exp : Nat
  mant : Nat
  bias : Int
  deriving DecidableEq, Repr

def e4m3 : FloatFormat := ⟨1, 4, 3, 7⟩
def e5m2 : FloatFormat := ⟨1, 5, 2, 15⟩

/-- A Python float, with one zero. -/
inductive PyFloat where
  | nan
  | inf (negative : Bool)
  | finite (x : ℚ)
  deriving DecidableEq

/-- `math.frexp` of a positive number: `a = frac * 2**e2` with `frac` in `[0.5, 1)`. -/
def frexp (a : ℚ) : ℚ × ℤ := (a / 2 ^ (Int.log 2 a + 1), Int.log 2 a + 1)

namespace FloatFormat

variable (fmt : FloatFormat)

/-- The largest finite value. -/
def maxf : ℚ := (1 + (1 - 2 ^ (-fmt.mant : ℤ))) * 2 ^ ((2 ^ fmt.exp - 2 : ℤ) - fmt.bias)

/-- The exponent and mantissa fields of a value below the smallest normal one, as the branch
`e_field <= 0` finds them. -/
def encodeSubnormal (a : ℚ) : Nat × Nat :=
  let step : ℚ := 2 ^ (-fmt.bias - fmt.mant : ℤ)
  let m := roundHalfEven (a / step)
  if (1 <<< fmt.mant : Nat) ≤ m then (1, 0) else (0, m.toNat)

/-- The fields of a normal value, `e_field` being positive. -/
def encodeNormal (frac : ℚ) (eField : ℤ) : Nat × Nat :=
  let m := roundHalfEven ((frac - 1 / 2) * 2 ^ (fmt.mant + 1))
  if (1 <<< fmt.mant : Nat) ≤ m then
    if ((1 <<< fmt.exp : Nat) : ℤ) - 1 ≤ eField + 1 then ((1 <<< fmt.exp) - 2, (1 <<< fmt.mant) - 1)
    else ((eField + 1).toNat, 0)
  else (eField.toNat, m.toNat)

/-- The fields of a positive value. -/
def encodeFields (a : ℚ) : Nat × Nat :=
  if fmt.maxf ≤ a then (2 ^ fmt.exp - 2, (1 <<< fmt.mant) - 1)
  else
    let eField := (frexp a).2 - 1 + fmt.bias
    if eField ≤ 0 then fmt.encodeSubnormal a else fmt.encodeNormal (frexp a).1 eField

/-- `_encode_float`. -/
def encodeFloat : PyFloat → Nat
  | .nan => (0x7F <<< (fmt.mant + 1)) ||| (1 <<< fmt.mant)
  | .inf negative =>
      if negative then (0x7F <<< (fmt.mant + 1)) ||| (0x80 <<< (fmt.exp + fmt.mant))
      else 0x7F <<< (fmt.mant + 1)
  | .finite f =>
      let b := if f < 0 then 1 else 0
      if |f| = 0 then if 0 ≤ f then 0 else 0x80 <<< (fmt.exp + fmt.mant)
      else
        (b <<< (fmt.exp + fmt.mant)) ||| ((fmt.encodeFields |f|).1 <<< fmt.mant) |||
          (fmt.encodeFields |f|).2

/-- `_decode_float`. -/
def decodeFloat (bits : Nat) : PyFloat :=
  let negative := (bits >>> (fmt.exp + fmt.mant)) &&& 1 ≠ 0
  let s : ℚ := if negative then -1 else 1
  let e := (bits >>> fmt.mant) &&& (2 ^ fmt.exp - 1)
  let m := bits &&& (2 ^ fmt.mant - 1)
  if e = 2 ^ fmt.exp - 1 then
    if m ≠ 0 then .nan else .inf negative
  else if e = 0 then .finite (s * (m * 2 ^ (-fmt.mant : ℤ)) * 2 ^ (-fmt.bias + 1))
  else .finite (s * (1 + m * 2 ^ (-fmt.mant : ℤ)) * 2 ^ (e - fmt.bias))

end FloatFormat

/-! ### The integer formats -/

/-- `_int_encode(bits)`. The mask leaves the low bits of the two's complement. -/
def intEncode (bits : Nat) (f : ℚ) : Nat :=
  let lo : ℤ := -(2 ^ (bits - 1))
  let hi : ℤ := 2 ^ (bits - 1) - 1
  let v := roundHalfEven f
  (BitVec.ofInt bits (min hi (max lo v))).toNat

/-- `_int_decode(bits)`. -/
def intDecode (bits b : Nat) : ℚ :=
  let n := 1 <<< (bits - 1)
  if b < n then b else b - (1 <<< bits : Nat)

inductive IntDtype where
  | int4
  | int8
  deriving DecidableEq, Repr

/-- `int(dtype[3:])`. -/
def IntDtype.bits : IntDtype → Nat
  | .int4 => 4
  | .int8 => 8

inductive QuantMode where
  | dynamic
  | static
  deriving DecidableEq, Repr

/-- A `Quantizer` of an integer format. -/
structure Quantizer where
  dtype : IntDtype
  mode : QuantMode
  scale : Option ℚ

/-- `max((abs(v) for v in values), default=0.0)`. -/
def absMax (values : List ℚ) : ℚ := ((values.map fun v => |v|).max?).getD 0

/-- `self.scale or 1.0`. -/
def Quantizer.scaleOrOne (q : Quantizer) : ℚ := if q.scale.getD 0 = 0 then 1 else q.scale.getD 0

/-- `Quantizer.quantize`: the codes and the scale, and the quantizer with the scale it has set. -/
def Quantizer.quantize (q : Quantizer) (values : List ℚ) : (List Nat × ℚ) × Quantizer :=
  let q := match q.mode with
    | .dynamic => { q with scale := some (absMax values) }
    | .static => q
  let scale := q.scaleOrOne
  ((values.map fun v => intEncode q.dtype.bits (v / scale), scale), q)

end BradVector.Tifa
