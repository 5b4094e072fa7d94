import BradVector.Bradc

/-!
# The C library of the browser build

`wasm_shim.c` has a `strtol` of its own, for the 32-bit `long` of wasm32. Its accumulator and the
result wrap, and a signed byte that is no digit ends the numeral as any other does. It also has the
64-bit divisions that the compiler calls for.
-/

namespace BradVector

open CSem

/-- The value of a digit, by the three ranges the loop of `strtol` tests. -/
def shimDigit (c : Byte) : Option Nat :=
  if ch '0' ≤ c ∧ c ≤ ch '9' then some (c.toNat - (ch '0').toNat)
  else if ch 'a' ≤ c ∧ c ≤ ch 'f' then some (c.toNat - (ch 'a').toNat + 10)
  else if ch 'A' ≤ c ∧ c ≤ ch 'F' then some (c.toNat - (ch 'A').toNat + 10)
  else none

/-- The loop over the digits: the accumulator, whether there was `any` digit, and what follows. -/
def shimDigits (base : Nat) : List Byte → Word → Bool → Word × Bool × List Byte
  | [], acc, any => (acc, any, [])
  | c :: rest, acc, any =>
      match shimDigit c with
      | none => (acc, any, c :: rest)
      | some d =>
          if base ≤ d then (acc, any, c :: rest)
          else shimDigits base rest (acc * BitVec.ofNat 32 base + BitVec.ofNat 32 d) true

/-- `p[0] == '0' && (p[1] == 'x' || p[1] == 'X')`. -/
def shimHexPrefix (p : List Byte) : Bool :=
  p.headD 0 == ch '0' && (p.tail.headD 0 == ch 'x' || p.tail.headD 0 == ch 'X')

/-- The base and the place of the digits. -/
def shimBase (base : Nat) (p : List Byte) : Nat × List Byte :=
  if base = 0 then
    if shimHexPrefix p then (16, p.drop 2) else if p.headD 0 = ch '0' then (8, p) else (10, p)
  else if base = 16 then if shimHexPrefix p then (16, p.drop 2) else (16, p)
  else (base, p)

/-- `strtol` of `wasm_shim.c`. Negating the least `long` gives it back, as wasm's subtraction
does. -/
def shimStrtol (s : List Byte) (base : Nat) : Int × List Byte :=
  let p := s.dropWhile fun c => c == ch ' ' || c == ch '\t' || c == ch '\n'
  let (neg, p) := takeSign p
  let (base, p) := shimBase base p
  let (acc, any, p) := shimDigits base p 0 false
  (if any then (if neg then -acc else acc).toInt else 0, if any then p else s)

/-- The library of the browser build. -/
@[reducible]
def browserLibc : Libc := ⟨shimStrtol⟩

/-! ### 64-bit division -/

/-- The round of `udivmod` for bit `i`, on the quotient and the remainder. -/
def udivmodRound (a b : Size) (i : Nat) (qr : Size × Size) : Size × Size :=
  let bit : Byte := ((a >>> i) &&& 1).setWidth 8
  let r := (qr.2 <<< 1) ||| bit.setWidth 64
  if b ≤ r then (qr.1 ||| ((1 : Size) <<< i), r - b) else (qr.1, r)

/-- The loop of `udivmod` after `k` rounds, which start with bit 63. -/
def udivmodLoop (a b : Size) : Nat → Size × Size
  | 0 => (0, 0)
  | k + 1 => udivmodRound a b (63 - k) (udivmodLoop a b k)

def udivmod (a b : Size) (isDiv : Bool) : Size :=
  let (q, r) := udivmodLoop a b 64
  if isDiv then q else r

/-- `__udivdi3`. -/
def udivdi3 (a b : Size) : Size := udivmod a b true

/-- `__umoddi3`. -/
def umoddi3 (a b : Size) : Size := udivmod a b false

/-- `a < 0 ? (uint64_t)(-(uint64_t)a) : (uint64_t)a`. -/
def unsignedOf (a : Size) : Size := if a.slt 0 then -a else a

/-- `__divdi3`, on the bits of its arguments. -/
def divdi3 (a b : Size) : Size :=
  let neg := a.slt 0 != b.slt 0
  let q := udivdi3 (unsignedOf a) (unsignedOf b)
  if neg then 0 - q else q

/-- `__moddi3`, on the bits of its arguments. -/
def moddi3 (a b : Size) : Size :=
  let neg := a.slt 0
  let r := umoddi3 (unsignedOf a) (unsignedOf b)
  if neg then 0 - r else r

end BradVector
