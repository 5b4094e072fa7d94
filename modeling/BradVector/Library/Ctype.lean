import BradVector.Library.Bytes
import Mathlib.Data.List.TakeWhile

/-!
# Characters and numerals of C text

The character classes of `ctype.h` in the C locale and `strtol` for a 64-bit `long`, over the bytes
of a string.
-/

namespace CSem

/-- The byte of an ASCII character. -/
def ch (c : Char) : Byte := BitVec.ofNat 8 c.toNat

def isDigit (b : Byte) : Bool := ch '0' ≤ b && b ≤ ch '9'

def isLower (b : Byte) : Bool := ch 'a' ≤ b && b ≤ ch 'z'

def isUpper (b : Byte) : Bool := ch 'A' ≤ b && b ≤ ch 'Z'

def isAlpha (b : Byte) : Bool := isLower b || isUpper b

def isAlnum (b : Byte) : Bool := isAlpha b || isDigit b

/-- Blank, tab, newline, vertical tab, form feed and carriage return. -/
def isSpace (b : Byte) : Bool := b == 32 || 9 ≤ b && b ≤ 13

/-- What a character counts as a digit, 36 for none. -/
def digitValue (b : Byte) : Nat :=
  if isDigit b then b.toNat - (ch '0').toNat
  else if isLower b then b.toNat - (ch 'a').toNat + 10
  else if isUpper b then b.toNat - (ch 'A').toNat + 10
  else 36

/-- The number digits denote in a base. -/
def digitsValue (base : Nat) (ds : List Byte) : Nat :=
  ds.foldl (fun v b => v * base + digitValue b) 0

/-- An optional sign: whether it is a minus, and what follows it. -/
def takeSign : List Byte → Bool × List Byte
  | b :: rest =>
      if b = ch '-' then (true, rest)
      else if b = ch '+' then (false, rest)
      else (false, b :: rest)
  | [] => (false, [])

/-- Whether a hexadecimal prefix with a digit behind it stands here. -/
def hasHexPrefix : List Byte → Bool
  | z :: x :: d :: _ => z == ch '0' && (x == ch 'x' || x == ch 'X') && digitValue d < 16
  | _ => false

/-- The base a numeral is read in, and its digits on. Base 0 goes by the prefix. -/
def numeralBase (base : Nat) (s : List Byte) : Nat × List Byte :=
  if base = 0 ∨ base = 16 then
    if hasHexPrefix s then (16, s.drop 2)
    else if base = 16 then (16, s)
    else if s.headD 0 = ch '0' then (8, s) else (10, s)
  else (base, s)

/-- The number at the head of a string and what follows it, before any range check. Without digits
the number is 0 and nothing is read. -/
def readNumeral (s : List Byte) (base : Nat) : Int × List Byte :=
  let (minus, t) := takeSign (s.dropWhile isSpace)
  let (base, t) := numeralBase base t
  let ds := t.takeWhile fun b => digitValue b < base
  if ds = [] then (0, s)
  else (if minus then -(digitsValue base ds : Int) else digitsValue base ds, t.drop ds.length)

def longMin : Int := -2 ^ 63
def longMax : Int := 2 ^ 63 - 1

/-- `strtol`: a number out of the range of `long` becomes its nearest bound. -/
def strtol (s : List Byte) (base : Nat) : Int × List Byte :=
  let (v, rest) := readNumeral s base
  (max longMin (min longMax v), rest)

@[simp]
theorem strtol_snd (s : List Byte) (base : Nat) : (strtol s base).2 = (readNumeral s base).2 := rfl

theorem strtol_fst_of_le {s : List Byte} {base : Nat} (hlo : longMin ≤ (readNumeral s base).1)
    (hhi : (readNumeral s base).1 ≤ longMax) : (strtol s base).1 = (readNumeral s base).1 := by
  simp only [strtol]
  omega

theorem readNumeral_fst_of_strtol {s : List Byte} {base : Nat} (hlo : longMin < (strtol s base).1)
    (hhi : (strtol s base).1 < longMax) : (readNumeral s base).1 = (strtol s base).1 := by
  simp only [strtol] at *
  omega

/-! ### What a numeral takes -/

theorem isSpace_eq_false_of_isDigit : ∀ {b : Byte}, isDigit b = true → isSpace b = false := by
  decide

theorem digitValue_lt_of_isDigit : ∀ {b : Byte}, isDigit b = true → digitValue b < 10 := by
  decide

theorem takeSign_of_isDigit {b : Byte} {rest : List Byte} (h : isDigit b = true) :
    takeSign (b :: rest) = (false, b :: rest) := by
  have hminus : b ≠ ch '-' := by
    rintro rfl
    exact absurd h (by decide)
  have hplus : b ≠ ch '+' := by
    rintro rfl
    exact absurd h (by decide)
  rw [takeSign, if_neg hminus, if_neg hplus]

section Numerals

variable {c : Byte} {rest : List Byte}

theorem numeralBase_digits_ne_nil (h : isDigit c = true) :
    ((numeralBase 0 (c :: rest)).2.takeWhile
      fun b => digitValue b < (numeralBase 0 (c :: rest)).1) ≠ [] := by
  unfold numeralBase
  rw [if_pos (Or.inl rfl)]
  split_ifs with hhex hbase hzero
  · match rest, hhex with
    | x :: d :: tail, hhex =>
        simp only [hasHexPrefix, Bool.and_eq_true, decide_eq_true_eq] at hhex
        simp [hhex.2]
  · exact absurd hbase (by decide)
  · obtain rfl : c = ch '0' := hzero
    have hval : digitValue (ch '0') < 8 := by decide
    simp [hval]
  · simp [digitValue_lt_of_isDigit h]

theorem numeralBase_snd_length_le (base : Nat) (s : List Byte) :
    (numeralBase base s).2.length ≤ s.length := by
  unfold numeralBase
  split_ifs <;> simp

theorem readNumeral_snd_length_lt {s : List Byte} {b : Nat}
    (h : ((numeralBase b (takeSign (s.dropWhile isSpace)).2).2.takeWhile
      fun d => digitValue d < (numeralBase b (takeSign (s.dropWhile isSpace)).2).1) ≠ []) :
    (readNumeral s b).2.length < (takeSign (s.dropWhile isSpace)).2.length := by
  have hlen := numeralBase_snd_length_le b (takeSign (s.dropWhile isSpace)).2
  have hpos := List.length_pos_iff.mpr h
  have htake : ((numeralBase b (takeSign (s.dropWhile isSpace)).2).2.takeWhile _).length ≤ _ :=
    (List.takeWhile_sublist
      fun d => digitValue d < (numeralBase b (takeSign (s.dropWhile isSpace)).2).1).length_le
  simp only [readNumeral, if_neg h, List.length_drop]
  omega

/-- A numeral that starts with a digit, or a minus and a digit, takes at least that. -/
theorem readNumeral_progress
    (h : isDigit c = true ∨ c = ch '-' ∧ isDigit (rest.headD 0) = true) :
    (readNumeral (c :: rest) 0).2.length < (c :: rest).length := by
  rcases h with h | ⟨rfl, h⟩
  · have htext : takeSign ((c :: rest).dropWhile isSpace) = (false, c :: rest) := by
      rw [List.dropWhile_cons_of_neg (by simp [isSpace_eq_false_of_isDigit h]),
        takeSign_of_isDigit h]
    have hlt := readNumeral_snd_length_lt (s := c :: rest) (b := 0) (by
      rw [htext]
      exact numeralBase_digits_ne_nil h)
    rwa [htext] at hlt
  · match rest, h with
    | d :: tail, h =>
        have htext : takeSign ((ch '-' :: d :: tail).dropWhile isSpace) = (true, d :: tail) := rfl
        have hlt := readNumeral_snd_length_lt (s := ch '-' :: d :: tail) (b := 0) (by
          rw [htext]
          exact numeralBase_digits_ne_nil h)
        rw [htext] at hlt
        exact Nat.lt_succ_of_lt hlt

end Numerals

end CSem
