import Mathlib.Data.BitVec
import Mathlib.Tactic.Ring

/-!
# Bytes and little-endian words

Byte strings, the little-endian encoding of numbers in them, overwriting a stretch of a byte string
and of a byte-addressed memory.
-/

namespace CSem

abbrev Byte := BitVec 8

/-! ### Little-endian numbers -/

/-- The `n` low-order bytes of `v`, least significant first. -/
def toLE : Nat → Nat → List Byte
  | 0, _ => []
  | n + 1, v => BitVec.ofNat 8 v :: toLE n (v / 256)

/-- The number a byte string denotes, least significant byte first. -/
def ofLE : List Byte → Nat
  | [] => 0
  | b :: bs => b.toNat + 256 * ofLE bs

@[simp]
theorem toLE_length (n v : Nat) : (toLE n v).length = n := by
  induction n generalizing v with
  | zero => rfl
  | succ n ih => simp [toLE, ih]

theorem ofLE_lt (bs : List Byte) : ofLE bs < 256 ^ bs.length := by
  induction bs with
  | nil => simp [ofLE]
  | cons b bs ih =>
      have hb : b.toNat < 256 := b.isLt
      rw [ofLE, List.length_cons, Nat.pow_succ]
      omega

theorem ofLE_toLE (n v : Nat) : ofLE (toLE n v) = v % 256 ^ n := by
  induction n generalizing v with
  | zero => simp [toLE, ofLE, Nat.mod_one]
  | succ n ih =>
      rw [toLE, ofLE, ih, Nat.pow_succ, Nat.mul_comm (256 ^ n) 256, Nat.mod_mul]
      simp

theorem ofLE_toLE_of_lt {n v : Nat} (h : v < 256 ^ n) : ofLE (toLE n v) = v := by
  rw [ofLE_toLE, Nat.mod_eq_of_lt h]

theorem toLE_ofLE (bs : List Byte) : toLE bs.length (ofLE bs) = bs := by
  induction bs with
  | nil => rfl
  | cons b bs ih =>
      have hb : b.toNat < 256 := b.isLt
      have hhead : BitVec.ofNat 8 (b.toNat + 256 * ofLE bs) = b := by
        apply BitVec.eq_of_toNat_eq
        simp only [BitVec.toNat_ofNat]
        omega
      have htail : (b.toNat + 256 * ofLE bs) / 256 = ofLE bs := by omega
      rw [List.length_cons, ofLE, toLE, hhead, htail, ih]

theorem toLE_mod (n v : Nat) : toLE n (v % 256 ^ n) = toLE n v := by
  have hread := toLE_ofLE (toLE n v)
  rwa [toLE_length, ofLE_toLE] at hread

/-! ### Overwriting part of a byte string -/

/-- The byte string after `memcpy(buf + off, bs, bs.length)`. -/
def writeAt (buf : List Byte) (off : Nat) (bs : List Byte) : List Byte :=
  buf.take off ++ bs ++ buf.drop (off + bs.length)

theorem writeAt_length {buf bs : List Byte} {off : Nat} (h : off + bs.length ≤ buf.length) :
    (writeAt buf off bs).length = buf.length := by
  simp only [writeAt, List.length_append, List.length_take, List.length_drop]
  omega

theorem writeAt_append {done rest bs : List Byte} {off : Nat} (hoff : off = done.length) :
    writeAt (done ++ rest) off bs = (done ++ bs) ++ rest.drop bs.length := by
  subst hoff
  simp [writeAt, List.drop_append]

theorem take_drop_of_append {buf before bs after : List Byte} {off n : Nat}
    (hbuf : buf = before ++ (bs ++ after)) (hoff : off = before.length) (hn : n = bs.length) :
    (buf.drop off).take n = bs := by
  subst hbuf hoff hn
  simp

theorem flatMap_range_split {i n : Nat} (f : Nat → List Byte) (h : i < n) :
    (List.range n).flatMap f = (List.range i).flatMap f ++
      (f i ++ (List.range (n - (i + 1))).flatMap fun j => f (i + 1 + j)) := by
  conv_lhs => rw [show n = i + 1 + (n - (i + 1)) by omega, List.range_add, List.range_succ]
  simp [List.flatMap_map]

/-! ### Byte-addressed memory -/

/-- The `n` bytes of memory from `off` on. -/
def readBytes (mem : Nat → Byte) (off n : Nat) : List Byte :=
  (List.range n).map fun i => mem (off + i)

/-- The memory after `memcpy(mem + off, bs, bs.length)`. -/
def writeBytes (mem : Nat → Byte) (off : Nat) (bs : List Byte) : Nat → Byte :=
  fun a => if off ≤ a ∧ a < off + bs.length then bs.getD (a - off) 0 else mem a

@[simp]
theorem readBytes_length (mem : Nat → Byte) (off n : Nat) : (readBytes mem off n).length = n := by
  simp [readBytes]

theorem writeBytes_of_disjoint {mem : Nat → Byte} {off a : Nat} {bs : List Byte}
    (h : a < off ∨ off + bs.length ≤ a) : writeBytes mem off bs a = mem a :=
  if_neg (by omega)

theorem writeBytes_add {mem : Nat → Byte} {off i : Nat} {bs : List Byte} (h : i < bs.length) :
    writeBytes mem off bs (off + i) = bs[i] := by
  rw [writeBytes, if_pos (by omega), Nat.add_sub_cancel_left]
  simp [h]

theorem writeBytes_writeBytes (mem : Nat → Byte) (off : Nat) (bs : List Byte) :
    writeBytes (writeBytes mem off bs) off bs = writeBytes mem off bs := by
  funext a
  unfold writeBytes
  by_cases h : off ≤ a ∧ a < off + bs.length
  · rw [if_pos h, if_pos h]
  · rw [if_neg h]

theorem writeBytes_append (mem : Nat → Byte) (off : Nat) (as bs : List Byte) :
    writeBytes mem off (as ++ bs) = writeBytes (writeBytes mem off as) (off + as.length) bs := by
  funext a
  unfold writeBytes
  rw [List.length_append]
  by_cases hb : off + as.length ≤ a ∧ a < off + as.length + bs.length
  · rw [if_pos hb, if_pos (by omega), List.getD_eq_getElem?_getD,
      List.getElem?_append_right (by omega), ← List.getD_eq_getElem?_getD,
      show a - off - as.length = a - (off + as.length) by omega]
  · rw [if_neg hb]
    by_cases ha : off ≤ a ∧ a < off + as.length
    · rw [if_pos ha, if_pos (by omega), List.getD_eq_getElem?_getD,
        List.getElem?_append_left (by omega), ← List.getD_eq_getElem?_getD]
    · rw [if_neg ha, if_neg (by omega)]

/-- A byte of a copy is the byte it was copied from. -/
theorem writeBytes_readBytes_add {mem mem' : Nat → Byte} {off a n i : Nat} (h : i < n) :
    writeBytes mem off (readBytes mem' a n) (off + i) = mem' (a + i) := by
  rw [writeBytes_add (by simpa using h)]
  simp [readBytes]

@[simp]
theorem readBytes_writeBytes_self (mem : Nat → Byte) (off : Nat) (bs : List Byte) :
    readBytes (writeBytes mem off bs) off bs.length = bs := by
  refine List.ext_getElem (by simp) fun i h₁ h₂ => ?_
  simp only [readBytes, List.getElem_map, List.getElem_range]
  exact writeBytes_add h₂

/-! ### Words in memory -/

/-- The 32-bit word at `off`, little-endian. -/
def wordAt (mem : Nat → Byte) (off : Nat) : BitVec 32 :=
  BitVec.ofNat 32 (ofLE (readBytes mem off 4))

theorem wordAt_congr {mem mem' : Nat → Byte} {off off' : Nat}
    (h : ∀ i, i < 4 → mem' (off' + i) = mem (off + i)) : wordAt mem' off' = wordAt mem off := by
  have hread : readBytes mem' off' 4 = readBytes mem off 4 :=
    List.map_congr_left fun i hi => h i (List.mem_range.mp hi)
  rw [wordAt, wordAt, hread]

theorem wordAt_writeBytes_of_disjoint {mem : Nat → Byte} {off a : Nat} {bs : List Byte}
    (h : a + 4 ≤ off ∨ off + bs.length ≤ a) : wordAt (writeBytes mem off bs) a = wordAt mem a :=
  wordAt_congr fun _ _ => writeBytes_of_disjoint (by omega)

@[simp]
theorem wordAt_writeBytes_self (mem : Nat → Byte) (off : Nat) (w : BitVec 32) :
    wordAt (writeBytes mem off (toLE 4 w.toNat)) off = w := by
  have hread := readBytes_writeBytes_self mem off (toLE 4 w.toNat)
  rw [toLE_length] at hread
  rw [wordAt, hread, ofLE_toLE_of_lt w.isLt, BitVec.ofNat_toNat, BitVec.setWidth_eq]

/-! ### Rounding -/

/-- Clearing the low four bits rounds down to a multiple of 16. -/
theorem and_not_fifteen (x : BitVec 64) : (x &&& ~~~(15 : BitVec 64)).toNat =
    x.toNat / 16 * 16 := by
  have hshift : x &&& ~~~(15 : BitVec 64) = x >>> 4 <<< 4 := by
    apply BitVec.eq_of_getLsbD_eq
    intro i hi
    have h15 : (15 : BitVec 64).getLsbD i = decide (i < 4) := by
      rw [show (15 : BitVec 64) = BitVec.ofNat 64 (2 ^ 4 - 1) from rfl, BitVec.getLsbD_ofNat,
        Nat.testBit_two_pow_sub_one]
      simp [hi]
    rw [BitVec.getLsbD_and, BitVec.getLsbD_not, h15]
    by_cases h4 : i < 4
    · simp [h4]
    · simp [h4, hi, show 4 + (i - 4) = i by omega]
  rw [hshift, BitVec.toNat_shiftLeft, BitVec.toNat_ushiftRight, Nat.shiftRight_eq_div_pow,
    Nat.shiftLeft_eq]
  have hx := x.isLt
  omega

/-- A word in the midst of the bytes written. -/
theorem wordAt_writeBytes_append (mem : Nat → Byte) (off : Nat) (as bs : List Byte)
    (w : BitVec 32) :
    wordAt (writeBytes mem off (as ++ toLE 4 w.toNat ++ bs)) (off + as.length) = w := by
  rw [writeBytes_append, wordAt_writeBytes_of_disjoint, writeBytes_append, wordAt_writeBytes_self]
  left
  rw [List.length_append, toLE_length]
  omega

end CSem
