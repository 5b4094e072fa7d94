import BradVector.Library.Ctype

/-!
# Decimal numerals

The decimal numeral of an integer, and that `strtol` reads back the number it is the numeral of.
-/

namespace CSem

/-- The decimal digits of a number. -/
def decimalDigits (n : Nat) : List Byte := (Nat.toDigits 10 n).map ch

/-- The decimal numeral of an integer, without leading zeros. -/
def decimal (v : Int) : List Byte :=
  if v < 0 then ch '-' :: decimalDigits v.natAbs else decimalDigits v.natAbs

theorem decimalDigits_of_lt {n : Nat} (h : n < 10) : decimalDigits n = [ch n.digitChar] := by
  rw [decimalDigits, Nat.toDigits_of_lt_base h]
  rfl

theorem decimalDigits_of_le {n : Nat} (h : 10 ≤ n) :
    decimalDigits n = decimalDigits (n / 10) ++ [ch (n % 10).digitChar] := by
  rw [decimalDigits, Nat.toDigits_of_base_le (by decide) h, List.map_append]
  rfl

theorem ch_digitChar : ∀ {n : Nat}, n < 10 →
    isDigit (ch n.digitChar) = true ∧ digitValue (ch n.digitChar) = n ∧
    (ch n.digitChar = ch '0' → n = 0) := by
  decide

theorem isDigit_of_mem_decimalDigits {n : Nat} {b : Byte} (hb : b ∈ decimalDigits n) :
    isDigit b = true := by
  induction n using Nat.strong_induction_on with
  | _ n ih =>
      by_cases hn : n < 10
      · rw [decimalDigits_of_lt hn, List.mem_singleton] at hb
        exact hb ▸ (ch_digitChar hn).1
      · have hmod : n % 10 < 10 := Nat.mod_lt _ (by decide)
        rw [decimalDigits_of_le (not_lt.mp hn), List.mem_append, List.mem_singleton] at hb
        rcases hb with hb | rfl
        · exact ih (n / 10) (by omega) hb
        · exact (ch_digitChar hmod).1

theorem decimalDigits_ne_nil (n : Nat) : decimalDigits n ≠ [] := by
  simp [decimalDigits]

theorem digitsValue_concat (base : Nat) (ds : List Byte) (b : Byte) :
    digitsValue base (ds ++ [b]) = digitsValue base ds * base + digitValue b := by
  rw [digitsValue, List.foldl_append]
  rfl

theorem digitsValue_decimalDigits (n : Nat) : digitsValue 10 (decimalDigits n) = n := by
  induction n using Nat.strong_induction_on with
  | _ n ih =>
      by_cases hn : n < 10
      · rw [decimalDigits_of_lt hn]
        exact (Nat.zero_add _).trans (ch_digitChar hn).2.1
      · have hmod : n % 10 < 10 := Nat.mod_lt _ (by decide)
        rw [decimalDigits_of_le (not_lt.mp hn), digitsValue_concat, ih (n / 10) (by omega),
          (ch_digitChar hmod).2.1]
        omega

/-- Only the numeral of 0 starts with a zero. -/
theorem headD_decimalDigits_ne {n : Nat} (hn : n ≠ 0) (rest : List Byte) :
    (decimalDigits n ++ rest).headD 0 ≠ ch '0' := by
  induction n using Nat.strong_induction_on generalizing rest with
  | _ n ih =>
      by_cases hlt : n < 10
      · rw [decimalDigits_of_lt hlt]
        exact fun h => hn ((ch_digitChar hlt).2.2 h)
      · rw [decimalDigits_of_le (not_lt.mp hlt), List.append_assoc]
        exact ih (n / 10) (by omega) (by omega) _

theorem length_decimalDigits_le {n k : Nat} (hk : 0 < k) (hn : n < 10 ^ k) :
    (decimalDigits n).length ≤ k := by
  rw [decimalDigits, List.length_map]
  exact (Nat.length_toDigits_le_iff (by decide) hk).mpr hn

theorem digitValue_eq_of_not_isAlnum {b : Byte} (h : isAlnum b = false) : digitValue b = 36 := by
  simp only [isAlnum, isAlpha, Bool.or_eq_false_iff] at h
  simp [digitValue, h]

/-- What ends a numeral: the text behind it does not start with a letter or a digit. -/
def EndsNumeral (rest : List Byte) : Prop := isAlnum (rest.headD 0) = false

section Read

variable {n : Nat} {rest : List Byte}

theorem takeWhile_decimalDigits (hrest : EndsNumeral rest) :
    (decimalDigits n ++ rest).takeWhile (fun b => digitValue b < 10) = decimalDigits n := by
  have hstop : rest.takeWhile (fun b => decide (digitValue b < 10)) = [] := by
    cases rest with
    | nil => rfl
    | cons c rest =>
        have hc : digitValue c = 36 := digitValue_eq_of_not_isAlnum hrest
        exact List.takeWhile_cons_of_neg (by simp [hc])
  rw [List.takeWhile_append_of_pos
    fun b hb => decide_eq_true (digitValue_lt_of_isDigit (isDigit_of_mem_decimalDigits hb)), hstop,
    List.append_nil]

/-- In base 0 a numeral without a leading zero is read in base 10. -/
theorem numeralBase_decimalDigits {base : Nat} (hbase : base = 0 ∨ base = 10)
    (hn : n ≠ 0 ∨ base = 10) :
    numeralBase base (decimalDigits n ++ rest) = (10, decimalDigits n ++ rest) := by
  rcases hbase with rfl | rfl
  · have hhead : (decimalDigits n ++ rest).headD 0 ≠ ch '0' :=
      headD_decimalDigits_ne (by simpa using hn) rest
    have hhex : hasHexPrefix (decimalDigits n ++ rest) = false := by
      generalize decimalDigits n ++ rest = s at hhead
      match s, hhead with
      | [], _ => rfl
      | [_], _ => rfl
      | [_, _], _ => rfl
      | z :: _ :: _ :: _, hhead =>
          have hz : (z == ch '0') = false := beq_eq_false_iff_ne.mpr hhead
          simp [hasHexPrefix, hz]
    simp only [numeralBase, true_or, if_true, hhex, Bool.false_eq_true, if_false]
    rw [if_neg (by decide), if_neg hhead]
  · rfl

theorem readNumeral_zero (hrest : EndsNumeral rest) : readNumeral (ch '0' :: rest) 0 =
    (0, rest) := by
  have hhex : hasHexPrefix (ch '0' :: rest) = false := by
    match rest, hrest with
    | [], _ => rfl
    | [_], _ => rfl
    | x :: _ :: _, hrest =>
        have hx : isAlnum x = false := hrest
        have hne : x ≠ ch 'x' ∧ x ≠ ch 'X' := by
          constructor <;> rintro rfl <;> exact absurd hx (by decide)
        simp [hasHexPrefix, hne.1, hne.2]
  have hstop : (ch '0' :: rest).takeWhile (fun b => decide (digitValue b < 8)) = [ch '0'] := by
    rw [List.takeWhile_cons_of_pos (by decide)]
    cases rest with
    | nil => rfl
    | cons c rest =>
        have hc : digitValue c = 36 := digitValue_eq_of_not_isAlnum hrest
        rw [List.takeWhile_cons_of_neg (by simp [hc])]
  have hbase : numeralBase 0 (ch '0' :: rest) = (8, ch '0' :: rest) := by
    simp only [numeralBase, true_or, if_true, hhex, Bool.false_eq_true, if_false]
    rfl
  have hsign : takeSign ((ch '0' :: rest).dropWhile isSpace) = (false, ch '0' :: rest) := rfl
  simp only [readNumeral, hsign, hbase, hstop, List.cons_ne_nil, if_false]
  rfl

theorem takeSign_decimal (v : Int) :
    takeSign ((decimal v ++ rest).dropWhile isSpace) =
      (decide (v < 0), decimalDigits v.natAbs ++ rest) := by
  unfold decimal
  split_ifs with hv
  · rw [List.cons_append, List.dropWhile_cons_of_neg (by decide)]
    simp [takeSign, hv]
  · cases hds : decimalDigits v.natAbs with
    | nil => exact absurd hds (decimalDigits_ne_nil _)
    | cons d ds =>
        have hd : isDigit d = true := isDigit_of_mem_decimalDigits (hds ▸ List.mem_cons_self)
        rw [List.cons_append, List.dropWhile_cons_of_neg (by simp [isSpace_eq_false_of_isDigit hd]),
          takeSign_of_isDigit hd]
        simp [hv]

/-- **Reading a numeral back.** -/
theorem readNumeral_decimal {base : Nat} (hbase : base = 0 ∨ base = 10) (v : Int)
    (hrest : EndsNumeral rest) : readNumeral (decimal v ++ rest) base = (v, rest) := by
  by_cases hzero : v.natAbs = 0 ∧ base = 0
  · obtain ⟨hv, rfl⟩ := hzero
    obtain rfl : v = 0 := Int.natAbs_eq_zero.mp hv
    exact readNumeral_zero hrest
  · have hdigits : numeralBase base (decimalDigits v.natAbs ++ rest) =
        (10, decimalDigits v.natAbs ++ rest) :=
      numeralBase_decimalDigits hbase (by omega)
    simp only [readNumeral, takeSign_decimal, hdigits, takeWhile_decimalDigits hrest,
      decimalDigits_ne_nil, if_false, digitsValue_decimalDigits, List.drop_left, decide_eq_true_eq]
    split_ifs with hneg
    · exact congrArg (·, rest) (show -(v.natAbs : Int) = v by omega)
    · exact congrArg (·, rest) (show (v.natAbs : Int) = v by omega)

theorem strtol_decimal {base : Nat} (hbase : base = 0 ∨ base = 10) {v : Int} (hlo : longMin ≤ v)
    (hhi : v ≤ longMax) (hrest : EndsNumeral rest) : strtol (decimal v ++ rest) base =
      (v, rest) := by
  have hread := readNumeral_decimal hbase v hrest
  refine Prod.ext ?_ (by rw [strtol_snd, hread])
  rw [strtol_fst_of_le] <;> rw [hread] <;> assumption

end Read

end CSem
