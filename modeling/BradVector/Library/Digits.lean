import BradVector.Library.Decimal

/-!
# Digits in two bases

What the same digits denote in a smaller base, what a numeral between blanks is read as, and what
`strtol` makes in base 0 of decimal digits of which only the first few are handed to it.
-/

namespace CSem

section Values

variable {base base' : Nat} {ds : List Byte}

theorem digitsValue_append (base : Nat) (ds es : List Byte) :
    digitsValue base (ds ++ es) = digitsValue base ds * base ^ es.length + digitsValue base es := by
  induction es using List.reverseRecOn with
  | nil => simp [digitsValue]
  | append_singleton es e ih =>
      rw [← List.append_assoc, digitsValue_concat, ih, digitsValue_concat, List.length_append,
        List.length_singleton, pow_succ]
      ring

theorem digitsValue_le_append (hbase : 0 < base) (ds es : List Byte) :
    digitsValue base ds ≤ digitsValue base (ds ++ es) := by
  rw [digitsValue_append]
  exact (Nat.le_mul_of_pos_right _ (Nat.pow_pos hbase)).trans (Nat.le_add_right _ _)

theorem digitsValue_le_of_le (h : base ≤ base') (ds : List Byte) :
    digitsValue base ds ≤ digitsValue base' ds := by
  induction ds using List.reverseRecOn with
  | nil => exact le_rfl
  | append_singleton ds d ih =>
      rw [digitsValue_concat, digitsValue_concat]
      exact Nat.add_le_add_right (Nat.mul_le_mul ih h) _

end Values

/-! ### Between blanks -/

section Blanks

variable {base : Nat} {ds : List Byte}

theorem char_of_digitValue_lt : ∀ {b : Byte}, digitValue b < 36 →
    isSpace b = false ∧ b ≠ ch '-' ∧ b ≠ ch '+' ∧ b ≠ ch ' ' := by
  decide

theorem hasHexPrefix_of_lt {s : List Byte} (h : ∀ b ∈ s, digitValue b < 16 ∨ b = ch ' ') :
    hasHexPrefix s = false := by
  match s, h with
  | [], _ => rfl
  | [_], _ => rfl
  | [_, _], _ => rfl
  | z :: x :: d :: _, h =>
      have hne : x ≠ ch 'x' ∧ x ≠ ch 'X' := by
        constructor <;> rintro rfl <;> exact absurd
          (h _ (List.mem_cons_of_mem z List.mem_cons_self)) (by decide)
      simp [hasHexPrefix, hne.1, hne.2]

theorem takeSign_digits (hbase : base ≤ 36) (hne : ds ≠ []) (hds : ∀ d ∈ ds, digitValue d < base)
    (rest : List Byte) : takeSign (ds ++ rest) = (false, ds ++ rest) := by
  cases ds with
  | nil => exact absurd rfl hne
  | cons d ds =>
      obtain ⟨-, hminus, hplus, -⟩ :=
        char_of_digitValue_lt ((hds d List.mem_cons_self).trans_le hbase)
      rw [List.cons_append, takeSign, if_neg hminus, if_neg hplus]

/-- A numeral between blanks is read as what it denotes. -/
theorem readNumeral_blanks (hbase : 0 < base) (hle : base ≤ 16) (hne : ds ≠ [])
    (hds : ∀ d ∈ ds, digitValue d < base) (minus : Bool) (l r : Nat) :
    readNumeral (List.replicate l (ch ' ') ++
      ((if minus then [ch '-'] else []) ++ (ds ++ List.replicate r (ch ' '))))
        base =
      (if minus then -(digitsValue base ds : Int) else digitsValue base ds,
        List.replicate r (ch ' ')) := by
  obtain ⟨blanks, hblanks⟩ : ∃ blanks, blanks = List.replicate r (ch ' ') := ⟨_, rfl⟩
  have hblank : ∀ b ∈ blanks, b = ch ' ' := fun b hb => List.eq_of_mem_replicate (hblanks ▸ hb)
  rw [← hblanks]
  have hsign :
      takeSign ((List.replicate l (ch ' ') ++
      ((if minus then [ch '-'] else []) ++ (ds ++ blanks))).dropWhile
      isSpace) = (minus, ds ++ blanks) := by
    rw [List.dropWhile_append_of_pos fun b hb => List.eq_of_mem_replicate hb ▸ (by decide)]
    cases minus with
    | true => rfl
    | false =>
        have hdrop : (ds ++ blanks).dropWhile isSpace = ds ++ blanks := by
          cases ds with
          | nil => exact absurd rfl hne
          | cons d ds =>
              have hd := (hds d List.mem_cons_self).trans_le (hle.trans (by decide : 16 ≤ 36))
              exact List.dropWhile_cons_of_neg (by rw [(char_of_digitValue_lt hd).1]; decide)
        exact (congrArg takeSign hdrop).trans
          (takeSign_digits (hle.trans (by decide)) hne hds blanks)
  have hnumeralBase : numeralBase base (ds ++ blanks) = (base, ds ++ blanks) := by
    have hprefix : hasHexPrefix (ds ++ blanks) = false := by
      apply hasHexPrefix_of_lt
      intro b hb
      rcases List.mem_append.mp hb with hb | hb
      · exact .inl ((hds b hb).trans_le hle)
      · exact .inr (hblank b hb)
    unfold numeralBase
    by_cases h16 : base = 16
    · rw [if_pos (.inr h16), hprefix, if_neg Bool.false_ne_true, if_pos h16, h16]
    · rw [if_neg (not_or.mpr ⟨hbase.ne', h16⟩)]
  have htake : (ds ++ blanks).takeWhile (fun b => decide (digitValue b < base)) = ds := by
    rw [List.takeWhile_append_of_pos fun d hd => decide_eq_true (hds d hd)]
    have hnone : blanks.takeWhile (fun b => decide (digitValue b < base)) = [] := by
      rw [List.takeWhile_eq_nil_iff]
      intro hpos hlt
      rw [hblank _ (List.get_mem blanks ⟨0, hpos⟩), decide_eq_true_eq] at hlt
      have hspace : digitValue (ch ' ') = 36 := by decide
      omega
    rw [hnone, List.append_nil]
  unfold readNumeral
  rw [hsign]
  dsimp only
  rw [hnumeralBase]
  dsimp only
  rw [htake, if_neg hne, List.drop_left]

theorem digitsValue_zeros (n : Nat) (ds : List Byte) :
    digitsValue base (List.replicate n (ch '0') ++ ds) = digitsValue base ds := by
  have hzero : digitsValue base (List.replicate n (ch '0')) = 0 := by
    induction n with
    | zero => rfl
    | succ n ih =>
        rw [List.replicate_succ', digitsValue_concat, ih, Nat.zero_mul]
        rfl
  rw [digitsValue_append, hzero, Nat.zero_mul, Nat.zero_add]

end Blanks

/-! ### Base 0 -/

theorem hasHexPrefix_of_digits {ds : List Byte} (h : ∀ d ∈ ds, isDigit d = true) :
    hasHexPrefix ds = false := by
  match ds, h with
  | [], _ => rfl
  | [_], _ => rfl
  | [_, _], _ => rfl
  | z :: x :: d :: _, h =>
      have hx : isDigit x = true := h x (by simp)
      have hne : x ≠ ch 'x' ∧ x ≠ ch 'X' := by
        constructor <;> rintro rfl <;> exact absurd hx (by decide)
      simp [hasHexPrefix, hne.1, hne.2]

/-- Decimal digits are read in base 8 behind a leading zero, as far as they are octal. -/
theorem readNumeral_digits {ds : List Byte} (h : ∀ d ∈ ds, isDigit d = true) :
    (readNumeral ds 0).1 =
      if ds.headD 0 = ch '0' then (digitsValue 8 (ds.takeWhile fun b => digitValue b < 8) : Int)
      else digitsValue 10 ds := by
  have hsign : takeSign (ds.dropWhile isSpace) = (false, ds) := by
    cases ds with
    | nil => rfl
    | cons d ds =>
        have hd : isDigit d = true := h d List.mem_cons_self
        rw [List.dropWhile_cons_of_neg (by simp [isSpace_eq_false_of_isDigit hd]),
          takeSign_of_isDigit hd]
  have hall : ds.takeWhile (fun b => decide (digitValue b < 10)) = ds :=
    List.takeWhile_eq_self_iff.mpr fun d hd => decide_eq_true (digitValue_lt_of_isDigit (h d hd))
  have hbase : numeralBase 0 ds = if ds.headD 0 = ch '0' then (8, ds) else (10, ds) := by
    simp [numeralBase, hasHexPrefix_of_digits h]
  unfold readNumeral
  rw [hsign]
  dsimp only
  rw [hbase]
  by_cases hzero : ds.headD 0 = ch '0'
  · rw [if_pos hzero, if_pos hzero]
    dsimp only
    by_cases hempty : (ds.takeWhile fun b => decide (digitValue b < 8)) = []
    · rw [if_pos hempty, hempty]
      rfl
    · rw [if_neg hempty]
      rfl
  · rw [if_neg hzero, if_neg hzero]
    dsimp only
    rw [hall]
    by_cases hempty : ds = []
    · rw [if_pos hempty, hempty]
      rfl
    · rw [if_neg hempty]
      rfl

section Buffer

variable {ds : List Byte} {size : Nat}

theorem headD_take_of_pos (hsize : 0 < size) (ds : List Byte) :
    (ds.take size).headD 0 = ds.headD 0 := by
  obtain ⟨size, rfl⟩ := Nat.exists_eq_succ_of_ne_zero hsize.ne'
  cases ds <;> rfl

/-- What is read of decimal digits: octal ones behind a zero, decimal ones otherwise. -/
theorem readNumeral_take (hsize : 0 < size) (h : ∀ d ∈ ds, isDigit d = true) :
    (readNumeral (ds.take size) 0).1 =
      if ds.headD 0 = ch '0' then
        (digitsValue 8 ((ds.take size).takeWhile fun b => digitValue b < 8) : Int)
      else digitsValue 10 (ds.take size) := by
  rw [readNumeral_digits fun d hd => h d (List.mem_of_mem_take hd), headD_take_of_pos hsize]

theorem digitsValue_take_le (size : Nat) (ds : List Byte) :
    digitsValue 10 (ds.take size) ≤ digitsValue 10 ds := by
  conv_rhs => rw [← List.take_append_drop size ds]
  exact digitsValue_le_append (by decide) _ _

/-- The octal digits at the head of a buffer. -/
theorem digitsValue_octal_le (size : Nat) (ds : List Byte) :
    digitsValue 8 ((ds.take size).takeWhile fun b => digitValue b < 8) ≤ digitsValue 10 ds := by
  apply (digitsValue_le_of_le (by decide : 8 ≤ 10) _).trans
  refine le_trans ?_ (digitsValue_take_le size ds)
  conv_rhs => rw [← List.takeWhile_append_dropWhile (p := fun b => decide (digitValue b < 8))
    (l := ds.take size)]
  exact digitsValue_le_append (by decide) _ _

theorem readNumeral_take_bounds (hsize : 0 < size) (h : ∀ d ∈ ds, isDigit d = true) :
    0 ≤ (readNumeral (ds.take size) 0).1 ∧ (readNumeral (ds.take size) 0).1 ≤
      digitsValue 10 ds := by
  rw [readNumeral_take hsize h]
  split_ifs
  · exact ⟨Int.natCast_nonneg _, Int.ofNat_le.mpr (digitsValue_octal_le size ds)⟩
  · exact ⟨Int.natCast_nonneg _, Int.ofNat_le.mpr (digitsValue_take_le size ds)⟩

end Buffer

end CSem
