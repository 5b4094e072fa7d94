import BradVector.WasmShim
import BradVector.Proof.Lines

/-!
# The two readings of a numeral

On the texts `bradc` reads, the browser's `strtol` and the host's take the same digits, unless a
hexadecimal prefix has no digit behind it. One wraps at 32 bits and the other stops at the bounds of
a 64-bit `long`, so that the conversion to `int` tells them apart from there on.
-/

namespace BradVector

open CSem

/-! ### Digits -/

theorem shimDigit_eq (c : Byte) :
    shimDigit c = if digitValue c < 16 then some (digitValue c) else none := by
  revert c
  decide

theorem foldl_digits_word (base : Nat) (ds : List Byte) (n : Nat) :
    BitVec.ofNat 32 (ds.foldl (fun v b => v * base + digitValue b) n) =
      ds.foldl (fun acc b => acc * BitVec.ofNat 32 base + BitVec.ofNat 32 (digitValue b))
        (BitVec.ofNat 32 n) := by
  induction ds generalizing n with
  | nil => rfl
  | cons d ds ih => rw [List.foldl_cons, List.foldl_cons, ih, BitVec.ofNat_add, BitVec.ofNat_mul]

theorem shimDigits_eq {base : Nat} (hbase : base ≤ 16) (s : List Byte) (acc : Word) (any : Bool) :
    let ds := s.takeWhile fun b => digitValue b < base
    shimDigits base s acc any =
      (ds.foldl (fun acc b => acc * BitVec.ofNat 32 base + BitVec.ofNat 32 (digitValue b)) acc,
        any || decide (ds ≠ []), s.drop ds.length) := by
  induction s generalizing acc any with
  | nil => simp [shimDigits]
  | cons c rest ih =>
      rw [shimDigits, shimDigit_eq]
      by_cases hlt : digitValue c < base
      · have hhex : digitValue c < 16 := by omega
        rw [if_pos hhex]
        simp only [if_neg (Nat.not_le.mpr hlt), ih, decide_true, hlt, List.takeWhile_cons_of_pos]
        simp
      · have htake : (c :: rest).takeWhile (fun b => decide (digitValue b < base)) = [] :=
          List.takeWhile_cons_of_neg (by simp [hlt])
        rw [htake]
        by_cases hhex : digitValue c < 16
        · simp [hhex, Nat.le_of_not_lt hlt]
        · simp [hhex]

/-! ### What is read -/

/-- A zero and an `x` with no hexadecimal digit behind them, after an optional sign. -/
def BareHexPrefix (s : List Byte) : Prop :=
  shimHexPrefix (takeSign s).2 = true ∧ hasHexPrefix (takeSign s).2 = false

instance (s : List Byte) : Decidable (BareHexPrefix s) := by
  unfold BareHexPrefix
  infer_instance

/-- The texts `bradc` has read: a numeral in any base, or what follows the first letter of an
identifier in base 10. -/
def BradcReads (s : List Byte) (base : Nat) : Prop :=
  base = 0 ∧ StartsNumeral s ∨ base = 10 ∧ ∀ b ∈ s, isIdChar b = true

theorem not_space_of_digit {c : Byte} (h : isDigit c = true) :
    isSpace c = false ∧ (c == ch ' ' || c == ch '\t' || c == ch '\n') = false := by
  revert c
  decide

theorem not_space_of_idChar {c : Byte} (h : isIdChar c = true) :
    isSpace c = false ∧ (c == ch ' ' || c == ch '\t' || c == ch '\n') = false := by
  revert c
  decide

theorem BradcReads.no_blanks {s : List Byte} {base : Nat} (h : BradcReads s base) :
    s.dropWhile isSpace = s ∧
      (s.dropWhile fun c => c == ch ' ' || c == ch '\t' || c == ch '\n') = s := by
  cases s with
  | nil => exact ⟨rfl, rfl⟩
  | cons c rest =>
      have hc : isSpace c = false ∧ (c == ch ' ' || c == ch '\t' || c == ch '\n') = false := by
        rcases h with ⟨-, hdigit | ⟨rfl, -⟩⟩ | ⟨-, hid⟩
        · exact not_space_of_digit hdigit
        · decide
        · exact not_space_of_idChar (hid c List.mem_cons_self)
      rw [List.dropWhile_cons_of_neg (by simp [hc.1]), List.dropWhile_cons_of_neg (by simp [hc.2])]
      exact ⟨rfl, rfl⟩

theorem shimHexPrefix_of_hasHexPrefix {p : List Byte} (h : hasHexPrefix p = true) :
    shimHexPrefix p = true := by
  match p, h with
  | z :: x :: d :: _, h =>
      simp only [hasHexPrefix, Bool.and_eq_true] at h
      simp only [shimHexPrefix, List.headD_cons, List.tail_cons, Bool.and_eq_true]
      exact h.1

theorem shimBase_eq {p : List Byte} {base : Nat} (hbase : base = 0 ∨ base = 10)
    (hbare : ¬ (base = 0 ∧ shimHexPrefix p = true ∧ hasHexPrefix p = false)) :
    shimBase base p = numeralBase base p ∧ (numeralBase base p).1 ≤ 16 := by
  rcases hbase with rfl | rfl
  · have hiff : shimHexPrefix p = hasHexPrefix p := by
      cases hhex : hasHexPrefix p with
      | true => exact shimHexPrefix_of_hasHexPrefix hhex
      | false =>
          by_contra hne
          exact hbare ⟨rfl, by simpa using hne, hhex⟩
    unfold shimBase numeralBase
    rw [if_pos rfl, if_pos (Or.inl rfl), hiff, if_neg (show ¬ (0 : Nat) = 16 by decide)]
    refine ⟨rfl, ?_⟩
    split_ifs <;> simp
  · exact ⟨rfl, by simp [numeralBase]⟩

theorem word_of_digits (neg : Bool) (base : Nat) (ds : List Byte) :
    (if neg then
        -ds.foldl (fun acc b => acc * BitVec.ofNat 32 base + BitVec.ofNat 32 (digitValue b)) 0
      else ds.foldl (fun acc b => acc * BitVec.ofNat 32 base + BitVec.ofNat 32 (digitValue b)) 0) =
      BitVec.ofInt 32 (if neg then -(digitsValue base ds : Int) else digitsValue base ds) := by
  have hfold := foldl_digits_word base ds 0
  unfold digitsValue
  rw [show BitVec.ofNat 32 0 = (0 : Word) from rfl] at hfold
  rw [← hfold]
  cases neg
  · simp
  · simp only [if_true]
    rw [BitVec.ofInt_neg, BitVec.ofInt_natCast]

/-- Apart from a bare prefix, the shim reads the numeral that is written, up to `2 ^ 32`. -/
theorem shimStrtol_eq {s : List Byte} {base : Nat} (h : BradcReads s base)
    (hbare : ¬ (base = 0 ∧ BareHexPrefix s)) :
    (shimStrtol s base).2 = (readNumeral s base).2 ∧
      BitVec.ofInt 32 (shimStrtol s base).1 = BitVec.ofInt 32 (readNumeral s base).1 := by
  obtain ⟨hspace, hshim⟩ := h.no_blanks
  have hcases : base = 0 ∨ base = 10 := h.imp And.left And.left
  obtain ⟨hbase, hle⟩ := shimBase_eq (p := (takeSign s).2) hcases hbare
  have hdigits := shimDigits_eq hle (numeralBase base (takeSign s).2).2 0 false
  unfold shimStrtol readNumeral
  simp only [hspace, hshim, hbase, hdigits, Bool.false_or]
  generalize (numeralBase base (takeSign s).2).2 = t
  generalize (numeralBase base (takeSign s).2).1 = b
  by_cases hnil : (t.takeWhile fun c => decide (digitValue c < b)) = []
  · simp [hnil]
  · simp only [hnil, ne_eq, not_false_eq_true, decide_true, if_true, if_false, true_and]
    rw [word_of_digits, BitVec.ofInt_toInt]

/-- At a bare prefix the host reads the zero, and the shim nothing. -/
theorem strtol_of_bareHexPrefix {s : List Byte} (hnum : StartsNumeral s) (hbare : BareHexPrefix s) :
    (shimStrtol s 0).2 = s ∧ (strtol s 0).2.length < s.length := by
  have h : BradcReads s 0 := Or.inl ⟨rfl, hnum⟩
  refine ⟨?_, hostStrtol_progress hnum⟩
  have hdigits (t : List Byte) := shimDigits_eq (le_refl 16) t 0 false
  unfold shimStrtol
  simp only [h.no_blanks.2, shimBase, hbare.1, if_true, hdigits, Bool.false_or]
  rw [if_neg]
  simp only [ne_eq, decide_eq_true_eq, not_not]
  -- what follows the two characters is no hexadecimal digit
  have hno := hbare.2
  have hyes := hbare.1
  match (takeSign s).2, hno, hyes with
  | [], _, hyes => simp
  | [_], _, hyes => simp
  | [_, _], _, hyes => simp
  | z :: x :: d :: rest, hno, hyes =>
      simp only [shimHexPrefix, List.headD_cons, List.tail_cons] at hyes
      simp only [hasHexPrefix, hyes, Bool.true_and, decide_eq_false_iff_not] at hno
      simp [hno]

/-! ### Agreement -/

/-- The browser's `strtol` stops where the host's does, with a value that is the same `int`. -/
def StrtolAgrees (s : List Byte) (base : Nat) : Prop :=
  (shimStrtol s base).2 = (strtol s base).2 ∧
    BitVec.ofInt 32 (shimStrtol s base).1 = BitVec.ofInt 32 (strtol s base).1

/-- The number fits a 64-bit `long`, or has the low 32 bits of the bound that stands in for it. -/
def FitsLong (v : Int) : Prop :=
  (longMin ≤ v ∧ v ≤ longMax) ∨ (longMax < v ∧ v % 2 ^ 32 = 2 ^ 32 - 1) ∨
    (v < longMin ∧ v % 2 ^ 32 = 0)

instance (v : Int) : Decidable (FitsLong v) := by
  unfold FitsLong
  infer_instance

theorem ofInt_eq_iff {v w : Int} :
    BitVec.ofInt 32 v = BitVec.ofInt 32 w ↔ v % 2 ^ 32 = w % 2 ^ 32 := by
  rw [← BitVec.toNat_inj, BitVec.toNat_ofInt, BitVec.toNat_ofInt]
  omega

theorem clamp_word_eq_iff (v : Int) :
    BitVec.ofInt 32 v = BitVec.ofInt 32 (max longMin (min longMax v)) ↔ FitsLong v := by
  rw [ofInt_eq_iff]
  unfold FitsLong longMin longMax
  omega

/-- **The two `strtol`s.** On every text `bradc` reads, the browser's `strtol` agrees with the
host's exactly when the text is not a bare hexadecimal prefix and the number fits a 64-bit `long`,
or happens to have the low 32 bits of the bound that it exceeds. -/
theorem strtolAgrees_iff {s : List Byte} {base : Nat} (h : BradcReads s base) :
    StrtolAgrees s base ↔ ¬ (base = 0 ∧ BareHexPrefix s) ∧ FitsLong (readNumeral s base).1 := by
  by_cases hbare : base = 0 ∧ BareHexPrefix s
  · refine iff_of_false (fun hagrees => ?_) fun hcond => hcond.1 hbare
    obtain ⟨rfl, hbare⟩ := hbare
    have hnum : StartsNumeral s := by
      rcases h with ⟨-, hnum⟩ | ⟨hten, -⟩
      · exact hnum
      · cases hten
    obtain ⟨hshim, hhost⟩ := strtol_of_bareHexPrefix hnum hbare
    rw [← hagrees.1, hshim] at hhost
    exact Nat.lt_irrefl _ hhost
  · obtain ⟨hend, hvalue⟩ := shimStrtol_eq h hbare
    unfold StrtolAgrees
    rw [hend, hvalue, strtol_snd]
    simp only [strtol, true_and, hbare, not_false_eq_true]
    exact clamp_word_eq_iff _

/-- A negative hexadecimal number that needs all 32 bits. -/
theorem strtolAgrees_minus_hex : StrtolAgrees (cstr "-0xFFFFFFFF, S1") 0 :=
  (strtolAgrees_iff (Or.inl ⟨rfl, by decide⟩)).mpr
    ⟨by decide, by decide⟩

/-- A bare prefix, and a number that exceeds 64 bits. -/
theorem not_forall_strtolAgrees :
    ¬ (∀ s base, BradcReads s base → StrtolAgrees s base) ∧
      ¬ StrtolAgrees (cstr "0x") 0 ∧ ¬ StrtolAgrees (cstr "9223372036854775808") 0 := by
  have hpre : ¬ StrtolAgrees (cstr "0x") 0 := by
    unfold StrtolAgrees
    decide
  have hlarge : ¬ StrtolAgrees (cstr "9223372036854775808") 0 := by
    unfold StrtolAgrees
    decide
  exact ⟨fun h => hpre (h _ _ (Or.inl ⟨rfl, by decide⟩)), hpre, hlarge⟩

end BradVector
