import BradVector.Braddrive

/-!
# Ranges of sectors

The range check adds the first sector and the count in 64 bits, and a range that wraps round ends
low. The byte count of a read or a write goes back as an `int`, which holds less than `2 ^ 22`
sectors.
-/

namespace BradVector

open CSem

section

variable {lba count sectors : Size}

theorem isValidLba_iff : isValidLba lba count sectors = true ↔
    (lba.toNat + count.toNat) % 2 ^ 64 ≤ sectors.toNat ∧ 0 < count.toNat := by
  simp [isValidLba, BitVec.le_def, BitVec.lt_def]

/-- The range is not empty, and lies in the capacity. -/
def LbaRange (lba count sectors : Size) : Prop :=
  0 < count.toNat ∧ lba.toNat + count.toNat ≤ sectors.toNat

/-- What is accepted lies in the capacity when the sum does not wrap. -/
theorem lbaRange_iff (h : isValidLba lba count sectors = true) :
    LbaRange lba count sectors ↔ lba.toNat + count.toNat < 2 ^ 64 := by
  obtain ⟨hsum, hpos⟩ := isValidLba_iff.mp h
  have hsectors := sectors.isLt
  rw [LbaRange]
  omega

theorem bytes_toNat (h : count.toNat < 2 ^ 55) :
    (count * bradDriveSectorSize).toNat = count.toNat * 512 := by
  have hmul : (count * bradDriveSectorSize).toNat = count.toNat * 512 % 2 ^ 64 :=
    BitVec.toNat_mul _ _
  rw [hmul]
  exact Nat.mod_eq_of_lt (by omega)

theorem bytes_toInt_iff :
    (((count * bradDriveSectorSize).setWidth 32).toInt = count.toNat * 512) ↔
      count.toNat < 2 ^ 22 := by
  have hmul : (count * bradDriveSectorSize).toNat = count.toNat * 512 % 2 ^ 64 :=
    BitVec.toNat_mul _ _
  have hword : ((count * bradDriveSectorSize).setWidth 32).toNat =
      count.toNat * 512 % 2 ^ 64 % 2 ^ 32 := by
    rw [BitVec.toNat_setWidth, hmul]
  rw [BitVec.toInt_eq_toNat_cond, hword]
  split <;> omega

end

/-! ### The three commands -/

/-- A call that goes through is on a range in the drive, and when it moves bytes their number is
what is returned and what the statistic grows by. -/
structure Moves (d : BradDrive) (lba count : Size) (ret : Int) (stat stat' : Size) : Prop where
  range : LbaRange lba count (capacityToSectors d.tier)
  ret_eq : ret = count.toNat * 512
  grown : (stat' - stat).toNat = count.toNat * 512

section

variable (d : BradDrive) (lba buf count : Size)

/-- `brad_drive_read` does what it says when it goes through, which its command counter shows. -/
def ReadKeeps : Prop :=
  (bradDriveRead d lba buf count).2.1.readCmds ≠ d.readCmds →
    Moves d lba count (bradDriveRead d lba buf count).1 d.bytesRead
      (bradDriveRead d lba buf count).2.1.bytesRead

def WriteKeeps : Prop :=
  (bradDriveWrite d lba buf count).2.writeCmds ≠ d.writeCmds →
    Moves d lba count (bradDriveWrite d lba buf count).1 d.bytesWritten
      (bradDriveWrite d lba buf count).2.bytesWritten

def TrimKeeps : Prop :=
  (bradDriveTrim d lba count).2.trimCmds ≠ d.trimCmds →
    LbaRange lba count (capacityToSectors d.tier)

end

theorem moves_iff {d : BradDrive} {lba count stat : Size}
    (h : isValidLba lba count (capacityToSectors d.tier) = true) :
    Moves d lba count ((count * bradDriveSectorSize).setWidth 32).toInt stat
        (stat + count * bradDriveSectorSize) ↔
      lba.toNat + count.toNat < 2 ^ 64 ∧ count.toNat < 2 ^ 22 := by
  constructor
  · rintro ⟨hrange, hret, -⟩
    exact ⟨(lbaRange_iff h).mp hrange, bytes_toInt_iff.mp hret⟩
  · rintro ⟨hsum, hcount⟩
    refine ⟨(lbaRange_iff h).mpr hsum, bytes_toInt_iff.mpr hcount, ?_⟩
    rw [BitVec.add_comm, BitVec.add_sub_cancel]
    exact bytes_toNat (by omega)

theorem succ_ne_self (n : Word) : n + 1 ≠ n := by
  intro h
  have hone : (1 : Word) = 0 := BitVec.add_right_eq_self.mp h
  exact absurd hone (by decide)

section

variable {d : BradDrive} {lba buf count : Size}

theorem bradDriveRead_refused
    (h : ¬ (d.initialized = true ∧ buf ≠ 0 ∧
      isValidLba lba count (capacityToSectors d.tier) = true)) :
    (bradDriveRead d lba buf count).2.1 = d := by
  by_cases hinit : d.initialized = true
  · by_cases hbuf : buf = 0
    · rw [bradDriveRead, if_neg (not_not_intro hinit), if_pos hbuf]
    · have hinvalid : ¬ isValidLba lba count (capacityToSectors d.tier) = true :=
        fun hvalid => h ⟨hinit, hbuf, hvalid⟩
      rw [bradDriveRead, if_neg (not_not_intro hinit), if_neg hbuf, if_pos hinvalid]
  · rw [bradDriveRead, if_pos hinit]

theorem bradDriveWrite_refused
    (h : ¬ (d.initialized = true ∧ buf ≠ 0 ∧
      isValidLba lba count (capacityToSectors d.tier) = true)) :
    (bradDriveWrite d lba buf count).2 = d := by
  by_cases hinit : d.initialized = true
  · by_cases hbuf : buf = 0
    · rw [bradDriveWrite, if_neg (not_not_intro hinit), if_pos hbuf]
    · have hinvalid : ¬ isValidLba lba count (capacityToSectors d.tier) = true :=
        fun hvalid => h ⟨hinit, hbuf, hvalid⟩
      rw [bradDriveWrite, if_neg (not_not_intro hinit), if_neg hbuf, if_pos hinvalid]
  · rw [bradDriveWrite, if_pos hinit]

theorem bradDriveTrim_refused
    (h : ¬ (d.initialized = true ∧ isValidLba lba count (capacityToSectors d.tier) = true)) :
    (bradDriveTrim d lba count).2 = d := by
  by_cases hinit : d.initialized = true
  · have hinvalid : ¬ isValidLba lba count (capacityToSectors d.tier) = true :=
      fun hvalid => h ⟨hinit, hvalid⟩
    rw [bradDriveTrim, if_neg (not_not_intro hinit), if_pos hinvalid]
  · rw [bradDriveTrim, if_pos hinit]

end

theorem readKeeps_iff (d : BradDrive) (lba buf count : Size) :
    ReadKeeps d lba buf count ↔
      (d.initialized = true ∧ buf ≠ 0 ∧ isValidLba lba count (capacityToSectors d.tier) = true →
        lba.toNat + count.toNat < 2 ^ 64 ∧ count.toNat < 2 ^ 22) := by
  by_cases h : d.initialized = true ∧ buf ≠ 0 ∧
      isValidLba lba count (capacityToSectors d.tier) = true
  · rw [← moves_iff h.2.2, ReadKeeps, bradDriveRead, if_neg (not_not_intro h.1), if_neg h.2.1,
      if_neg (not_not_intro h.2.2)]
    exact ⟨fun hkeeps _ => hkeeps (succ_ne_self _), fun hmoves _ => hmoves h⟩
  · refine iff_of_true (fun hcounted => ?_) fun haccepted => absurd haccepted h
    rw [bradDriveRead_refused h] at hcounted
    exact absurd rfl hcounted

theorem writeKeeps_iff (d : BradDrive) (lba buf count : Size) :
    WriteKeeps d lba buf count ↔
      (d.initialized = true ∧ buf ≠ 0 ∧ isValidLba lba count (capacityToSectors d.tier) = true →
        lba.toNat + count.toNat < 2 ^ 64 ∧ count.toNat < 2 ^ 22) := by
  by_cases h : d.initialized = true ∧ buf ≠ 0 ∧
      isValidLba lba count (capacityToSectors d.tier) = true
  · rw [← moves_iff h.2.2, WriteKeeps, bradDriveWrite, if_neg (not_not_intro h.1), if_neg h.2.1,
      if_neg (not_not_intro h.2.2)]
    exact ⟨fun hkeeps _ => hkeeps (succ_ne_self _), fun hmoves _ => hmoves h⟩
  · refine iff_of_true (fun hcounted => ?_) fun haccepted => absurd haccepted h
    rw [bradDriveWrite_refused h] at hcounted
    exact absurd rfl hcounted

theorem trimKeeps_iff (d : BradDrive) (lba count : Size) :
    TrimKeeps d lba count ↔
      (d.initialized = true ∧ isValidLba lba count (capacityToSectors d.tier) = true →
        lba.toNat + count.toNat < 2 ^ 64) := by
  by_cases h : d.initialized = true ∧ isValidLba lba count (capacityToSectors d.tier) = true
  · rw [← lbaRange_iff h.2, TrimKeeps, bradDriveTrim, if_neg (not_not_intro h.1),
      if_neg (not_not_intro h.2)]
    exact ⟨fun hkeeps _ => hkeeps (succ_ne_self _), fun hrange _ => hrange h⟩
  · refine iff_of_true (fun hcounted => ?_) fun haccepted => absurd haccepted h
    rw [bradDriveTrim_refused h] at hcounted
    exact absurd rfl hcounted

theorem drive_commands_keep_iff (d : BradDrive) (lba buf count : Size) :
    (ReadKeeps d lba buf count ↔
      (d.initialized = true ∧ buf ≠ 0 ∧ isValidLba lba count (capacityToSectors d.tier) = true →
        lba.toNat + count.toNat < 2 ^ 64 ∧ count.toNat < 2 ^ 22)) ∧
    (WriteKeeps d lba buf count ↔
      (d.initialized = true ∧ buf ≠ 0 ∧ isValidLba lba count (capacityToSectors d.tier) = true →
        lba.toNat + count.toNat < 2 ^ 64 ∧ count.toNat < 2 ^ 22)) ∧
    (TrimKeeps d lba count ↔
      (d.initialized = true ∧ isValidLba lba count (capacityToSectors d.tier) = true →
        lba.toNat + count.toNat < 2 ^ 64)) :=
  ⟨readKeeps_iff d lba buf count, writeKeeps_iff d lba buf count, trimKeeps_iff d lba count⟩

/-- One sector from the last address on wraps round to the start of the drive. -/
theorem bradDriveRead_past_end :
    ¬ ∀ (d : BradDrive) (lba buf count : Size), buf ≠ 0 → ReadKeeps d lba buf count := by
  intro h
  have hrange := (h bradDriveInit 0xFFFFFFFFFFFFFFFF 1 1 (by decide) (by decide)).range
  exact absurd hrange.2 (by decide)

end BradVector
