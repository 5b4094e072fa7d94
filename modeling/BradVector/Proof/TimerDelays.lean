import BradVector.Proof.CounterReads

/-!
# Microseconds of the timer

A timer of fewer than a million ticks a second has no ticks to a microsecond, and a fraction of a
tick is dropped. What is left of the delay is right: the loop ends at a reading of at least the
target, as long as the target did not wrap.
-/

namespace BradVector

open CSem

theorem timerInit_tmrFreqHz {m : Registers} {t : Nat} (h : m t timerFreq ≠ 0) :
    (timerInit m t).tmrFreqHz = m t timerFreq := if_neg h

theorem Timer.toNat_ticksPerUs (tmr : Timer) :
    tmr.ticksPerUs.toNat = tmr.tmrFreqHz.toNat / 1000000 := by
  rw [Timer.ticksPerUs, BitVec.toNat_udiv, BitVec.toNat_setWidth_of_le (by omega)]
  rfl

theorem Timer.ticksPerUs_eq_zero_iff (tmr : Timer) :
    tmr.ticksPerUs = 0 ↔ tmr.tmrFreqHz.toNat < 1000000 := by
  rw [← BitVec.toNat_inj, tmr.toNat_ticksPerUs]
  exact Nat.div_eq_zero_iff_lt (by omega)

section

variable {m : Registers} {c : Nat → Size} {t u : Nat}

/-- On any trace, also one that runs on by more than `2 ^ 32` during the call. -/
theorem timerGetCycles_between (hc : ShowsCounter m timerCntLo timerCntHi c) :
    t < (timerGetCycles m t).2 ∧ (c t).toNat ≤ (timerGetCycles m t).1.toNat ∧
      (timerGetCycles m t).1.toNat ≤ (c ((timerGetCycles m t).2 - 1)).toNat := by
  have hmono : ∀ {i j : Nat}, i ≤ j → (c i).toNat ≤ (c j).toNat := fun h => hc.mono h
  rcases timerGetCycles_cases (t := t) hc with ⟨hlow, heq⟩ | ⟨hlow, heq⟩ <;> rw [heq]
  · exact ⟨by simp, joinWords_between hc.mono (by omega) (by omega) hlow⟩
  · have hwrap := highWord_lt_of_lowWord_lt (hmono (Nat.le_add_right t 2)) hlow
    have h23 : (c (t + 2)).toNat ≤ (c (t + 3)).toNat := hmono (by omega)
    have h34 : (c (t + 3)).toNat ≤ (c (t + 4)).toNat := hmono (by omega)
    have hvalue := toNat_joinWords_of (c (t + 4)) (c (t + 3))
    refine ⟨by simp, ?_, ?_⟩
    · show (c t).toNat ≤ (joinWords _ _).toNat
      omega
    · show (joinWords _ _).toNat ≤ (c (t + 4)).toNat
      omega

theorem timerGetUs_eq_some {tmr : Timer} (h : 1000000 ≤ tmr.tmrFreqHz.toNat) :
    (timerGetUs tmr m t).1 = some ((timerGetCycles m t).1 / tmr.ticksPerUs) := by
  rw [timerGetUs]
  apply if_neg
  rw [tmr.ticksPerUs_eq_zero_iff]
  omega

theorem timerGetUs_eq_none {tmr : Timer} (h : tmr.tmrFreqHz.toNat < 1000000) :
    (timerGetUs tmr m t).1 = none := by
  rw [timerGetUs]
  exact if_pos (tmr.ticksPerUs_eq_zero_iff.mpr h)

/-- A later call does not read less. -/
theorem timerGetCycles_mono (hc : ShowsCounter m timerCntLo timerCntHi c)
    (htu : (timerGetCycles m t).2 ≤ u) :
    (timerGetCycles m t).1.toNat ≤ (timerGetCycles m u).1.toNat := by
  calc (timerGetCycles m t).1.toNat
      ≤ (c ((timerGetCycles m t).2 - 1)).toNat := (timerGetCycles_between hc).2.2
    _ ≤ (c u).toNat := hc.mono (by omega)
    _ ≤ (timerGetCycles m u).1.toNat := (timerGetCycles_between hc).2.1

/-! ### The delay -/

/-- A delay ends with a reading of at least the target. -/
theorem delay_ends {target : Size} (h : Machine.EndsWith (timerDelayTest m target) t u) :
    ∃ s, (timerGetCycles m s).2 = u ∧ target.toNat ≤ (timerGetCycles m s).1.toNat := by
  obtain ⟨n, s, -, hs⟩ := h
  rw [timerDelayTest] at hs
  by_cases hlt : (timerGetCycles m s).1 < target
  · rw [if_pos hlt] at hs
    cases hs
  · rw [if_neg hlt] at hs
    exact ⟨s, Except.error.inj hs, BitVec.le_def.mp (BitVec.not_lt.mp hlt)⟩

/-- **A delay whose target does not wrap.** The counter stands at `c` of the last read of
`start`. -/
theorem ticks_le_of_delay {tmr : Timer} {us : Size} (hc : ShowsCounter m timerCntLo timerCntHi c)
    (h : TimerDelayUs tmr m us t u)
    (hfits : (c ((timerGetCycles m t).2 - 1)).toNat + us.toNat * tmr.ticksPerUs.toNat < 2 ^ 64) :
    us.toNat * tmr.ticksPerUs.toNat ≤ (c (u - 1)).toNat - (c t).toNat := by
  rw [TimerDelayUs] at h
  obtain ⟨s, rfl, htarget⟩ := delay_ends h
  obtain ⟨-, hfirst, hstart⟩ := timerGetCycles_between (t := t) hc
  obtain ⟨-, -, hlast⟩ := timerGetCycles_between (t := s) hc
  have hproduct : (us * tmr.ticksPerUs).toNat = us.toNat * tmr.ticksPerUs.toNat := by
    rw [BitVec.toNat_mul]
    exact Nat.mod_eq_of_lt (by omega)
  rw [BitVec.toNat_add, hproduct, Nat.mod_eq_of_lt (by omega)] at htarget
  omega

end

/-! ### A counter that shows a given delay -/

/-- A counter that stands at `first` for three reads and at `next` from then on. -/
def twoValues (first next : Size) (t : Nat) : Size := if t < 3 then first else next

def timerRegisters (c : Nat → Size) (t : Nat) (a : Size) : Word :=
  if a = timerCntLo then lowWord (c t) else highWord (c t)

theorem timerRegisters_shows {first next : Size} (h : first.toNat ≤ next.toNat) :
    ShowsCounter (timerRegisters (twoValues first next)) timerCntLo timerCntHi
      (twoValues first next) where
  mono := by
    intro s t hst
    by_cases hs : s < 3 <;> by_cases ht : t < 3 <;> simp only [twoValues, hs, ht, if_true, if_false]
    all_goals omega
  low := fun t => if_pos rfl
  high := fun t => if_neg (by decide)

section

variable {first next : Size}

theorem timerGetCycles_first :
    timerGetCycles (timerRegisters (twoValues first next)) 0 = (first, 3) := by
  have hlow : ¬ lowWord first < lowWord first := BitVec.lt_irrefl _
  simp [timerGetCycles, timerRegisters, twoValues, timerCntLo, timerCntHi, timerBase, hlow,
    joinWords_self]

theorem timerGetCycles_next :
    timerGetCycles (timerRegisters (twoValues first next)) 3 = (next, 6) := by
  have hlow : ¬ lowWord next < lowWord next := BitVec.lt_irrefl _
  simp [timerGetCycles, timerRegisters, twoValues, timerCntLo, timerCntHi, timerBase, hlow,
    joinWords_self]

theorem delay_twoValues {tmr : Timer} {us : Size}
    (h : (first + us * tmr.ticksPerUs).toNat ≤ next.toNat) :
    TimerDelayUs tmr (timerRegisters (twoValues first next)) us 0 6 := by
  rw [TimerDelayUs, timerGetCycles_first]
  refine ⟨0, 3, rfl, ?_⟩
  rw [timerDelayTest, timerGetCycles_next]
  exact if_neg (BitVec.not_lt.mpr (BitVec.le_def.mpr h))

end

/-! ### What the frequency has to be -/

/-- `timer_get_us` has a result at every read, and a later call has no smaller one. -/
def GetsUs (tmr : Timer) : Prop :=
  ∀ m c, ShowsCounter m timerCntLo timerCntHi c → ∀ t u, (timerGetCycles m t).2 ≤ u →
    ∃ v w, (timerGetUs tmr m t).1 = some v ∧ (timerGetUs tmr m u).1 = some w ∧ v.toNat ≤ w.toNat

/-- When `timer_delay_us` returns, the counter has run on for `us` microseconds of `hz` ticks a
second since the call; `S` is what it showed once the call had read its start. -/
def DelaysEnough (tmr : Timer) (hz : Nat) (us S : Size) : Prop :=
  ∀ m c, ShowsCounter m timerCntLo timerCntHi c → ∀ t u, c ((timerGetCycles m t).2 - 1) = S →
    TimerDelayUs tmr m us t u → us.toNat * hz ≤ 1000000 * ((c (u - 1)).toNat - (c t).toNat)

theorem getsUs_iff (tmr : Timer) : GetsUs tmr ↔ 1000000 ≤ tmr.tmrFreqHz.toNat := by
  constructor
  · intro h
    by_contra hlow
    obtain ⟨v, -, hv, -⟩ :=
      h _ _ (timerRegisters_shows (Nat.le_refl (0 : Size).toNat)) 0 _ (Nat.le_refl _)
    rw [timerGetUs_eq_none (Nat.lt_of_not_le hlow)] at hv
    cases hv
  · intro h m c hc t u htu
    refine ⟨_, _, timerGetUs_eq_some h, timerGetUs_eq_some h, ?_⟩
    rw [BitVec.toNat_udiv, BitVec.toNat_udiv]
    apply Nat.div_le_div_right
    exact timerGetCycles_mono hc htu

section

variable {tmr : Timer} {hz : Nat} {us S : Size}

/-- The counter may stand still until the loop, and then until the target. -/
theorem DelaysEnough.le (h : DelaysEnough tmr hz us S) :
    us.toNat * hz ≤ 1000000 * ((S + us * tmr.ticksPerUs).toNat - S.toNat) := by
  obtain ⟨next, hfirst, htarget, hnext⟩ : ∃ next : Size, S.toNat ≤ next.toNat ∧
      (S + us * tmr.ticksPerUs).toNat ≤ next.toNat ∧
        next.toNat - S.toNat = (S + us * tmr.ticksPerUs).toNat - S.toNat := by
    rcases Nat.le_total S.toNat (S + us * tmr.ticksPerUs).toNat with hle | hle
    · exact ⟨_, hle, Nat.le_refl _, rfl⟩
    · exact ⟨S, Nat.le_refl _, hle, by omega⟩
  have hdelay := h _ _ (timerRegisters_shows hfirst) 0 6 (by rw [timerGetCycles_first]; rfl)
    (delay_twoValues htarget)
  have hend : twoValues S next (6 - 1) = next := rfl
  have hstart : twoValues S next 0 = S := rfl
  rwa [hend, hstart, hnext] at hdelay

theorem delaysEnough_iff (hhz : tmr.tmrFreqHz.toNat = hz) (hlow : 1000000 ≤ hz)
    (hus : us.toNat * hz / 1000000 < 2 ^ 63) :
    DelaysEnough tmr hz us S ↔
      us = 0 ∨ 1000000 ∣ hz ∧ S.toNat + us.toNat * (hz / 1000000) < 2 ^ 64 := by
  have hticks : tmr.ticksPerUs.toNat = hz / 1000000 := by rw [tmr.toNat_ticksPerUs, hhz]
  have hrounds : us.toNat * (hz / 1000000) ≤ us.toNat * hz / 1000000 :=
    Nat.mul_div_le_mul_div_assoc _ _ _
  have hproduct : (us * tmr.ticksPerUs).toNat = us.toNat * (hz / 1000000) := by
    rw [BitVec.toNat_mul, hticks]
    exact Nat.mod_eq_of_lt (by omega)
  constructor
  · intro h
    have hle := h.le
    rw [BitVec.toNat_add, hproduct] at hle
    by_cases hzero : us = 0
    · exact .inl hzero
    have hpos : 0 < us.toNat := BitVec.toNat_pos_of_ne_zero hzero
    have htotal : 0 < us.toNat * hz := Nat.mul_pos hpos (by omega)
    have hwrap : S.toNat + us.toNat * (hz / 1000000) < 2 ^ 64 := by
      by_contra hwraps
      omega
    rw [Nat.mod_eq_of_lt hwrap, Nat.add_sub_cancel_left] at hle
    refine .inr ⟨?_, hwrap⟩
    have hle' : us.toNat * hz ≤ us.toNat * (1000000 * (hz / 1000000)) := by
      calc us.toNat * hz ≤ 1000000 * (us.toNat * (hz / 1000000)) := hle
        _ = us.toNat * (1000000 * (hz / 1000000)) := Nat.mul_left_comm _ _ _
    have hwhole : hz ≤ 1000000 * (hz / 1000000) := Nat.le_of_mul_le_mul_left hle' hpos
    exact ⟨hz / 1000000, by omega⟩
  · rintro (rfl | ⟨⟨q, rfl⟩, hwrap⟩) m c hc t u hS hdelay
    · have hnone : (0 : Size).toNat * hz = 0 := Nat.zero_mul hz
      rw [hnone]
      exact Nat.zero_le _
    · rw [Nat.mul_div_cancel_left q (by omega)] at hticks hwrap
      have hticksPast := ticks_le_of_delay hc hdelay (by rw [hS, hticks]; exact hwrap)
      rw [hticks] at hticksPast
      calc us.toNat * (1000000 * q) = 1000000 * (us.toNat * q) := Nat.mul_left_comm _ _ _
        _ ≤ 1000000 * ((c (u - 1)).toNat - (c t).toNat) := Nat.mul_le_mul_left _ hticksPast

end

theorem timer_us_iff (m₀ : Registers) (t₀ : Nat) (us S : Size) (hfreq : m₀ t₀ timerFreq ≠ 0)
    (hus : us.toNat * (m₀ t₀ timerFreq).toNat / 1000000 < 2 ^ 63) :
    GetsUs (timerInit m₀ t₀) ∧ DelaysEnough (timerInit m₀ t₀) (m₀ t₀ timerFreq).toNat us S ↔
      1000000 ≤ (m₀ t₀ timerFreq).toNat ∧
        (us = 0 ∨ 1000000 ∣ (m₀ t₀ timerFreq).toNat ∧
          S.toNat + us.toNat * ((m₀ t₀ timerFreq).toNat / 1000000) < 2 ^ 64) := by
  rw [getsUs_iff, timerInit_tmrFreqHz hfreq]
  apply and_congr_right
  intro hlow
  exact delaysEnough_iff (by rw [timerInit_tmrFreqHz hfreq]) hlow hus

theorem timer_us_iff_at_50_mhz :
    GetsUs (timerInit (fun _ _ => 50000000) 0) ∧
      DelaysEnough (timerInit (fun _ _ => 50000000) 0) 50000000 10 1000 :=
  (timer_us_iff (fun _ _ => 50000000) 0 10 1000 (by decide) (by decide)).mpr
    ⟨by decide, .inr ⟨by decide, by decide⟩⟩

theorem timerGetUs_divides_by_zero :
    ¬ ∀ (m₀ : Registers) (t₀ : Nat), m₀ t₀ timerFreq ≠ 0 →
      ∀ m t, (timerGetUs (timerInit m₀ t₀) m t).1 ≠ none := by
  intro h
  exact h (fun _ _ => 32768) 0 (by decide) (fun _ _ => 0) 0 (by decide)

end BradVector
