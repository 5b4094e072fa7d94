import BradVector.Bradgfx
import BradVector.Bradxonc
import BradVector.Timer

/-!
# Counters read in two halves

`timer_get_cycles` reads the low half a second time and starts again when it went down, so what it
returns was in the counter. The energy counter and the performance counters are read once, and a
wrap of the low half between the two reads adds `2 ^ 32`.
-/

namespace BradVector

open CSem

section

variable {m : Registers} {c : Nat → Size} {t : Nat}

/-- A low half that is below an earlier one has wrapped. -/
theorem highWord_lt_of_lowWord_lt {a b : Size} (hle : a.toNat ≤ b.toNat)
    (hlow : lowWord b < lowWord a) :
    a.toNat / 2 ^ 32 < b.toNat / 2 ^ 32 := by
  rw [BitVec.lt_def, toNat_lowWord, toNat_lowWord] at hlow
  omega

/-- **The two outcomes of the reads.** The counter has been read in one piece, up to a high half
that went on in between; with the second attempt a wrap lies before it. -/
theorem timerGetCycles_cases (hc : ShowsCounter m timerCntLo timerCntHi c) :
    (lowWord (c t) ≤ lowWord (c (t + 2)) ∧
      timerGetCycles m t = (joinWords (highWord (c (t + 1))) (lowWord (c t)), t + 3)) ∨
    (lowWord (c (t + 2)) < lowWord (c t) ∧
      timerGetCycles m t = (joinWords (highWord (c (t + 3))) (lowWord (c (t + 4))), t + 5)) := by
  rw [timerGetCycles]
  simp only [hc.low, hc.high]
  by_cases hwrap : lowWord (c (t + 2)) < lowWord (c t)
  · rw [if_pos hwrap]
    exact .inr ⟨hwrap, rfl⟩
  · rw [if_neg hwrap]
    exact .inl ⟨BitVec.not_lt.mp hwrap, rfl⟩

theorem timerGetCycles_held (hc : ShowsCounter m timerCntLo timerCntHi c)
    (hlittle : AdvancesLittle c t (timerGetCycles m t).2) :
    HeldAt c t (timerGetCycles m t).2 (timerGetCycles m t).1 := by
  have hmono : ∀ {i j : Nat}, i ≤ j → (c i).toNat ≤ (c j).toNat := fun h => hc.mono h
  rcases timerGetCycles_cases (t := t) hc with ⟨hlow, heq⟩ | ⟨hlow, heq⟩ <;> rw [heq] at hlittle ⊢
  · -- no wrap is left between the two reads of the low half
    have hlast : (c (t + 2)).toNat < (c t).toNat + 2 ^ 32 := hlittle
    have hhigh : highWord (c (t + 1)) = highWord (c t) := by
      rw [BitVec.le_def, toNat_lowWord, toNat_lowWord] at hlow
      have h01 := hmono (Nat.le_add_right t 1)
      have h12 : (c (t + 1)).toNat ≤ (c (t + 2)).toNat := hmono (by omega)
      rw [highWord_eq_iff]
      omega
    exact ⟨t, Nat.le_refl t, by simp, by rw [hhigh, joinWords_self]⟩
  · -- the one wrap there can be is over
    have hlast : (c (t + 4)).toNat < (c t).toNat + 2 ^ 32 := hlittle
    have hhigh : highWord (c (t + 3)) = highWord (c (t + 4)) := by
      have hwrap := highWord_lt_of_lowWord_lt (hmono (Nat.le_add_right t 2)) hlow
      have h23 : (c (t + 2)).toNat ≤ (c (t + 3)).toNat := hmono (by omega)
      have h34 : (c (t + 3)).toNat ≤ (c (t + 4)).toNat := hmono (by omega)
      rw [highWord_eq_iff]
      omega
    exact ⟨t + 4, by omega, by simp, by rw [hhigh, joinWords_self]⟩

theorem pmuReadEnergy_eq (hc : ShowsCounter m (pmuReg pmuEnergy) (pmuReg (pmuEnergy + 4)) c) :
    pmuReadEnergy m t = (joinWords (highWord (c (t + 1))) (lowWord (c t)), t + 2) := by
  rw [pmuReadEnergy]
  simp only [hc.low, hc.high]

theorem gfxReadPerfCounter_eq {mmioBase : Size} {counter : Int} {value : Size} (hvalue : value ≠ 0)
    (hc : ShowsCounter m (mmioBase + gfxPerfCntr counter) (mmioBase + gfxPerfCntr counter + 4) c) :
    gfxReadPerfCounter m mmioBase counter value t =
      (0, some (joinWords (highWord (c (t + 1))) (lowWord (c t))), t + 2) := by
  rw [gfxReadPerfCounter, if_neg hvalue]
  simp only [hc.low, hc.high]

end

theorem counterReads_held_iff (c : Nat → Size) (t : Nat) :
    (∀ m, ShowsCounter m timerCntLo timerCntHi c → AdvancesLittle c t (timerGetCycles m t).2 →
      HeldAt c t (timerGetCycles m t).2 (timerGetCycles m t).1) ∧
    (∀ m, ShowsCounter m (pmuReg pmuEnergy) (pmuReg (pmuEnergy + 4)) c →
      AdvancesLittle c t (pmuReadEnergy m t).2 →
      (HeldAt c t (pmuReadEnergy m t).2 (pmuReadEnergy m t).1 ↔
        highWord (c t) = highWord (c (t + 1)))) ∧
    ∀ m mmioBase counter value, value ≠ 0 →
      ShowsCounter m (mmioBase + gfxPerfCntr counter) (mmioBase + gfxPerfCntr counter + 4) c →
      AdvancesLittle c t (gfxReadPerfCounter m mmioBase counter value t).2.2 →
      ∃ v u, gfxReadPerfCounter m mmioBase counter value t = (0, some v, u) ∧
        (HeldAt c t u v ↔ highWord (c t) = highWord (c (t + 1))) := by
  refine ⟨fun m hc hlittle => timerGetCycles_held hc hlittle, fun m hc hlittle => ?_,
    fun m mmioBase counter value hvalue hc hlittle => ?_⟩
  · rw [pmuReadEnergy_eq hc] at hlittle ⊢
    exact heldAt_joinWords_iff hc.mono hlittle
  · rw [gfxReadPerfCounter_eq hvalue hc] at hlittle ⊢
    exact ⟨_, _, rfl, heldAt_joinWords_iff hc.mono hlittle⟩

/-- A counter one tick from the end of its low half, with one tick a read, behind all the
registers. -/
def wrappingCounter (t : Nat) : Size := BitVec.ofNat 64 (min (0xFFFFFFFF + t) 0x100000008)

def wrappingRegisters (lo : Size) (t : Nat) (a : Size) : Word :=
  if a = lo then lowWord (wrappingCounter t) else highWord (wrappingCounter t)

theorem wrappingRegisters_shows {lo hi : Size} (h : hi ≠ lo) :
    ShowsCounter (wrappingRegisters lo) lo hi wrappingCounter where
  mono := by
    intro s t hst
    simp only [wrappingCounter, BitVec.toNat_ofNat]
    omega
  low := fun t => if_pos rfl
  high := fun t => if_neg h

theorem wrappingCounter_advancesLittle {t : Nat} : AdvancesLittle wrappingCounter 0 t := by
  rw [AdvancesLittle, wrappingCounter, wrappingCounter, BitVec.toNat_ofNat, BitVec.toNat_ofNat]
  omega

theorem counterReads_held_iff_wrapping :
    HeldAt wrappingCounter 0 5 (timerGetCycles (wrappingRegisters timerCntLo) 0).1 ∧
      ¬ HeldAt wrappingCounter 0 2 (pmuReadEnergy (wrappingRegisters (pmuReg pmuEnergy)) 0).1 ∧
      ∃ v u, gfxReadPerfCounter (wrappingRegisters gfxPerfCntr0) 0 0 1 0 = (0, some v, u) ∧
        ¬ HeldAt wrappingCounter 0 u v := by
  obtain ⟨htimer, hpmu, hgfx⟩ := counterReads_held_iff wrappingCounter 0
  have hhigh : ¬ highWord (wrappingCounter 0) = highWord (wrappingCounter (0 + 1)) := by decide
  refine ⟨htimer _ (wrappingRegisters_shows (by decide)) wrappingCounter_advancesLittle, ?_, ?_⟩
  · intro hheld
    apply hhigh
    exact (hpmu _ (wrappingRegisters_shows (by decide)) wrappingCounter_advancesLittle).mp hheld
  · obtain ⟨v, u, heq, hiff⟩ := hgfx (wrappingRegisters gfxPerfCntr0) 0 0 1 (by decide)
      (wrappingRegisters_shows (by decide)) wrappingCounter_advancesLittle
    exact ⟨v, u, heq, fun h => hhigh (hiff.mp h)⟩

theorem pmuReadEnergy_torn :
    ¬ ∀ (m : Registers) (c : Nat → Size) (t : Nat),
      ShowsCounter m (pmuReg pmuEnergy) (pmuReg (pmuEnergy + 4)) c →
        AdvancesLittle c t (pmuReadEnergy m t).2 →
          HeldAt c t (pmuReadEnergy m t).2 (pmuReadEnergy m t).1 := by
  intro h
  obtain ⟨k, -, hk, hv⟩ := h (wrappingRegisters (pmuReg pmuEnergy)) wrappingCounter 0
    (wrappingRegisters_shows (by decide)) wrappingCounter_advancesLittle
  have hvalue : (pmuReadEnergy (wrappingRegisters (pmuReg pmuEnergy)) 0).1 = 0x1FFFFFFFF := by
    decide
  have hcounter : (wrappingCounter k).toNat = 0x1FFFFFFFF := by
    rw [hv, hvalue]
    rfl
  rw [wrappingCounter, BitVec.toNat_ofNat] at hcounter
  omega

end BradVector
