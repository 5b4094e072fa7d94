import BradVector.Proof.CoreSteps

/-!
# The registers that Falcon-Lite does not have

Results go through a check of the register number, with two exceptions: a multiplication, which
Falcon-Lite does not have either, clears whatever register it names, and a call writes the link
register, which is one of those the model lacks.
-/

namespace BradVector.CoreEmu

open CSem

/-- The registers from 8 on hold the same in both. -/
def SameHigh (regs regs' : BitVec 4 → Word) : Prop := ∀ r : BitVec 4, 8 ≤ r.toNat → regs' r = regs r

/-- A multiplication into a high register finds it clear, and a call finds its return address in the
link register. -/
def CoreState.KeepsHigh (core : CoreState) (pc : Word) (d : BradInsn) : Prop :=
  (d.opcode = .mul → 8 ≤ d.rd.toNat → core.regs d.rd = 0) ∧
    (d.opcode = .call → core.regs bradRegLr = pc + 4)

section

variable {core : CoreState} {regs : BitVec 4 → Word} {r : BitVec 4} {v : Word}

theorem SameHigh.refl (regs : BitVec 4 → Word) : SameHigh regs regs := fun _ _ => rfl

theorem sameHigh_update_iff : SameHigh regs (Function.update regs r v) ↔
    (8 ≤ r.toNat → regs r = v) := by
  constructor
  · intro h hr
    have hnew := h r hr
    rwa [Function.update_self, eq_comm] at hnew
  · intro h r' hr'
    by_cases heq : r' = r
    · subst heq
      rw [Function.update_self, h hr']
    · rw [Function.update_of_ne heq]

theorem sameHigh_setReg (hmodel : core.model = .falconLite) (r : BitVec 4) (v : Word) :
    SameHigh core.regs (core.setReg r v).regs := by
  rw [CoreState.setReg]
  split_ifs with hlt
  · apply sameHigh_update_iff.mpr
    intro hr
    rw [hmodel] at hlt
    exact absurd hlt (Nat.not_lt.mpr hr)
  · exact SameHigh.refl _

variable {d : BradInsn} (mem : Nat → Byte) (memSize : Nat) (pc : Word)

/-- **The two exceptions.** -/
theorem execute_keeps_high_iff (hmodel : core.model = .falconLite) :
    SameHigh core.regs (execute core d mem memSize pc).core.regs ↔ core.KeepsHigh pc d := by
  have hcount : (core.count d.opcode).model = .falconLite := hmodel
  have hset : ∀ v, SameHigh core.regs ((core.count d.opcode).setReg d.rd v).regs :=
    fun v => sameHigh_setReg hcount d.rd v
  rw [CoreState.KeepsHigh, execute]
  dsimp only
  cases hop : d.opcode with
  | mul =>
      rw [hop] at hcount
      dsimp only
      rw [if_pos ⟨rfl, hcount⟩]
      exact sameHigh_update_iff.trans (by simp)
  | call => exact sameHigh_update_iff.trans (by simp [show 8 ≤ bradRegLr.toNat by decide])
  | add | sub | and | or | xor | shl | shr =>
      rw [hop] at hset
      dsimp only
      rw [if_neg (by simp)]
      exact iff_of_true (hset _) ⟨nofun, nofun⟩
  | addi =>
      rw [hop] at hset
      exact iff_of_true (hset _) ⟨nofun, nofun⟩
  | ldw =>
      rw [hop] at hset
      dsimp only
      refine iff_of_true ?_ ⟨nofun, nofun⟩
      split_ifs
      · exact SameHigh.refl _
      · exact hset _
  | stw | bz | bnz =>
      dsimp only
      refine iff_of_true ?_ ⟨nofun, nofun⟩
      split_ifs <;> exact SameHigh.refl _
  | jmp | ret => exact iff_of_true (SameHigh.refl _) ⟨nofun, nofun⟩

end

/-! ### Steps and runs -/

/-- What the step executes, if anything, keeps the high registers. -/
def Emu.KeepsHigh (s : Emu) : Prop := ∀ pc d, s.executing = some (pc, d) → s.core.KeepsHigh pc d

theorem coreEmuStep_keeps_high_iff {s : Emu} (hmodel : s.core.model = .falconLite) (memSize : Nat) :
    SameHigh s.core.regs (coreEmuStep s memSize).core.regs ↔ s.KeepsHigh := by
  cases hexecuting : s.executing with
  | none =>
      rw [coreEmuStep_regs_of_idle hexecuting]
      refine iff_of_true (SameHigh.refl _) ?_
      intro pc d h
      rw [hexecuting] at h
      cases h
  | some found =>
      obtain ⟨pc, d⟩ := found
      have hadvanced : s.advanced.model = .falconLite := hmodel
      have hiff := execute_keeps_high_iff (d := d) s.mem memSize pc hadvanced
      rw [coreEmuStep_regs hexecuting]
      refine hiff.trans ⟨fun h pc' d' hexecuting' => ?_, fun h => h pc d hexecuting⟩
      cases hexecuting.symm.trans hexecuting'
      exact h

theorem falconLite_keeps_high_iff (s : Emu) (hmodel : s.core.model = .falconLite)
    (memSize n : Nat) :
    (∀ i ≤ n, SameHigh s.core.regs (s.run memSize i).core.regs) ↔
      ∀ i < n, (s.run memSize i).KeepsHigh := by
  have hstep : ∀ i, SameHigh (s.run memSize i).core.regs (s.run memSize (i + 1)).core.regs ↔
      (s.run memSize i).KeepsHigh := by
    intro i
    rw [run_succ]
    exact coreEmuStep_keeps_high_iff ((run_model s memSize i).trans hmodel) memSize
  constructor
  · intro h i hi
    apply (hstep i).mp
    intro r hr
    rw [h (i + 1) hi r hr, h i (Nat.le_of_lt hi) r hr]
  · intro h i
    induction i with
    | zero => exact fun _ => SameHigh.refl _
    | succ i ih =>
        intro hi r hr
        rw [(hstep i).mpr (h i hi) r hr, ih (Nat.le_of_lt hi) r hr]

theorem falconLite_keeps_high_counting :
    SameHigh countingLoop.core.regs (countingLoop.run 8 9).core.regs := by
  apply (falconLite_keeps_high_iff countingLoop rfl 8 9).mpr ?_ 9 (Nat.le_refl 9)
  have hops : ∀ i < 9, ∀ found ∈ (countingLoop.run 8 i).executing,
      found.2.opcode ≠ .mul ∧ found.2.opcode ≠ .call := by decide
  intro i hi pc d hexecuting
  obtain ⟨hmul, hcall⟩ := hops i hi (pc, d) hexecuting
  exact ⟨fun h => absurd h hmul, fun h => absurd h hcall⟩

/-- A call at the start of memory. -/
def callAtStart : Emu :=
  ⟨coreInit .falconLite 0 0, writeBytes (fun _ => 0) 0 (toLE 4 (bradJMP .call 0).toNat)⟩

theorem falconLite_writes_link :
    ¬ ∀ (s : Emu) (memSize n : Nat), s.core.model = .falconLite →
      ∀ r : BitVec 4, 8 ≤ r.toNat → (s.run memSize n).core.regs r = s.core.regs r := by
  intro h
  have hlink := h callAtStart 4 2 rfl bradRegLr (by decide)
  revert hlink
  decide

end BradVector.CoreEmu
