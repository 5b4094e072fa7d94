import BradVector.BradCoreEmu

/-!
# Memory accesses of the emulator

The checks of `fetch` and `execute` add the width of a word to a 32-bit address. They keep the
accesses in memory unless that sum wraps.
-/

namespace BradVector.CoreEmu

open CSem

/-- The four bytes at `addr` are in memory. -/
def InMemory (memSize : Nat) (addr : Word) : Prop := addr.toNat + 4 ≤ memSize

/-- `addr` is one of the last four addresses and the check, which sees the wrapped sum, lets it
pass, though memory does not reach that far. -/
def SlipsThrough (memSize : Nat) (addr : Word) : Prop :=
  2 ^ 32 ≤ addr.toNat + 4 ∧ addr.toNat + 4 - 2 ^ 32 ≤ memSize ∧ memSize < addr.toNat + 4

/-- A load or a store. -/
def TouchesMemory (op : BradOp) : Prop := op = .ldw ∨ op = .stw

/-- The address a load or a store goes to. -/
def dataAddr (core : CoreState) (d : BradInsn) : Word := core.regVal d.rs1 + d.imm

/-- The fetch and the execution of `d` touch bytes of memory only, and refuse the others. -/
structure AccessSafe (core : CoreState) (d : BradInsn) (mem : Nat → Byte) (memSize : Nat)
    (insnPc : Word) : Prop where
  fetch_in : ∀ addr, (fetch core mem memSize).access = some addr → InMemory memSize addr
  fetch_refused : ¬ InMemory memSize core.pc → (fetch core mem memSize).insn = none
  data_in : ∀ addr, (execute core d mem memSize insnPc).access = some addr → InMemory memSize addr
  data_refused : TouchesMemory d.opcode → ¬ InMemory memSize (dataAddr core d) →
    (execute core d mem memSize insnPc).ret = -efault ∧
      (execute core d mem memSize insnPc).core.regs = core.regs ∧
      (execute core d mem memSize insnPc).mem = mem

section Checks

variable {memSize : Nat} {addr : Word}

/-- What the check lets pass is in memory, unless it slips through. -/
theorem inMemory_or_slipsThrough (h : ¬ memSize < (addr + 4).toNat) :
    InMemory memSize addr ∨ SlipsThrough memSize addr := by
  have haddr := addr.isLt
  rw [BitVec.toNat_add] at h
  unfold InMemory SlipsThrough
  change ¬ memSize < (addr.toNat + 4) % 2 ^ 32 at h
  omega

theorem SlipsThrough.passes (h : SlipsThrough memSize addr) : ¬ memSize < (addr + 4).toNat := by
  obtain ⟨hwrap, hle, _⟩ := h
  have haddr := addr.isLt
  rw [BitVec.toNat_add]
  change ¬ memSize < (addr.toNat + 4) % 2 ^ 32
  omega

theorem SlipsThrough.not_inMemory (h : SlipsThrough memSize addr) : ¬ InMemory memSize addr :=
  Nat.not_le.mpr h.2.2

end Checks

section Fetch

variable (core : CoreState) (mem : Nat → Byte) (memSize : Nat)

theorem fetch_of_fault (h : memSize < (core.pc + 4).toNat) :
    fetch core mem memSize = ⟨none, core, none⟩ := by
  unfold fetch
  split_ifs <;> rfl

theorem fetch_of_passes (h : ¬ memSize < (core.pc + 4).toNat) :
    (fetch core mem memSize).access = some core.pc ∧ (fetch core mem memSize).insn ≠ none := by
  unfold fetch
  split_ifs
  · exact ⟨rfl, by simp⟩
  · exact ⟨rfl, by simp⟩

end Fetch

section Execute

variable {core : CoreState} {d : BradInsn} {mem : Nat → Byte} {memSize : Nat} {insnPc : Word}

theorem execute_ldw (h : d.opcode = .ldw) :
    execute core d mem memSize insnPc =
      if memSize < (dataAddr core d + 4).toNat then ⟨core.count .ldw, mem, -efault, false, none⟩
      else
        ⟨(core.count .ldw).setReg d.rd (wordAt mem (dataAddr core d).toNat), mem, 0, false,
          some (dataAddr core d)⟩ := by
  unfold execute
  rw [h]
  rfl

theorem execute_stw (h : d.opcode = .stw) :
    execute core d mem memSize insnPc =
      if memSize < (dataAddr core d + 4).toNat then ⟨core.count .stw, mem, -efault, false, none⟩
      else
        ⟨core.count .stw,
          writeBytes mem (dataAddr core d).toNat (toLE 4 (core.regVal d.rs2).toNat), 0, false,
          some (dataAddr core d)⟩ := by
  unfold execute
  rw [h]
  rfl

/-- Only loads and stores touch memory. -/
theorem execute_access_eq_none (h : ¬ TouchesMemory d.opcode) :
    (execute core d mem memSize insnPc).access = none := by
  unfold execute
  dsimp only
  cases hop : d.opcode with
  | ldw => exact absurd (.inl hop) h
  | stw => exact absurd (.inr hop) h
  | add | sub | mul | and | or | xor | shl | shr =>
      dsimp only
      split_ifs <;> rfl
  | addi | jmp | call | ret => rfl
  | bz | bnz =>
      dsimp only
      split_ifs <;> rfl

theorem execute_of_fault (h : TouchesMemory d.opcode)
    (hfault : memSize < (dataAddr core d + 4).toNat) :
    execute core d mem memSize insnPc = ⟨core.count d.opcode, mem, -efault, false, none⟩ := by
  rcases h with hop | hop
  · rw [execute_ldw hop, if_pos hfault, hop]
  · rw [execute_stw hop, if_pos hfault, hop]

theorem execute_of_passes (h : TouchesMemory d.opcode)
    (hpasses : ¬ memSize < (dataAddr core d + 4).toNat) :
    (execute core d mem memSize insnPc).access = some (dataAddr core d) := by
  rcases h with hop | hop
  · rw [execute_ldw hop, if_neg hpasses]
  · rw [execute_stw hop, if_neg hpasses]

end Execute

/-- Fetch, load and store stay in memory exactly when neither the address of the fetch nor that of
the load or store slips through the check. -/
theorem access_safe_iff (core : CoreState) (d : BradInsn) (mem : Nat → Byte) (memSize : Nat)
    (insnPc : Word) :
    AccessSafe core d mem memSize insnPc ↔
      ¬ SlipsThrough memSize core.pc ∧
        (TouchesMemory d.opcode → ¬ SlipsThrough memSize (dataAddr core d)) := by
  constructor
  · intro h
    constructor
    · intro hslip
      have hfetch := (fetch_of_passes core mem memSize hslip.passes).1
      exact hslip.not_inMemory (h.fetch_in _ hfetch)
    · intro hop hslip
      exact hslip.not_inMemory (h.data_in _ (execute_of_passes hop hslip.passes))
  · rintro ⟨hpc, hdata⟩
    refine ⟨?_, ?_, ?_, ?_⟩
    · intro addr haddr
      by_cases hfault : memSize < (core.pc + 4).toNat
      · simp [fetch_of_fault core mem memSize hfault] at haddr
      · rw [(fetch_of_passes core mem memSize hfault).1] at haddr
        obtain rfl := Option.some.inj haddr
        exact (inMemory_or_slipsThrough hfault).resolve_right hpc
    · intro hout
      have hfault : memSize < (core.pc + 4).toNat := by
        by_contra hpasses
        exact (inMemory_or_slipsThrough hpasses).elim hout hpc
      rw [fetch_of_fault core mem memSize hfault]
    · intro addr haddr
      by_cases hop : TouchesMemory d.opcode
      · by_cases hfault : memSize < (dataAddr core d + 4).toNat
        · simp [execute_of_fault hop hfault] at haddr
        · rw [execute_of_passes hop hfault] at haddr
          obtain rfl := Option.some.inj haddr
          exact (inMemory_or_slipsThrough hfault).resolve_right (hdata hop)
      · simp [execute_access_eq_none hop] at haddr
    · intro hop hout
      have hfault : memSize < (dataAddr core d + 4).toNat := by
        by_contra hpasses
        exact (inMemory_or_slipsThrough hpasses).elim hout (hdata hop)
      rw [execute_of_fault hop hfault]
      exact ⟨rfl, rfl, rfl⟩

/-- `LDW r1, [r0 + -4]` in the emulator's 64 MiB reads far behind them. -/
theorem negativeLoad_not_safe :
    ¬ ∀ core d mem memSize insnPc, AccessSafe core d mem memSize insnPc := by
  intro h
  have hsafe := h (coreInit .falcon 0 0) (bradIsaDecode 0x9100FFFC) (fun _ => 0) 67108864 0
  have hslip : SlipsThrough 67108864 (dataAddr (coreInit .falcon 0 0)
      (bradIsaDecode 0x9100FFFC)) := by
    unfold SlipsThrough
    decide
  exact hslip.not_inMemory (hsafe.data_in _ (execute_of_passes (.inl rfl) hslip.passes))

end BradVector.CoreEmu
