import BradVector.Proof.LaneBody
import Mathlib.Algebra.BigOperators.Ring.Finset
import Mathlib.Data.BitVec
import Mathlib.Data.Fintype.Basic

/-!
# Atomic additions

The lanes of an `ATOMIC_ADD` add one after the other. A word they target is left with the sum of
what they add to it, and a lane gets back the sum up to the lanes before it.
-/

namespace BradVector

open CSem

/-- The offset of the word that a lane adds to, and what it adds. -/
def Device.target (d : Device) (i : BvInsn) (l : Fin warpSize) : Nat := ((d.lane l).memAddr i).toNat

def Device.operand (d : Device) (i : BvInsn) (l : Fin warpSize) : Word := (d.lane l).s i.src2

/-- What the enabled lanes below `k` add to the word at `off`. -/
def Device.added (d : Device) (i : BvInsn) (k off : Nat) : Word :=
  ∑ l : Fin warpSize,
    if l.val < k ∧ d.EnabledLane i.pred l ∧ d.target i l = off then d.operand i l else 0

/-- The words that enabled lanes add to are in memory, and two of them are the same or apart. -/
structure Device.TargetsWords (d : Device) (i : BvInsn) : Prop where
  inside : ∀ l, d.EnabledLane i.pred l → d.target i l + 4 ≤ d.mem.size
  apart : ∀ l l', d.EnabledLane i.pred l → d.EnabledLane i.pred l' →
    d.target i l = d.target i l' ∨ d.target i l + 4 ≤ d.target i l' ∨
      d.target i l' + 4 ≤ d.target i l

/-- `d'` is what the additions make of `d`. -/
structure Device.AddsAtomically (d : Device) (i : BvInsn) (d' : Device) : Prop where
  words : ∀ l, d.EnabledLane i.pred l → wordAt d'.mem.bytes (d.target i l) =
    wordAt d.mem.bytes (d.target i l) + d.added i warpSize (d.target i l)
  rest : ∀ off, (∀ l, d.EnabledLane i.pred l → off < d.target i l ∨ d.target i l + 4 ≤ off) →
    d'.mem.bytes off = d.mem.bytes off
  size : d'.mem.size = d.mem.size
  returned : ∀ l, d.EnabledLane i.pred l → d'.lane l =
    (d.lane l).wrS i.dst (wordAt d.mem.bytes (d.target i l) + d.added i l (d.target i l))
  others : ∀ l, ¬ d.EnabledLane i.pred l → d'.lane l = d.lane l

section Loop

variable {d : Device} {i : BvInsn} {l : Fin warpSize}

theorem added_zero (d : Device) (i : BvInsn) (off : Nat) : d.added i 0 off = 0 := by
  unfold Device.added
  apply Finset.sum_eq_zero
  intro l _
  exact if_neg fun h => absurd h.1 (Nat.not_lt_zero _)

/-- A lane's share comes in behind those of the lanes before it. -/
theorem added_succ (d : Device) (i : BvInsn) (l : Fin warpSize) (off : Nat) :
    d.added i (l + 1) off =
      d.added i l off + if d.EnabledLane i.pred l ∧ d.target i l = off then d.operand i l
        else 0 := by
  have hshare : (if d.EnabledLane i.pred l ∧ d.target i l = off then d.operand i l else 0) =
      ∑ m : Fin warpSize,
        if m = l then (if d.EnabledLane i.pred l ∧ d.target i l = off then d.operand i l else 0)
          else 0 := by
    rw [Finset.sum_ite_eq' Finset.univ l]
    exact (if_pos (Finset.mem_univ l)).symm
  rw [hshare]
  unfold Device.added
  rw [← Finset.sum_add_distrib]
  apply Finset.sum_congr rfl
  intro m _
  by_cases heq : m = l
  · subst heq
    rw [if_pos rfl, if_neg fun h : m.val < m.val ∧ _ => Nat.lt_irrefl _ h.1, zero_add]
    exact if_congr (and_iff_right (Nat.lt_succ_self _)) rfl rfl
  · have hne : m.val ≠ l.val := fun hval => heq (Fin.ext hval)
    rw [if_neg heq, add_zero]
    apply if_congr _ rfl rfl
    apply and_congr_left'
    omega

/-- The memory before lane `k`. -/
structure Device.AddedBelow (d : Device) (i : BvInsn) (k : Nat) (m : DevMem) : Prop where
  size : m.size = d.mem.size
  words : ∀ l, d.EnabledLane i.pred l → wordAt m.bytes (d.target i l) =
    wordAt d.mem.bytes (d.target i l) + d.added i k (d.target i l)
  rest : ∀ off, (∀ l, d.EnabledLane i.pred l → off < d.target i l ∨ d.target i l + 4 ≤ off) →
    m.bytes off = d.mem.bytes off

theorem addedBelow_start (d : Device) (i : BvInsn) : d.AddedBelow i 0 d.mem := by
  refine ⟨rfl, ?_, fun _ _ => rfl⟩
  intro l _
  rw [added_zero, add_zero]

theorem Device.AddedBelow.skip {m : DevMem} (h : d.AddedBelow i l m)
    (hl : ¬ d.EnabledLane i.pred l) :
    d.AddedBelow i (l + 1) m := by
  refine ⟨h.size, ?_, h.rest⟩
  intro l' hl'
  rw [added_succ, if_neg fun hadds => hl hadds.1, add_zero]
  exact h.words l' hl'

/-- The addition of an enabled lane. -/
theorem Device.AddedBelow.add {m : DevMem} (h : d.AddedBelow i l m) (htargets : d.TargetsWords i)
    (hl : d.EnabledLane i.pred l) :
    d.AddedBelow i (l + 1)
      { m with
        bytes := writeBytes m.bytes (d.target i l)
          (toLE 4 (wordAt m.bytes (d.target i l) + d.operand i l).toNat) } := by
  refine ⟨h.size, ?_, ?_⟩
  · intro l' hl'
    rw [added_succ, ← add_assoc, ← h.words l' hl']
    dsimp only
    by_cases heq : d.target i l = d.target i l'
    · rw [← heq, wordAt_writeBytes_self, if_pos ⟨hl, rfl⟩]
    · rw [if_neg fun hadds => heq hadds.2, add_zero]
      apply wordAt_writeBytes_of_disjoint
      rw [toLE_length]
      obtain hsame | happart := htargets.apart l l' hl hl'
      · exact absurd hsame heq
      · exact happart.symm
  · intro off hoff
    rw [← h.rest off hoff]
    apply writeBytes_of_disjoint
    rw [toLE_length]
    exact hoff l hl

/-- What a lane does with the memory that the lanes before it leave. -/
theorem atomicAdd_of_inside {m : DevMem} (h : d.AddedBelow i l m)
    (hin : d.target i l + 4 ≤ d.mem.size) (rands : Nat) :
    atomicAdd i ⟨d.lane l, m, rands⟩ =
      .ok ⟨(d.lane l).wrS i.dst (wordAt m.bytes (d.target i l)),
        { m with
          bytes := writeBytes m.bytes (d.target i l)
            (toLE 4 (wordAt m.bytes (d.target i l) + d.operand i l).toNat) }, rands⟩ := by
  have hsize : m.size ≤ 2 ^ 26 := m.size_le
  have hle : d.target i l + 4 ≤ m.size := h.size ▸ hin
  have hbounds : m.outOfBounds ((d.lane l).memAddr i) 4 = false := by
    unfold Device.target at hle
    unfold DevMem.outOfBounds
    rw [decide_eq_false_iff_not, BitVec.toNat_add, BitVec.toNat_ofNat]
    omega
  unfold atomicAdd
  dsimp only
  rw [hbounds, if_neg Bool.false_ne_true]
  change (m.read32 (d.target i l)).bind _ = _
  rw [read32_of_le hle, Outcome.ok_bind]
  change (m.write32 (d.target i l) _).bind _ = _
  rw [write32_of_le hle]
  rfl

end Loop

/-- **Atomic additions.** Every word that enabled lanes target is left with all that they add, every
lane gets the word as it finds it, and all else stays. -/
theorem bvrtStep_adds_atomically (F : HostMath) {d : Device} (hex : d.Executing)
    (hop : Opcode.ofByte d.fetch.op = some .atomicAdd) (hpred : ¬ PredOutOfRange d.fetch.pred)
    (htargets : d.TargetsWords d.fetch) :
    ∃ d', bvrtStep F d = .ok (.ok, d') ∧ d.AddsAtomically d.fetch d' := by
  have heff : effect F d.counted.warp.pc d.counted.warp.cycles d.fetch =
      .lanes fun _ => atomicAdd d.fetch := by
    unfold effect
    rw [hop]
  let returned := fun l (r : Lane) => r = (d.lane l).wrS d.fetch.dst
    (wordAt d.mem.bytes (d.target d.fetch l) + d.added d.fetch l (d.target d.fetch l))
  have hadds : ∀ l m r, d.counted.EnabledLane d.fetch.pred l → d.AddedBelow d.fetch l m →
      (atomicAdd d.fetch ⟨d.counted.lane l, m, r⟩).Sat
        (fun c => returned l c.lane ∧ d.AddedBelow d.fetch (l + 1) c.mem) (fun _ => False)
        fun _ => False := by
    intro l m r hl h
    have hlane : atomicAdd d.fetch ⟨d.counted.lane l, m, r⟩ = _ :=
      atomicAdd_of_inside h (htargets.inside l hl) r
    rw [hlane]
    exact ⟨by unfold returned; rw [h.words l hl], h.add htargets hl⟩
  obtain ⟨e, he, hdone, hmem⟩ := forLanes_completes (d := d.counted)
    (J := fun k m _ => d.AddedBelow d.fetch k m) (Q := returned) hpred (addedBelow_start d d.fetch)
      (fun _ _ _ hl h => h.skip hl) hadds
  refine ⟨e.advance, ?_, hmem.words, hmem.rest, hmem.size, fun l hl => hdone.post_of_enabled hl,
    fun l hl => hdone.lane_eq_of_not_enabled hl⟩
  rw [bvrtStep_of_executing hex, executeInsn_of_lanes heff he]
  rfl

/-- A kernel `k` in which every lane adds its number to the first word of memory. -/
def countKernel : BvbcImage :=
  { BvbcImage.zero with
    kernels := [{ name := kernelName (cstr "k"), entry := 0, nargs := 0 }]
    insns := .array [bven Opcode.atomicAdd.toByte 0 2 0 1 0 0 0]
    ninsn := 1 }

def countLaunched : Device :=
  (bvrtLaunch (bvrtLoad (bvrtCreate 64 fun _ => 0) countKernel) (cstr "k") []).getD
    (bvrtCreate 64 fun _ => 0)

theorem countKernel_adds_atomically :
    ∃ d', bvrtStep HostMath.integer countLaunched = .ok (.ok, d') ∧
      wordAt d'.mem.bytes 0 = 496 ∧ (d'.lane ⟨4, by decide⟩).s 2 = 6 := by
  have htarget : ∀ l, countLaunched.target countLaunched.fetch l = 0 := by
    decide
  have henabled : ∀ l, countLaunched.EnabledLane countLaunched.fetch.pred l := by
    decide
  obtain ⟨d', hstep, hadds⟩ := bvrtStep_adds_atomically HostMath.integer (d := countLaunched)
    ⟨by decide, by decide, by decide⟩ rfl (by decide)
    ⟨fun l _ => by rw [htarget]; decide, fun l l' _ _ => .inl ((htarget l).trans (htarget l').symm)⟩
  refine ⟨d', hstep, ?_, ?_⟩
  · have hword := hadds.words ⟨4, by decide⟩ (henabled _)
    rw [htarget] at hword
    rw [hword]
    decide
  · rw [hadds.returned ⟨4, by decide⟩ (henabled _), htarget]
    decide

end BradVector
