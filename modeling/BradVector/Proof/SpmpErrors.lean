import BradVector.Proof.SpmpFresh

/-!
# Allocations that fail

An allocation that fails leaves the tables, the counters and the statistics as they were, unless one
slot is left in the table of its pool and it needs two: then the hole before the allocation has gone
into the table, on top of the block it is part of, before the slot for the hole behind it is missed.
-/

namespace BradVector

open CSem

/-- The allocation is tried on a block that it leaves a hole on either side of, and one slot is
left. -/
structure SpmpPool.OneShort (p : SpmpPool) (size alignment : Size) (i : Nat) : Prop where
  finds : p.Finds size alignment i
  slots : p.blocks.length + 1 = spmpMaxBlocks
  lead : (entry p.blocks i).addr < (entry p.blocks i).aligned alignment
  trail : (entry p.blocks i).aligned alignment + spmpNeeded size < (entry p.blocks i).endAddr

/-- The allocation succeeds, or leaves everything as it was. -/
def Spmp.KeptOnError (s : Spmp) (id : Nat) (size alignment : Size) : Prop :=
  (spmpAlloc s id size alignment).1 ≠ 0 → (spmpAlloc s id size alignment).2.1 = s

section

variable {s : Spmp} {p p' : SpmpPool} {id i : Nat} {size alignment : Size} {b : SpmpBlock}
  {lead trail : List SpmpBlock}

theorem setPool_self (hget : s.poolGet id = some p) : s.setPool id p = s := by
  obtain ⟨hlt, hp⟩ := List.getElem?_eq_some_iff.mp (poolGet_eq_some.mp hget).1
  unfold Spmp.setPool
  rw [← hp, List.set_getElem_self hlt]

theorem setPool_eq_self_iff (hget : s.poolGet id = some p) : s.setPool id p' = s ↔ p' = p := by
  refine ⟨fun heq => ?_, fun heq => heq ▸ setPool_self hget⟩
  have hlt := lt_of_poolGet hget
  have hself := (poolGet_eq_some.mp hget).1
  rw [← heq, Spmp.setPool, List.getElem?_set_self hlt] at hself
  exact Option.some.inj hself

theorem AllocSite.lead_ne_iff (hsite : AllocSite p id size alignment i b lead trail) :
    lead ≠ [] ↔ b.addr < b.aligned alignment := by
  rw [hsite.lead_eq, leadHole]
  split <;> simp_all

theorem AllocSite.trail_ne_iff (hsite : AllocSite p id size alignment i b lead trail) :
    trail ≠ [] ↔ b.aligned alignment + spmpNeeded size < b.endAddr := by
  rw [hsite.trail_eq, trailHole]
  split <;> simp_all

/-- **The pool of a failed allocation** is as it was unless the allocation is one slot short. -/
theorem alloc_error_keeps_iff (p : SpmpPool) (id : Nat) (size alignment : Size) :
    ((p.alloc id size alignment).1 ≠ 0 → (p.alloc id size alignment).2.1 = p) ↔
      ¬ ∃ i, p.OneShort size alignment i := by
  rcases alloc_cases p id size alignment with
    ⟨hnone, ret, hret, heq⟩ | ⟨i, b, lead, trail, hsite, ⟨hslots, heq⟩ |
      ⟨hslots, hlead, htrail, heq⟩⟩
  · rw [heq]
    refine iff_of_true (fun _ => rfl) ?_
    rintro ⟨i, hshort⟩
    exact hnone i hshort.finds
  · rw [heq]
    refine iff_of_true (fun h => absurd rfl h) ?_
    rintro ⟨j, hshort⟩
    obtain rfl : i = j := Option.some.inj (hsite.finds.found.symm.trans hshort.finds.found)
    have hlead := List.length_pos_of_ne_nil (hsite.lead_ne_iff.mpr (hsite.block ▸ hshort.lead))
    have htrail := List.length_pos_of_ne_nil (hsite.trail_ne_iff.mpr (hsite.block ▸ hshort.trail))
    have hone := hshort.slots
    omega
  · rw [heq]
    refine iff_of_false (fun hkeep => hlead ?_) (not_not_intro ⟨i, hsite.finds, hslots, ?_, ?_⟩)
    · have hblocks := congrArg SpmpPool.blocks (hkeep (by decide : -enospc ≠ 0))
      exact List.append_right_eq_self.mp hblocks
    · exact hsite.block ▸ hsite.lead_ne_iff.mp hlead
    · exact hsite.block ▸ hsite.trail_ne_iff.mp htrail

/-- The status of the pool is the status of the call. -/
theorem spmpAlloc_error (hinit : s.initialized = true) (hget : s.poolGet id = some p)
    (herror : (p.alloc id size alignment).1 ≠ 0) :
    spmpAlloc s id size alignment =
      ((p.alloc id size alignment).1, s.setPool id (p.alloc id size alignment).2.1, none) := by
  have hnone : (p.alloc id size alignment).2.2 = none := by
    rcases alloc_cases p id size alignment with
      ⟨-, ret, -, heq⟩ | ⟨i, b, lead, trail, -, ⟨-, heq⟩ | ⟨-, -, -, heq⟩⟩
    · rw [heq]
    · rw [heq] at herror
      exact absurd rfl herror
    · rw [heq]
  unfold spmpAlloc
  rw [if_neg (not_not_intro hinit), hget]
  dsimp only
  rcases halloc : p.alloc id size alignment with ⟨ret, p', got⟩
  rw [halloc] at hnone
  obtain rfl : got = none := hnone
  rfl

theorem spmpAlloc_ok (hinit : s.initialized = true) (hget : s.poolGet id = some p)
    (hok : (p.alloc id size alignment).1 = 0) : (spmpAlloc s id size alignment).1 = 0 := by
  unfold spmpAlloc
  rw [if_neg (not_not_intro hinit), hget]
  dsimp only
  rcases halloc : p.alloc id size alignment with ⟨ret, p', _ | ⟨addr, needed⟩⟩
  · rw [halloc] at hok
    exact hok
  · rfl

theorem keptOnError_of_get (hinit : s.initialized = true) (hget : s.poolGet id = some p) :
    s.KeptOnError id size alignment ↔
      ((p.alloc id size alignment).1 ≠ 0 → (p.alloc id size alignment).2.1 = p) := by
  unfold Spmp.KeptOnError
  by_cases hok : (p.alloc id size alignment).1 = 0
  · exact iff_of_true (fun h => absurd (spmpAlloc_ok hinit hget hok) h) fun h => absurd hok h
  · rw [spmpAlloc_error hinit hget hok, setPool_eq_self_iff hget]

end

/-- **An allocation that fails leaves everything as it was** if and only if it is not one slot
short: the pool exists, and the allocation does not find a block with a hole to leave on either side
of it when the table has one slot left. -/
theorem spmpAlloc_kept_on_error_iff (s : Spmp) (id : Nat) (size alignment : Size) :
    s.KeptOnError id size alignment ↔
      ¬ ∃ p i, s.initialized = true ∧ s.poolGet id = some p ∧ p.OneShort size alignment i := by
  by_cases hinit : s.initialized = true
  · cases hget : s.poolGet id with
    | none =>
        refine iff_of_true (fun _ => ?_) ?_
        · unfold spmpAlloc
          rw [if_neg (not_not_intro hinit), hget]
        · rintro ⟨p, i, -, hp, -⟩
          cases hp
    | some p =>
        rw [keptOnError_of_get hinit hget, alloc_error_keeps_iff]
        refine not_congr ⟨fun ⟨i, hshort⟩ => ⟨p, i, hinit, rfl, hshort⟩, ?_⟩
        rintro ⟨q, i, -, hq, hshort⟩
        cases hq
        exact ⟨i, hshort⟩
  · refine iff_of_true (fun _ => ?_) ?_
    · unfold spmpAlloc
      rw [if_pos hinit]
    · rintro ⟨p, i, h, -⟩
      exact hinit h

/-! ### A table that fills up -/

/-- A pool of a megabyte, and `k` allocations from it. -/
def fillTable (k : Nat) : List SpmpOp :=
  .poolCreate (generalPool 0x100000) :: List.replicate k (.alloc 0 64 16)

theorem fillTable_succ (k : Nat) : fillTable (k + 1) = fillTable k ++ [.alloc 0 64 16] := by
  unfold fillTable
  rw [List.replicate_succ', List.cons_append]

/-- The allocations lie in a row from the start of the pool. -/
theorem fillTable_row {k : Nat} (hk : k ≤ 510) :
    ∃ p U b, (SpmpRun.after (fillTable k)).spmp.initialized = true ∧
      (SpmpRun.after (fillTable k)).spmp.poolGet 0 = some p ∧ p.blocks = U ++ [b] ∧ U.length = k ∧
      (∀ c ∈ U, c.inUse = true) ∧ b.inUse = false ∧ b.lo = 0x100000000 + 64 * k ∧
      b.hi = 0x100100000 := by
  induction k with
  | zero => exact ⟨_, [], _, rfl, rfl, rfl, rfl, fun c hc => absurd hc List.not_mem_nil, rfl, rfl,
    rfl⟩
  | succ k ih =>
      obtain ⟨p, U, b, hinit, hget, hblocks, hlen, hU, hfree, hlo, hhi⟩ := ih (by omega)
      have hsize : b.hi = b.lo + b.size.toNat := rfl
      have hmax : spmpMaxBlocks = 512 := rfl
      have hlength : p.blocks.length = k + 1 := by
        rw [hblocks, List.length_append, hlen, List.length_singleton]
      obtain ⟨p', addr, c, t, halloc, hblocks', hcuse, htfree, htlo, hthi⟩ :=
        alloc_last 0 (z := 64) ⟨by omega, by omega, by omega⟩ hU hblocks hfree (by omega)
          (by omega) (by omega) (by omega)
      have halloc : p.alloc 0 64 16 = (0, p', some (addr, 64)) := halloc
      obtain ⟨-, hinit', hpools⟩ := spmpAlloc_of_get hinit hget 64 16
      have hactive := (alloc_keeps p 0 64 16).2.1
      rw [halloc] at hpools hactive
      rw [fillTable_succ, SpmpRun.after_append]
      refine ⟨p', U ++ [c], t, hinit', poolGet_replaced hget hpools hactive, hblocks', ?_, ?_,
        htfree, by omega, by omega⟩
      · rw [List.length_append, hlen, List.length_singleton]
      · intro d hd
        rcases List.mem_append.mp hd with hold | hnew
        · exact hU d hold
        · rw [List.mem_singleton.mp hnew]
          exact hcuse

/-- With 510 blocks of 64 bytes in use, a request at a page boundary takes the last slot and
fails. -/
theorem not_forall_kept_on_error :
    ¬ ∀ (ops : List SpmpOp) (id : Nat) (size alignment : Size),
      (SpmpRun.after ops).spmp.KeptOnError id size alignment := by
  intro hall
  obtain ⟨p, U, b, hinit, hget, hblocks, hlen, hU, hfree, hlo, hhi⟩ :=
    fillTable_row (Nat.le_refl 510)
  have hkept := (keptOnError_of_get hinit hget).mp (hall (fillTable 510) 0 64 4096)
  refine (alloc_error_keeps_iff p 0 64 4096).mp hkept ⟨U.length, ?_⟩
  have hsize : b.hi = b.lo + b.size.toNat := rfl
  have haddr : b.addr = 0x100007F80 := BitVec.eq_of_toNat_eq hlo
  have hend : b.endAddr = 0x100100000 :=
    BitVec.eq_of_toNat_eq ((SpmpBlock.endAddr_toNat (by omega)).trans hhi)
  have haligned : b.aligned 4096 = 0x100008000 := by
    unfold SpmpBlock.aligned
    rw [haddr]
    rfl
  have hneeded : spmpNeeded 64 = 64 := by decide
  have hlength : p.blocks.length + 1 = spmpMaxBlocks := by
    rw [hblocks, List.length_append, hlen]
    rfl
  have hentry : entry p.blocks U.length = b := by
    rw [hblocks, entry]
    simp
  refine ⟨finds_last hU hblocks (by omega) (by decide) ?_, hlength, ?_, ?_⟩
  · unfold SpmpBlock.fits
    rw [hfree, haligned, hend, hneeded]
    rfl
  · rw [hentry, haddr, haligned]
    decide
  · rw [hentry, haligned, hneeded, hend]
    decide

end BradVector
