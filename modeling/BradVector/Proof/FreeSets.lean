import BradVector.Proof.SpmpEncryption
import Mathlib.Data.Set.Defs

/-!
# Free addresses

The addresses in the free blocks of a pool, in every state that the calls lead to, also where the
table has come out of order. Merging keeps them, and so does an allocation that fails, with a hole
on top of its block or without. An allocation that is freed again gives them back, unless the start
of its block was rounded past the last address.
-/

namespace BradVector

open CSem

/-- The addresses in the free blocks. -/
def freeSet (T : List SpmpBlock) : Set Nat := {x | ∃ b ∈ T, b.inUse = false ∧ b.lo ≤ x ∧ x < b.hi}

/-- 1 if the block is free and holds the address. -/
def SpmpBlock.freeHolds (x : Nat) (b : SpmpBlock) : Nat := if b.inUse then 0 else b.holds x

section Count

variable {T T' : List SpmpBlock} {b : SpmpBlock} {x : Nat}

theorem SpmpBlock.freeHolds_of_free (h : b.inUse = false) (x : Nat) :
    b.freeHolds x = b.holds x := by
  rw [freeHolds, h]
  rfl

theorem SpmpBlock.freeHolds_of_inUse (h : b.inUse = true) (x : Nat) : b.freeHolds x = 0 := by
  rw [freeHolds, h]
  rfl

theorem SpmpBlock.freeHolds_pos_iff : 0 < b.freeHolds x ↔ b.inUse = false ∧ b.lo ≤ x ∧
    x < b.hi := by
  cases huse : b.inUse with
  | true => simp [freeHolds_of_inUse huse]
  | false =>
      rw [freeHolds_of_free huse, holds]
      split_ifs with hin
      · simp [hin]
      · simp [hin]

theorem mem_freeSet_iff : x ∈ freeSet T ↔ 0 < total (SpmpBlock.freeHolds x) T := by
  constructor
  · rintro ⟨b, hb, hfree⟩
    exact (SpmpBlock.freeHolds_pos_iff.mpr hfree).trans_le (le_total hb)
  · intro hpos
    by_contra hnone
    apply hpos.ne'
    apply total_eq_zero
    intro b hb
    apply Nat.eq_zero_of_not_pos
    exact fun h => hnone ⟨b, hb, SpmpBlock.freeHolds_pos_iff.mp h⟩

theorem freeSet_congr (h : ∀ x, total (SpmpBlock.freeHolds x) T' =
    total (SpmpBlock.freeHolds x) T) :
    freeSet T' = freeSet T := by
  ext x
  rw [mem_freeSet_iff, mem_freeSet_iff, h]

theorem total_freeHolds (h : ∀ b ∈ T, b.inUse = false) :
    total (SpmpBlock.freeHolds x) T = total (SpmpBlock.holds x) T := by
  rw [total, total, List.map_congr_left fun b hb => SpmpBlock.freeHolds_of_free (h b hb) x]

/-- A hole on top of a free block. -/
theorem freeSet_append_of_subset
    (h : ∀ c ∈ T', ∃ b ∈ T, b.inUse = false ∧ b.lo ≤ c.lo ∧ c.hi ≤ b.hi) :
    freeSet (T ++ T') = freeSet T := by
  ext x
  constructor
  · rintro ⟨c, hc, hfree, hlow, hhigh⟩
    rcases List.mem_append.mp hc with hold | hnew
    · exact ⟨c, hold, hfree, hlow, hhigh⟩
    · obtain ⟨b, hb, hbfree, hblow, hbhigh⟩ := h c hnew
      exact ⟨b, hb, hbfree, hblow.trans hlow, hhigh.trans_le hbhigh⟩
  · rintro ⟨c, hc, hfree⟩
    exact ⟨c, List.mem_append_left T' hc, hfree⟩

theorem bounded_iff :
    Bounded T ↔ ∀ b ∈ T, b.hi < 2 ^ 64 ∧ (b.inUse = false → 0 < b.lo) := by
  constructor
  · intro h b hb
    obtain ⟨i, hi, rfl⟩ := List.getElem_of_mem hb
    rw [← entry_of_lt hi]
    exact ⟨h.hi_lt i, h.lo_pos i⟩
  · intro h
    refine ⟨fun i => ?_, fun i hfree => (h _ (entry_mem (lt_of_free hfree))).2 hfree⟩
    rcases Nat.lt_or_ge i T.length with hlt | hle
    · exact (h _ (entry_mem hlt)).1
    · rw [entry_of_le hle]
      decide

end Count

/-! ### Merging -/

/-- The table stays bounded, and each address is in as many free blocks as before. -/
structure FreeKept (T T' : List SpmpBlock) : Prop where
  bounded : Bounded T'
  free : ∀ x, total (SpmpBlock.freeHolds x) T' = total (SpmpBlock.freeHolds x) T

section Merging

variable {T T' T'' : List SpmpBlock} {p q i : Nat}

theorem FreeKept.trans (h : FreeKept T T') (h' : FreeKept T' T'') : FreeKept T T'' :=
  ⟨h'.bounded, fun x => (h'.free x).trans (h.free x)⟩

theorem Bounded.joined (hT : Bounded T) (htouch : Touch T p q) : FreeKept T (joined T p q) := by
  obtain ⟨a, ha, hfree, hlo, hhi, hentry⟩ := entry_joined (hT.hi_lt q) htouch
  have htotal := fun x => total_joined (w := SpmpBlock.freeHolds x) htouch
  rw [← ha] at htotal
  obtain ⟨-, hp, hq, hmeet⟩ := htouch
  refine ⟨⟨fun k => ?_, fun k hk => ?_⟩, fun x => ?_⟩
  · rw [hentry]
    split_ifs
    · decide
    · rw [hhi]
      exact hT.hi_lt q
    · exact hT.hi_lt k
  · rw [hentry] at hk ⊢
    split_ifs at hk ⊢
    · cases hk
    · rw [hlo]
      exact hT.lo_pos p hp
    · exact hT.lo_pos k hk
  · have hsplit : a.holds x = (entry T p).holds x + (entry T q).holds x := by
      have hpends := (entry T p).lo_le_hi
      have hqends := (entry T q).lo_le_hi
      simp only [SpmpBlock.holds, hlo, hhi, hmeet] at hpends ⊢
      split_ifs <;> omega
    have hx := htotal x
    rw [SpmpBlock.freeHolds_of_free hp, SpmpBlock.freeHolds_of_free hq,
      SpmpBlock.freeHolds_of_free hfree, SpmpBlock.freeHolds_of_inUse rfl, hsplit] at hx
    exact Nat.add_right_cancel hx

/-- One round of the inner loop. The entry that it is about stays free, or is merged away. -/
theorem Bounded.mergeAt (hT : Bounded T) (hi : (entry T i).inUse = false ∨ entry T i = .tombstone)
    (j : Nat) :
    FreeKept T (mergeAt i T j) ∧
      ((entry (mergeAt i T j) i).inUse = false ∨ entry (mergeAt i T j) i = .tombstone) := by
  rw [mergeAt_eq hT hi]
  split_ifs with hforward hback
  · obtain ⟨a, -, hfree, -, -, hentry⟩ := entry_joined (hT.hi_lt j) hforward
    refine ⟨hT.joined hforward, .inl ?_⟩
    rw [hentry, if_neg hforward.1, if_pos rfl]
    exact hfree
  · obtain ⟨a, -, -, -, -, hentry⟩ := entry_joined (hT.hi_lt i) hback
    refine ⟨hT.joined hback, .inr ?_⟩
    rw [hentry, if_pos rfl]
  · exact ⟨⟨hT, fun _ => rfl⟩, hi⟩

theorem Bounded.coalesceRow (hT : Bounded T) (n i : Nat) : FreeKept T (coalesceRow n T i) := by
  rw [BradVector.coalesceRow]
  split_ifs with huse
  · exact ⟨hT, fun _ => rfl⟩
  · have hrow : ∀ k, FreeKept T ((List.range k).foldl (BradVector.mergeAt i) T) ∧
        ((entry ((List.range k).foldl (BradVector.mergeAt i) T) i).inUse = false ∨
          entry ((List.range k).foldl (BradVector.mergeAt i) T) i = .tombstone) := by
      intro k
      induction k with
      | zero => exact ⟨⟨hT, fun _ => rfl⟩, .inl (Bool.not_eq_true _ ▸ huse)⟩
      | succ k ih =>
          rw [List.range_succ, List.foldl_append]
          obtain ⟨hkept, hself⟩ := ih.1.bounded.mergeAt ih.2 k
          exact ⟨ih.1.trans hkept, hself⟩
    exact (hrow n).1

theorem Bounded.poolCoalesce (hT : Bounded T) : FreeKept T (poolCoalesce T) := by
  have hloop : ∀ k, FreeKept T ((List.range k).foldl (BradVector.coalesceRow T.length) T) := by
    intro k
    induction k with
    | zero => exact ⟨hT, fun _ => rfl⟩
    | succ k ih =>
        rw [List.range_succ, List.foldl_append]
        exact ih.trans (ih.bounded.coalesceRow T.length k)
  exact hloop T.length

theorem Bounded.freed (hT : Bounded T) (hpos : 0 < (entry T i).lo) :
    Bounded (T.set i (entry T i).freed) := by
  rw [bounded_iff]
  intro c hc
  rcases List.mem_or_eq_of_mem_set hc with hc | rfl
  · exact bounded_iff.mp hT c hc
  · exact ⟨hT.hi_lt i, fun _ => hpos⟩

end Merging

/-! ### Allocations -/

/-- A table is bounded, or has one free block that no request fits in: that of a pool which reaches
past the last address. -/
def TableRange (T : List SpmpBlock) : Prop :=
  Bounded T ∨ ∃ b, T = [b] ∧ b.inUse = false ∧ ∀ needed alignment, b.fits needed alignment = false

/-- The pool after an allocation from the block `b` with index `i`. -/
def SpmpPool.carved (p : SpmpPool) (i : Nat) (b : SpmpBlock) (lead trail : List SpmpBlock)
    (addr size : Size) : SpmpPool :=
  { p with
    blocks := (p.blocks ++ lead ++ trail).set i (b.allocated addr size)
    used := p.used + size }

section Alloc

variable {p : SpmpPool} {id i : Nat} {size alignment : Size} {b : SpmpBlock}
  {lead trail : List SpmpBlock} (h : AllocSite p id size alignment i b lead trail)
include h

theorem AllocSite.mem : b ∈ p.blocks := h.block ▸ entry_mem h.lt

theorem AllocSite.bounded (hT : TableRange p.blocks) : Bounded p.blocks := by
  rcases hT with hT | ⟨c, hc, -, hnone⟩
  · exact hT
  · have hmem := h.mem
    rw [hc, List.mem_singleton] at hmem
    have hfits := h.fits
    rw [hmem, hnone] at hfits
    cases hfits

theorem AllocSite.endAddr (hT : Bounded p.blocks) : b.endAddr.toNat = b.hi := by
  apply SpmpBlock.endAddr_toNat
  exact (bounded_iff.mp hT b h.mem).1

theorem AllocSite.le_hi (hT : Bounded p.blocks) :
    (b.aligned alignment).toNat + (spmpNeeded size).toNat ≤ b.hi := by
  rw [← h.endAddr hT]
  exact SpmpBlock.le_of_fits h.fits

/-- The end of the allocation. -/
theorem AllocSite.end_toNat (hT : Bounded p.blocks) :
    (b.aligned alignment + spmpNeeded size).toNat =
      (b.aligned alignment).toNat + (spmpNeeded size).toNat := by
  have hle := h.le_hi hT
  have hlt := (bounded_iff.mp hT b h.mem).1
  rw [BitVec.toNat_add, Nat.mod_eq_of_lt (by omega)]

theorem AllocSite.bounded_lead (hT : Bounded p.blocks) : ∀ c ∈ lead, c.hi < 2 ^ 64 ∧ 0 < c.lo := by
  intro c hc
  rw [h.lead_eq] at hc
  obtain ⟨-, -, hlo, hhi, -⟩ := mem_leadHole hc
  rw [hlo, hhi]
  exact ⟨(b.aligned alignment).isLt, (bounded_iff.mp hT b h.mem).2 (SpmpBlock.free_of_fits h.fits)⟩

theorem AllocSite.bounded_trail (hT : Bounded p.blocks) : ∀ c ∈ trail, c.hi < 2 ^ 64 ∧
    0 < c.lo := by
  intro c hc
  rw [h.trail_eq] at hc
  obtain ⟨-, -, hlo, hhi, -⟩ := mem_trailHole hc
  have hneeded := spmpNeeded_ge size
  rw [hlo, hhi, h.end_toNat hT]
  exact ⟨b.endAddr.isLt, by omega⟩

/-- The table of an allocation that fails for want of a slot. -/
theorem AllocSite.bounded_short (hT : Bounded p.blocks) : Bounded (p.blocks ++ lead) := by
  rw [bounded_iff]
  intro c hc
  rcases List.mem_append.mp hc with hold | hnew
  · exact bounded_iff.mp hT c hold
  · obtain ⟨hhi, hlo⟩ := h.bounded_lead hT c hnew
    exact ⟨hhi, fun _ => hlo⟩

theorem AllocSite.bounded_carved (hT : Bounded p.blocks) :
    Bounded (p.carved i b lead trail (b.aligned alignment) (spmpNeeded size)).blocks := by
  rw [bounded_iff]
  intro c hc
  rcases List.mem_or_eq_of_mem_set hc with hc | rfl
  · rcases List.mem_append.mp hc with hold | hnew
    · exact bounded_iff.mp (h.bounded_short hT) c hold
    · obtain ⟨hhi, hlo⟩ := h.bounded_trail hT c hnew
      exact ⟨hhi, fun _ => hlo⟩
  · refine ⟨?_, nofun⟩
    exact (h.le_hi hT).trans_lt (bounded_iff.mp hT b h.mem).1

/-- The hole is part of the block. -/
theorem AllocSite.freeSet_short (hT : Bounded p.blocks) :
    freeSet (p.blocks ++ lead) = freeSet p.blocks := by
  apply freeSet_append_of_subset
  intro c hc
  rw [h.lead_eq] at hc
  obtain ⟨-, -, hlo, hhi, -⟩ := mem_leadHole hc
  have hle := h.le_hi hT
  exact ⟨b, h.mem, SpmpBlock.free_of_fits h.fits, by omega, by omega⟩

/-- The block and its parts hold the same addresses. -/
theorem AllocSite.freeHolds_parts (hT : Bounded p.blocks) (hnowrap : ¬ b.aligned alignment < b.addr)
    (x : Nat) :
    total (SpmpBlock.freeHolds x) lead + total (SpmpBlock.freeHolds x) trail +
        (b.allocated (b.aligned alignment) (spmpNeeded size)).holds x = b.freeHolds x := by
  have hlow : b.lo ≤ (b.aligned alignment).toNat := Nat.not_lt.mp hnowrap
  have hle := h.le_hi hT
  have hlead : ∀ c ∈ lead, c.inUse = false := fun c hc => (mem_leadHole (h.lead_eq ▸ hc)).2.1
  have htrail : ∀ c ∈ trail, c.inUse = false := fun c hc => (mem_trailHole (h.trail_eq ▸ hc)).2.1
  have hlo : (b.allocated (b.aligned alignment) (spmpNeeded size)).lo =
    (b.aligned alignment).toNat := rfl
  have hhi : (b.allocated (b.aligned alignment) (spmpNeeded size)).hi =
      (b.aligned alignment).toNat + (spmpNeeded size).toNat := rfl
  rw [total_freeHolds hlead, total_freeHolds htrail, h.lead_eq, h.trail_eq, holds_lead x hlow,
    holds_trail, h.end_toNat hT, h.endAddr hT,
    SpmpBlock.freeHolds_of_free (SpmpBlock.free_of_fits h.fits)]
  simp only [SpmpBlock.holds, hlo, hhi]
  split_ifs <;> omega

/-- **An allocation that is freed again** gives its addresses back. The block that is freed may be
another one with the same address and size. -/
theorem AllocSite.free_carved (hT : Bounded p.blocks) (hnowrap : ¬ b.aligned alignment < b.addr) :
    ∃ q, (p.carved i b lead trail (b.aligned alignment) (spmpNeeded size)).free
      (b.aligned alignment)
        (spmpNeeded size) = (0, q) ∧
      freeSet q.blocks = freeSet p.blocks ∧ q.used = p.used := by
  set carved := p.carved i b lead trail (b.aligned alignment) (spmpNeeded size) with hcarved
  have hbounded : Bounded carved.blocks := h.bounded_carved hT
  rcases free_cases carved (b.aligned alignment) (spmpNeeded size) with
    ⟨-, hnone⟩ | ⟨j, hj, huse, haddr, hsize, hfree⟩
  · have hlt : i < (p.blocks ++ lead ++ trail).length := by
      have hi := h.lt
      rw [List.length_append, List.length_append]
      omega
    have hmem : b.allocated (b.aligned alignment) (spmpNeeded size) ∈ carved.blocks :=
      List.mem_set hlt _
    exact absurd ⟨rfl, rfl, rfl⟩ (hnone _ hmem)
  · have hlow : b.lo ≤ (b.aligned alignment).toNat := Nat.not_lt.mp hnowrap
    have hbpos := (bounded_iff.mp hT b h.mem).2 (SpmpBlock.free_of_fits h.fits)
    have hfreed : Bounded (carved.blocks.set j (entry carved.blocks j).freed) := by
      apply hbounded.freed
      rw [SpmpBlock.lo, haddr]
      omega
    refine ⟨_, hfree, freeSet_congr fun x => ?_, ?_⟩
    · have hset := total_set (w := SpmpBlock.freeHolds x) (a := (entry carved.blocks j).freed) hj
      have htotal := total_allocated (w := SpmpBlock.freeHolds x) h
        (b.allocated (b.aligned alignment) (spmpNeeded size))
      have hparts := h.freeHolds_parts hT hnowrap x
      have hsame : (entry carved.blocks j).freed.freeHolds x =
          (b.allocated (b.aligned alignment) (spmpNeeded size)).holds x := by
        have hlo : (entry carved.blocks j).freed.lo = (b.aligned alignment).toNat :=
          congrArg BitVec.toNat haddr
        have hhi : (entry carved.blocks j).freed.hi =
            (b.aligned alignment).toNat + (spmpNeeded size).toNat :=
          congrArg₂ (· + ·) hlo (congrArg BitVec.toNat hsize)
        rw [SpmpBlock.freeHolds_of_free rfl, SpmpBlock.holds, hlo, hhi]
        rfl
      rw [← entry_of_lt hj, SpmpBlock.freeHolds_of_inUse huse, hsame] at hset
      rw [SpmpBlock.freeHolds_of_inUse (b := b.allocated _ _) rfl] at htotal
      rw [hfreed.poolCoalesce.free x]
      change total _ carved.blocks + _ = _ at htotal
      omega
    · exact BitVec.add_sub_cancel p.used (spmpNeeded size)

end Alloc

/-! ### States -/

/-- The states that the calls lead to. -/
inductive Spmp.Reached : Spmp → Prop
  | zero : Reached ⟨[], false, [], 0, 0, 0, 0, 0, 0⟩
  | init : Reached spmpInit
  | poolCreate {s : Spmp} (h : Reached s) (cfg : SpmpPoolConfig) :
    Reached (spmpPoolCreate s cfg).2.1
  | poolDestroy {s : Spmp} (h : Reached s) (id : Nat) : Reached (spmpPoolDestroy s id).2
  | alloc {s : Spmp} (h : Reached s) (id : Nat) (size alignment : Size) :
      Reached (spmpAlloc s id size alignment).2.1
  | free {s : Spmp} (h : Reached s) (a : SpmpAllocation) : Reached (spmpFree s a).2.1
  | map {s : Spmp} (h : Reached s) (addr size : Size) : Reached (spmpMap s addr size).2.1
  | unmap {s : Spmp} (h : Reached s) (addr size : Size) : Reached (spmpUnmap s addr size).2
  | prefetch {s : Spmp} (h : Reached s) (addr size : Size) : Reached (spmpPrefetch s addr size).2
  | setEncrypted {s : Spmp} (h : Reached s) (value : Bool) (addr size : Size) :
      Reached (spmpSetEncrypted value s addr size).2

section States

variable {s : Spmp} {p q : SpmpPool} {id i : Nat} {b : SpmpBlock}

theorem mem_of_poolGet (hget : s.poolGet id = some p) : p ∈ s.pools :=
  List.mem_of_getElem? (poolGet_eq_some.mp hget).1

theorem spmpMap_pools (s : Spmp) (addr size : Size) : (spmpMap s addr size).2.1.pools =
    s.pools := by
  rw [spmpMap]
  split_ifs <;> rfl

theorem spmpUnmap_pools (s : Spmp) (addr size : Size) :
    (spmpUnmap s addr size).2.pools = s.pools := by
  rw [spmpUnmap]
  split_ifs with hinit harg
  · rfl
  · cases mapFind s.maps addr size with
    | none => rfl
    | some i => rfl
  · rfl

theorem spmpPrefetch_pools (s : Spmp) (addr size : Size) :
    (spmpPrefetch s addr size).2.pools = s.pools := by
  rw [spmpPrefetch]
  split_ifs <;> rfl

theorem tableRange_fresh (hid : id < spmpMaxPools) (cfg : SpmpPoolConfig) :
    TableRange (SpmpPool.fresh id cfg).blocks := by
  have hbase := spmpPoolBase_toNat hid
  have hid : id < 8 := hid
  by_cases hhi : (spmpPoolBase id).toNat + cfg.size.toNat < 2 ^ 64
  · refine .inl (bounded_iff.mpr fun c hc => ?_)
    rw [List.mem_singleton.mp hc]
    refine ⟨hhi, fun _ => ?_⟩
    change 0 < (spmpPoolBase id).toNat
    omega
  · refine .inr ⟨_, rfl, rfl, fun needed alignment => ?_⟩
    by_contra hfits
    rw [Bool.not_eq_false] at hfits
    apply hhi
    apply SpmpBlock.hi_lt_of_fits hfits
    apply SpmpBlock.not_aligned_lt
    change (spmpPoolBase id).toNat < 2 ^ 63
    omega

theorem TableRange.bounded_of_inUse (hT : TableRange p.blocks) (hi : i < p.blocks.length)
    (huse : (entry p.blocks i).inUse = true) : Bounded p.blocks := by
  rcases hT with hT | ⟨c, hc, hfree, -⟩
  · exact hT
  · have hmem := entry_mem hi
    rw [hc] at hmem huse
    rw [List.mem_singleton.mp hmem, hfree] at huse
    cases huse

theorem tableRange_alloc (hT : TableRange p.blocks) (id : Nat) (size alignment : Size) :
    TableRange (p.alloc id size alignment).2.1.blocks := by
  rcases alloc_cases p id size alignment with
    ⟨-, ret, -, heq⟩ | ⟨i, b, lead, trail, hsite, ⟨-, heq⟩ | ⟨-, -, -, heq⟩⟩
  · rw [heq]
    exact hT
  · rw [heq]
    exact .inl (hsite.bounded_carved (hsite.bounded hT))
  · rw [heq]
    exact .inl (hsite.bounded_short (hsite.bounded hT))

/-- The tables of all pools are in range. -/
def Spmp.InRange (s : Spmp) : Prop := ∀ p ∈ s.pools, TableRange p.blocks

theorem Spmp.InRange.set {s' : Spmp} (hs : s.InRange) (hpools : s'.pools = s.pools.set id q)
    (hq : TableRange q.blocks) : s'.InRange := by
  intro p hp
  rw [hpools] at hp
  rcases List.mem_or_eq_of_mem_set hp with hp | rfl
  · exact hs p hp
  · exact hq

theorem Spmp.InRange.poolCreate (hs : s.InRange) (cfg : SpmpPoolConfig) :
    (spmpPoolCreate s cfg).2.1.InRange := by
  rcases spmpPoolCreate_cases s cfg with heq | ⟨hroom, -, heq⟩
  · rwa [heq]
  · rw [heq]
    intro p hp
    rcases List.mem_append.mp hp with hold | hnew
    · exact hs p hold
    · rw [List.mem_singleton.mp hnew]
      exact tableRange_fresh hroom cfg

theorem Spmp.InRange.poolDestroy (hs : s.InRange) (id : Nat) :
    (spmpPoolDestroy s id).2.InRange := by
  rcases spmpPoolDestroy_cases s id with ⟨-, heq⟩ | ⟨p, hget, heq⟩
  · rwa [heq]
  · rw [heq]
    exact hs.set rfl (.inl (bounded_iff.mpr nofun))

theorem Spmp.InRange.alloc (hs : s.InRange) (id : Nat) (size alignment : Size) :
    (spmpAlloc s id size alignment).2.1.InRange := by
  rcases spmpAlloc_cases s id size alignment with
    heq | ⟨p, hget, ⟨ret, p', halloc, heq⟩ | ⟨ret, p', addr, needed, halloc, heq⟩⟩
  · rwa [heq]
  · have hp' := tableRange_alloc (hs p (mem_of_poolGet hget)) id size alignment
    rw [halloc] at hp'
    rw [heq]
    exact hs.set rfl hp'
  · have hp' := tableRange_alloc (hs p (mem_of_poolGet hget)) id size alignment
    rw [halloc] at hp'
    rw [heq]
    exact hs.set rfl hp'

theorem Spmp.InRange.free (hs : s.InRange) (a : SpmpAllocation) : (spmpFree s a).2.1.InRange := by
  rcases spmpFree_cases s a with ⟨-, heq⟩ | ⟨p, i, hget, haddr, hi, huse, hia, -, heq⟩
  · rwa [heq]
  · have hT := (hs p (mem_of_poolGet hget)).bounded_of_inUse hi huse
    have hpos : 0 < (entry p.blocks i).lo := by
      apply Nat.pos_of_ne_zero
      intro hzero
      exact haddr (hia.symm.trans (BitVec.eq_of_toNat_eq hzero))
    rw [heq]
    exact hs.set rfl (.inl (hT.freed hpos).poolCoalesce.bounded)

theorem Spmp.InRange.setEncrypted (hs : s.InRange) (value : Bool) (addr size : Size) :
    (spmpSetEncrypted value s addr size).2.InRange := by
  rcases spmpSetEncrypted_cases value s addr size with ⟨-, heq⟩ | ⟨i, p, j, hp, hj, hcontains, heq⟩
  · rwa [heq]
  · have huse : (entry p.blocks j).inUse = true := by
      rw [SpmpBlock.contains, Bool.and_eq_true, Bool.and_eq_true] at hcontains
      exact hcontains.1.1
    have hT := (hs p (List.mem_of_getElem? hp)).bounded_of_inUse hj huse
    rw [heq]
    refine hs.set rfl (.inl (bounded_iff.mpr fun c hc => ?_))
    rcases List.mem_or_eq_of_mem_set hc with hc | rfl
    · exact bounded_iff.mp hT c hc
    · exact ⟨hT.hi_lt j, hT.lo_pos j⟩

/-- **The tables of every state** that is reached are in range. -/
theorem Spmp.Reached.inRange (h : s.Reached) : s.InRange := by
  induction h with
  | zero => exact nofun
  | init => exact nofun
  | poolCreate h cfg ih => exact ih.poolCreate cfg
  | poolDestroy h id ih => exact ih.poolDestroy id
  | alloc h id size alignment ih => exact ih.alloc id size alignment
  | free h a ih => exact ih.free a
  | map h addr size ih => rwa [Spmp.InRange, spmpMap_pools]
  | unmap h addr size ih => rwa [Spmp.InRange, spmpUnmap_pools]
  | prefetch h addr size ih => rwa [Spmp.InRange, spmpPrefetch_pools]
  | setEncrypted h value addr size ih => exact ih.setEncrypted value addr size

end States

end BradVector
