import BradVector.Proof.SpmpTable

/-!
# One allocation, one free

What `spmp_alloc` and `spmp_free` do to the table of a pool, and the invariant of a pool that both
keep: its blocks tile its range, `used` counts the allocated bytes, and no two free blocks are
adjacent.

Two inputs break it. An alignment can round the start of a block past the last address, to an
address that has nothing to do with the pool. And an allocation that needs a slot for the hole
before it and one for the hole behind it, with one slot left, fails after it has put the first hole
into the table, on top of the block it was cut from.
-/

namespace BradVector

open CSem

/-! ### Allocation -/

/-- The hole between the start of the block and the allocation. -/
def leadHole (id : Nat) (b : SpmpBlock) (addr : Size) : List SpmpBlock :=
  if b.addr < addr then [⟨b.addr, addr - b.addr, id, false, false⟩] else []

/-- The hole between the end of the allocation and the end of the block. -/
def trailHole (id : Nat) (b : SpmpBlock) (allocEnd : Size) : List SpmpBlock :=
  if allocEnd < b.endAddr then [⟨allocEnd, b.endAddr - allocEnd, id, false, false⟩] else []

/-- The allocated part of the block. -/
def SpmpBlock.allocated (b : SpmpBlock) (addr size : Size) : SpmpBlock :=
  { b with addr, size, inUse := true }

section Alloc

variable {p : SpmpPool} {id i : Nat} {size alignment : Size} {T : List SpmpBlock} {b : SpmpBlock}
  {addr : Size}

theorem addHole_lead (hlen : T.length < spmpMaxBlocks) :
    (if b.addr < addr then addHole T id b.addr (addr - b.addr) else some T) =
      some (T ++ leadHole id b addr) := by
  unfold leadHole addHole
  split
  · rw [if_neg (Nat.not_le.mpr hlen)]
  · rw [List.append_nil]

theorem addHole_trail :
    (if addr < b.endAddr then addHole T id addr (b.endAddr - addr) else some T) =
      if T.length + (trailHole id b addr).length ≤ spmpMaxBlocks ∨ trailHole id b addr = [] then
        some (T ++ trailHole id b addr)
      else none := by
  unfold trailHole addHole
  by_cases htrail : addr < b.endAddr
  · simp only [if_pos htrail, List.length_singleton, List.cons_ne_self, or_false]
    by_cases hfull : spmpMaxBlocks ≤ T.length
    · rw [if_pos hfull, if_neg (by simp; omega)]
    · rw [if_neg hfull, if_pos (by omega)]
  · simp [if_neg htrail]

theorem blockNextFree_spec (h : blockNextFree T (spmpNeeded size) alignment = some i) :
    i < T.length ∧ (entry T i).fits (spmpNeeded size) alignment = true := by
  obtain ⟨hi, hfits, -⟩ := List.findIdx?_eq_some_iff_getElem.mp h
  exact ⟨hi, entry_of_lt hi ▸ hfits⟩

/-- The request is tried on the block with index `i`. -/
structure SpmpPool.Finds (p : SpmpPool) (size alignment : Size) (i : Nat) : Prop where
  size_ne : size ≠ 0
  room : p.blocks.length < spmpMaxBlocks
  found : blockNextFree p.blocks (spmpNeeded size) alignment = some i

/-- The block an allocation finds, and the holes it leaves in it. -/
structure AllocSite (p : SpmpPool) (id : Nat) (size alignment : Size) (i : Nat) (b : SpmpBlock)
    (lead trail : List SpmpBlock) : Prop where
  finds : p.Finds size alignment i
  block : b = entry p.blocks i
  lt : i < p.blocks.length
  fits : b.fits (spmpNeeded size) alignment = true
  lead_eq : lead = leadHole id b (b.aligned alignment)
  trail_eq : trail = trailHole id b (b.aligned alignment + spmpNeeded size)

/-- **An allocation** that is tried on no block leaves the pool as it is; one that is cuts its bytes
out of the block, or puts the hole before them into the table and fails for want of a slot for the
one behind them. -/
theorem alloc_cases (p : SpmpPool) (id : Nat) (size alignment : Size) :
    ((∀ i, ¬ p.Finds size alignment i) ∧ ∃ ret, ret ≠ 0 ∧
      p.alloc id size alignment = (ret, p, none)) ∨
      ∃ i b lead trail, AllocSite p id size alignment i b lead trail ∧
        ((p.blocks.length + lead.length + trail.length ≤ spmpMaxBlocks ∧
          p.alloc id size alignment = (0,
            { p with
              blocks := (p.blocks ++ lead ++ trail).set i
                (b.allocated (b.aligned alignment) (spmpNeeded size))
              used := p.used + spmpNeeded size },
            some (b.aligned alignment, spmpNeeded size))) ∨
        (p.blocks.length + 1 = spmpMaxBlocks ∧ lead ≠ [] ∧ trail ≠ [] ∧
          p.alloc id size alignment = (-enospc, { p with blocks := p.blocks ++ lead }, none))) := by
  unfold SpmpPool.alloc
  split
  · rename_i hsize
    exact .inl ⟨fun i h => h.size_ne hsize, -einval, by decide, rfl⟩
  rename_i hsize
  dsimp only
  split
  · rename_i hfull
    exact .inl ⟨fun i h => Nat.not_lt.mpr hfull h.room, -enospc, by decide, rfl⟩
  rename_i hroom
  have hroom := Nat.not_le.mp hroom
  cases hfind : blockNextFree p.blocks (spmpNeeded size) alignment with
  | none =>
      refine .inl ⟨fun i h => ?_, -enomem, by decide, rfl⟩
      have hfound := h.found
      rw [hfind] at hfound
      cases hfound
  | some i =>
      obtain ⟨hlt, hfits⟩ := blockNextFree_spec hfind
      dsimp only
      refine .inr ⟨i, entry p.blocks i, _, _, ⟨⟨hsize, hroom, hfind⟩, rfl, hlt, hfits, rfl, rfl⟩,
        ?_⟩
      rw [← entry, addHole_lead hroom]
      dsimp only
      rw [addHole_trail]
      set b := entry p.blocks i
      set lead := leadHole id b (b.aligned alignment) with hlead
      set trail := trailHole id b (b.aligned alignment + spmpNeeded size) with htrail
      have hleadlen : lead.length ≤ 1 := by
        rw [hlead, leadHole]
        split <;> simp
      have htraillen : trail.length ≤ 1 := by
        rw [htrail, trailHole]
        split <;> simp
      rw [List.length_append]
      by_cases hfit : p.blocks.length + lead.length + trail.length ≤ spmpMaxBlocks ∨ trail = []
      · rw [if_pos hfit]
        refine .inl ⟨?_, rfl⟩
        rcases hfit with hfit | hnil
        · exact hfit
        · rw [hnil, List.length_nil]
          omega
      · rw [if_neg hfit]
        obtain ⟨hover, hne⟩ := not_or.mp hfit
        refine .inr ⟨by omega, ?_, hne, rfl⟩
        intro hnil
        rw [hnil, List.length_nil] at hover
        omega

end Alloc

/-! ### The invariant -/

/-- No free block ends where another one begins. -/
def FreeApart (T : List SpmpBlock) : Prop :=
  ∀ b ∈ T, ∀ c ∈ T, b.inUse = false → c.inUse = false → b.hi ≠ c.lo

/-- A pool whose range is the `S` addresses from `B` on. Where the range does not end below `2 ^
64`, nothing has ever been allocated from it. -/
structure PoolInv (B S : Nat) (p : SpmpPool) : Prop where
  tiles : Tiles B S p.blocks
  used : p.used.toNat = total SpmpBlock.liveSize p.blocks
  apart : FreeApart p.blocks
  room : p.blocks.length ≤ spmpMaxBlocks
  range : B + S < 2 ^ 64 ∨ ∃ b, p.blocks = [b] ∧ b.inUse = false

/-- The allocation does not run into either of the two flaws: the start of the block it finds is not
rounded past the last address, and there is not just one slot left for two holes. -/
def SpmpPool.AllocSound (p : SpmpPool) (size alignment : Size) : Prop :=
  ∀ i, p.Finds size alignment i →
    ¬ (entry p.blocks i).aligned alignment < (entry p.blocks i).addr ∧
    ¬ (p.blocks.length + 1 = spmpMaxBlocks ∧
      (entry p.blocks i).addr < (entry p.blocks i).aligned alignment ∧
      (entry p.blocks i).aligned alignment + spmpNeeded size < (entry p.blocks i).endAddr)

theorem spmpNeeded_ge (size : Size) : 64 ≤ (spmpNeeded size).toNat := by
  rw [spmpNeeded]
  split
  · decide
  · rename_i h
    exact Nat.not_lt.mp h

theorem freeApart_iff {B S : Nat} {T : List SpmpBlock} (hT : Tiles B S T) :
    FreeApart T ↔ ∀ u v, ¬ Touch T u v := by
  refine ⟨fun h u v htouch => ?_, fun h b hb c hc hbfree hcfree hmeet => ?_⟩
  · obtain ⟨-, hu, hv, hmeet⟩ := htouch
    exact h _ (entry_mem (lt_of_free hu)) _ (entry_mem (lt_of_free hv)) hu hv hmeet
  · obtain ⟨u, hu, rfl⟩ := List.getElem_of_mem hb
    obtain ⟨v, hv, rfl⟩ := List.getElem_of_mem hc
    rw [← entry_of_lt hu] at hbfree hmeet
    rw [← entry_of_lt hv] at hcfree hmeet
    refine h u v ⟨?_, hbfree, hcfree, hmeet⟩
    rintro rfl
    have hpos := (hT.free_pos hbfree).2
    omega

theorem Tiles.apart_of_ne {B S : Nat} {T : List SpmpBlock} (hT : Tiles B S T) {b c : SpmpBlock}
    (hb : b ∈ T) (hc : c ∈ T) (hne : b ≠ c) :
    b.hi ≤ c.lo ∨ c.hi ≤ b.lo ∨ b.hi = b.lo ∨ c.hi = c.lo := by
  obtain ⟨u, hu, rfl⟩ := List.getElem_of_mem hb
  obtain ⟨v, hv, rfl⟩ := List.getElem_of_mem hc
  refine hT.apart hu hv ?_
  rintro rfl
  exact hne rfl

section Allocate

variable {B S : Nat} {p : SpmpPool} {id i : Nat} {size alignment : Size} {b : SpmpBlock}
  {lead trail : List SpmpBlock}

theorem SpmpBlock.free_of_fits {needed : Size} (h : b.fits needed alignment = true) :
    b.inUse = false := by
  unfold fits at h
  split at h
  · cases h
  · rename_i hfree
    exact Bool.not_eq_true _ ▸ hfree

/-- A block that fits has the bytes between its start, rounded, and its end. -/
theorem SpmpBlock.le_of_fits {needed : Size} (h : b.fits needed alignment = true) :
    (b.aligned alignment).toNat + needed.toNat ≤ b.endAddr.toNat := by
  have hfree := free_of_fits h
  unfold fits at h
  rw [if_neg (by rw [hfree]; decide)] at h
  split at h
  · cases h
  rename_i hend
  split at h
  · cases h
  rename_i hneeded
  have hend : (b.aligned alignment).toNat ≤ b.endAddr.toNat := Nat.not_lt.mp hend
  have hneeded : needed.toNat ≤ (b.endAddr - b.aligned alignment).toNat := Nat.not_lt.mp hneeded
  rw [BitVec.toNat_sub_of_le hend] at hneeded
  omega

/-- A block whose start is not rounded past the last address fits only if it ends below it. -/
theorem SpmpBlock.hi_lt_of_fits {needed : Size} (h : b.fits needed alignment = true)
    (hnowrap : ¬ b.aligned alignment < b.addr) : b.hi < 2 ^ 64 := by
  have hlow : b.lo ≤ (b.aligned alignment).toNat := Nat.not_lt.mp hnowrap
  have hle := le_of_fits h
  by_contra hbig
  have hsum : b.endAddr.toNat = b.hi - 2 ^ 64 := by
    have haddr := b.addr.isLt
    have hsize := b.size.isLt
    rw [endAddr, BitVec.toNat_add]
    simp only [hi] at hbig ⊢
    omega
  have hsize := b.size.isLt
  simp only [hi, lo] at hsum hbig hlow
  omega

/-- Where the start of the block is not rounded past the last address, the allocation lies in the
block. -/
theorem AllocSite.inside (hp : PoolInv B S p) (h : AllocSite p id size alignment i b lead trail)
    (hnowrap : ¬ b.aligned alignment < b.addr) :
    B + S < 2 ^ 64 ∧ b.endAddr.toNat = b.hi ∧ b.lo ≤ (b.aligned alignment).toNat ∧
      (b.aligned alignment).toNat + (spmpNeeded size).toNat ≤ b.hi := by
  have hfree := SpmpBlock.free_of_fits h.fits
  have hmem : b ∈ p.blocks := h.block ▸ entry_mem h.lt
  have hlow : b.lo ≤ (b.aligned alignment).toNat := Nat.not_lt.mp hnowrap
  have hle := SpmpBlock.le_of_fits h.fits
  have hsmall := SpmpBlock.hi_lt_of_fits h.fits hnowrap
  have hrange : B + S < 2 ^ 64 := by
    refine hp.range.elim (fun h => h) ?_
    rintro ⟨c, hc, -⟩
    have hbc : b = c := by
      rw [hc] at hmem
      exact List.mem_singleton.mp hmem
    have hsizes := hp.tiles.sizes
    have hin : B ≤ b.lo ∧ b.hi ≤ B + S := by
      rw [h.block] at hfree ⊢
      exact hp.tiles.free_range hfree
    rw [hc, ← hbc] at hsizes
    simp only [total_cons, total_nil] at hsizes
    simp only [SpmpBlock.hi, SpmpBlock.lo] at hsmall hin ⊢
    omega
  have hendeq := SpmpBlock.endAddr_toNat hsmall
  exact ⟨hrange, hendeq, hlow, by omega⟩

theorem total_allocated {w : SpmpBlock → Nat} (h : AllocSite p id size alignment i b lead trail)
    (c : SpmpBlock) :
    total w ((p.blocks ++ lead ++ trail).set i c) + w b =
      total w p.blocks + total w lead + total w trail + w c := by
  have hlt : i < (p.blocks ++ lead ++ trail).length := by
    have := h.lt
    simp only [List.length_append]
    omega
  have hset := total_set (w := w) (a := c) hlt
  have hb : (p.blocks ++ lead ++ trail)[i] = b := by
    simp [h.block, entry_of_lt h.lt, List.getElem_append_left, h.lt]
  rw [hb] at hset
  simp only [total_append] at hset
  exact hset

theorem mem_leadHole {c : SpmpBlock} {addr : Size} (hc : c ∈ leadHole id b addr) :
    b.addr < addr ∧ c.inUse = false ∧ c.lo = b.lo ∧ c.hi = addr.toNat ∧ c.size ≠ 0 := by
  unfold leadHole at hc
  split at hc
  · rename_i hlt
    rw [List.mem_singleton.mp hc]
    have hlt' : b.addr.toNat < addr.toNat := hlt
    have hsub : (addr - b.addr).toNat = addr.toNat - b.addr.toNat :=
      BitVec.toNat_sub_of_le hlt'.le
    refine ⟨hlt, rfl, rfl, ?_, fun h => ?_⟩
    · simp only [SpmpBlock.hi, hsub]
      omega
    · have hzero := congrArg BitVec.toNat h
      rw [hsub] at hzero
      change _ = 0 at hzero
      omega
  · exact absurd hc List.not_mem_nil

theorem mem_trailHole {c : SpmpBlock} {e : Size} (hc : c ∈ trailHole id b e) :
    e < b.endAddr ∧ c.inUse = false ∧ c.lo = e.toNat ∧ c.hi = b.endAddr.toNat ∧ c.size ≠ 0 := by
  unfold trailHole at hc
  split at hc
  · rename_i hlt
    rw [List.mem_singleton.mp hc]
    have hlt' : e.toNat < b.endAddr.toNat := hlt
    have hsub : (b.endAddr - e).toNat = b.endAddr.toNat - e.toNat :=
      BitVec.toNat_sub_of_le hlt'.le
    refine ⟨hlt, rfl, rfl, ?_, fun h => ?_⟩
    · simp only [SpmpBlock.hi, hsub]
      omega
    · have hzero := congrArg BitVec.toNat h
      rw [hsub] at hzero
      change _ = 0 at hzero
      omega
  · exact absurd hc List.not_mem_nil

/-- The weights of the holes and of the allocation, when the weight is that of the block split in
three. -/
theorem holds_lead (x : Nat) {addr : Size} (hlow : b.lo ≤ addr.toNat) :
    total (SpmpBlock.holds x) (leadHole id b addr) = if b.lo ≤ x ∧
      x < addr.toNat then 1 else 0 := by
  by_cases hlt : b.addr < addr
  · have hlead : leadHole id b addr = [⟨b.addr, addr - b.addr, id, false, false⟩] := if_pos hlt
    have hmem : _ ∈ leadHole id b addr := hlead ▸ List.mem_cons_self
    obtain ⟨-, -, hlo, hhi, -⟩ := mem_leadHole hmem
    rw [hlead, total_cons, total_nil, Nat.add_zero, SpmpBlock.holds, hlo, hhi]
  · rw [leadHole, if_neg hlt, total_nil, if_neg]
    have hle : ¬ b.lo < addr.toNat := hlt
    omega

theorem holds_trail (x : Nat) {e : Size} :
    total (SpmpBlock.holds x) (trailHole id b e) =
      if e.toNat ≤ x ∧ x < b.endAddr.toNat then 1 else 0 := by
  by_cases hlt : e < b.endAddr
  · have htrail : trailHole id b e = [⟨e, b.endAddr - e, id, false, false⟩] := if_pos hlt
    have hmem : _ ∈ trailHole id b e := htrail ▸ List.mem_cons_self
    obtain ⟨-, -, hlo, hhi, -⟩ := mem_trailHole hmem
    rw [htrail, total_cons, total_nil, Nat.add_zero, SpmpBlock.holds, hlo, hhi]
  · rw [trailHole, if_neg hlt, total_nil, if_neg]
    have hle : ¬ e.toNat < b.endAddr.toNat := hlt
    omega

theorem sizes_lead {addr : Size} (hlow : b.lo ≤ addr.toNat) :
    total (fun b => b.size.toNat) (leadHole id b addr) = addr.toNat - b.lo := by
  by_cases hlt : b.addr < addr
  · have hle : b.addr.toNat ≤ addr.toNat := hlow
    rw [leadHole, if_pos hlt, total_cons, total_nil, Nat.add_zero, BitVec.toNat_sub_of_le hle]
    rfl
  · have hle : ¬ b.lo < addr.toNat := hlt
    rw [leadHole, if_neg hlt, total_nil]
    omega

theorem sizes_trail {e : Size} :
    total (fun b => b.size.toNat) (trailHole id b e) = b.endAddr.toNat - e.toNat := by
  by_cases hlt : e < b.endAddr
  · have hle : e.toNat ≤ b.endAddr.toNat := Nat.le_of_lt hlt
    rw [trailHole, if_pos hlt, total_cons, total_nil, Nat.add_zero, BitVec.toNat_sub_of_le hle]
  · have hle : ¬ e.toNat < b.endAddr.toNat := hlt
    rw [trailHole, if_neg hlt, total_nil]
    omega

theorem liveSize_of_free {c : SpmpBlock} (h : c.inUse = false) : c.liveSize = 0 := by
  rw [SpmpBlock.liveSize, h]
  rfl

/-- The table behind an allocation: the holes at its end, and the allocation in the place of the
block. -/
def SpmpPool.cut (p : SpmpPool) (i : Nat) (b : SpmpBlock) (lead trail : List SpmpBlock)
    (alignment size : Size) : List SpmpBlock :=
  (p.blocks ++ lead ++ trail).set i (b.allocated (b.aligned alignment) (spmpNeeded size))

theorem mem_cut {c : SpmpBlock} (hc : c ∈ p.cut i b lead trail alignment size) :
    c ∈ p.blocks ∨ c ∈ lead ∨ c ∈ trail ∨
      c = b.allocated (b.aligned alignment) (spmpNeeded size) := by
  rcases List.mem_or_eq_of_mem_set hc with hc | rfl
  · simp only [List.mem_append] at hc
    tauto
  · exact .inr (.inr (.inr rfl))

theorem AllocSite.mem_lead (h : AllocSite p id size alignment i b lead trail) {c : SpmpBlock}
    (hc : c ∈ lead) : b.addr < b.aligned alignment ∧ c.inUse = false ∧ c.lo = b.lo ∧
      c.hi = (b.aligned alignment).toNat ∧ c.size ≠ 0 := by
  rw [h.lead_eq] at hc
  exact mem_leadHole hc

section Cut

variable (hp : PoolInv B S p) (h : AllocSite p id size alignment i b lead trail)
  (hnowrap : ¬ b.aligned alignment < b.addr)

include hp h hnowrap

/-- The end of the allocation does not wrap. -/
theorem AllocSite.addr_add_toNat : (b.aligned alignment + spmpNeeded size).toNat =
    (b.aligned alignment).toNat + (spmpNeeded size).toNat := by
  obtain ⟨-, hend, -, hhigh⟩ := h.inside hp hnowrap
  have hlt := b.endAddr.isLt
  rw [BitVec.toNat_add, Nat.mod_eq_of_lt (by omega)]

theorem AllocSite.mem_trail {c : SpmpBlock} (hc : c ∈ trail) :
    b.aligned alignment + spmpNeeded size < b.endAddr ∧ c.inUse = false ∧
      c.lo = (b.aligned alignment).toNat + (spmpNeeded size).toNat ∧ c.hi = b.hi ∧ c.size ≠ 0 := by
  rw [h.trail_eq] at hc
  obtain ⟨hlt, hfree, hlo, hhi, hsize⟩ := mem_trailHole hc
  exact ⟨hlt, hfree, hlo.trans (h.addr_add_toNat hp hnowrap), hhi.trans (h.inside hp hnowrap).2.1,
    hsize⟩

/-- The three parts cover what the block covers. -/
theorem AllocSite.cover_cut (x : Nat) :
    total (SpmpBlock.holds x) (p.cut i b lead trail alignment size) =
      total (SpmpBlock.holds x) p.blocks := by
  obtain ⟨-, hend, hlow, hhigh⟩ := h.inside hp hnowrap
  have hsum := h.addr_add_toNat hp hnowrap
  set a := b.aligned alignment
  set n := spmpNeeded size
  have hclo : (b.allocated a n).lo = a.toNat := rfl
  have hchi : (b.allocated a n).hi = a.toNat + n.toNat := rfl
  have htotal := total_allocated (w := SpmpBlock.holds x) h (b.allocated a n)
  have hparts : total (SpmpBlock.holds x) lead + total (SpmpBlock.holds x) trail +
      (b.allocated a n).holds x = b.holds x := by
    rw [h.lead_eq, h.trail_eq, holds_lead x hlow, holds_trail, hsum, hend]
    simp only [SpmpBlock.holds, hclo, hchi]
    split_ifs <;> omega
  change total _ ((p.blocks ++ lead ++ trail).set i (b.allocated a n)) = _
  omega

theorem AllocSite.sizes_cut :
    total (fun b => b.size.toNat) (p.cut i b lead trail alignment size) = S := by
  obtain ⟨-, hend, hlow, hhigh⟩ := h.inside hp hnowrap
  have htotal := total_allocated (w := fun b => b.size.toNat) h
    (b.allocated (b.aligned alignment) (spmpNeeded size))
  rw [hp.tiles.sizes, h.lead_eq, h.trail_eq, sizes_lead hlow, sizes_trail,
    h.addr_add_toNat hp hnowrap, hend] at htotal
  have hbsize : b.hi = b.lo + b.size.toNat := rfl
  have hcsize : (b.allocated (b.aligned alignment) (spmpNeeded size)).size.toNat =
      (spmpNeeded size).toNat := rfl
  unfold SpmpPool.cut
  rw [h.lead_eq, h.trail_eq]
  omega

/-- The holes are not in use. -/
theorem AllocSite.liveSize_cut :
    total SpmpBlock.liveSize (p.cut i b lead trail alignment size) =
      total SpmpBlock.liveSize p.blocks + (spmpNeeded size).toNat := by
  have htotal := total_allocated (w := SpmpBlock.liveSize) h
    (b.allocated (b.aligned alignment) (spmpNeeded size))
  rw [liveSize_of_free (SpmpBlock.free_of_fits h.fits),
    total_eq_zero fun c hc => liveSize_of_free (h.mem_lead hc).2.1,
    total_eq_zero fun c hc => liveSize_of_free (h.mem_trail hp hnowrap hc).2.1] at htotal
  exact htotal

theorem AllocSite.tiles_cut : Tiles B S (p.cut i b lead trail alignment size) := by
  refine ⟨fun x => (h.cover_cut hp hnowrap x).trans (hp.tiles.cover x), h.sizes_cut hp hnowrap,
    fun c hc hzero => ?_⟩
  rcases mem_cut hc with hc | hc | hc | rfl
  · exact hp.tiles.dead c hc hzero
  · exact absurd hzero (h.mem_lead hc).2.2.2.2
  · exact absurd hzero (h.mem_trail hp hnowrap hc).2.2.2.2
  · have hn : (spmpNeeded size).toNat = 0 := congrArg BitVec.toNat hzero
    have hneeded := spmpNeeded_ge size
    omega

theorem AllocSite.used_cut : (p.used + spmpNeeded size).toNat =
    total SpmpBlock.liveSize (p.cut i b lead trail alignment size) := by
  have hS := (h.inside hp hnowrap).1
  have hlive := h.liveSize_cut hp hnowrap
  have hmono : total SpmpBlock.liveSize (p.cut i b lead trail alignment size) ≤ S := by
    rw [← h.sizes_cut hp hnowrap]
    refine total_mono fun c _ => ?_
    unfold SpmpBlock.liveSize
    split
    · exact Nat.le_refl _
    · exact Nat.zero_le _
  rw [hlive] at hmono
  have hfits : p.used.toNat + (spmpNeeded size).toNat < 2 ^ 64 := by
    rw [hp.used]
    omega
  rw [hlive, BitVec.toNat_add, Nat.mod_eq_of_lt hfits, hp.used]

/-- A free block of the table is the one the allocation is cut from, or does not touch it. -/
theorem AllocSite.eq_or_apart {c : SpmpBlock} (hc : c ∈ p.blocks) (hfree : c.inUse = false) :
    c = b ∨ c.lo < c.hi ∧ (c.hi < b.lo ∨ b.hi < c.lo) := by
  by_cases hne : c = b
  · exact .inl hne
  have hbmem : b ∈ p.blocks := h.block ▸ entry_mem h.lt
  have hbfree := SpmpBlock.free_of_fits h.fits
  obtain ⟨-, -, hlow, hhigh⟩ := h.inside hp hnowrap
  have hneeded := spmpNeeded_ge size
  have hpos : c.hi ≠ c.lo := hp.apart c hc c hc hfree hfree
  have hcle := c.lo_le_hi
  have hapart := hp.tiles.apart_of_ne hc hbmem hne
  have hafter := hp.apart c hc b hbmem hfree hbfree
  have hbefore := hp.apart b hbmem c hc hbfree hfree
  omega

/-- Where a free entry of the table behind the allocation lies. -/
theorem AllocSite.free_cut {c : SpmpBlock} (hc : c ∈ p.cut i b lead trail alignment size)
    (hfree : c.inUse = false) :
    c ∈ p.blocks ∨
      c.lo = b.lo ∧ c.hi = (b.aligned alignment).toNat ∧ b.lo < (b.aligned alignment).toNat ∨
      c.lo = (b.aligned alignment).toNat + (spmpNeeded size).toNat ∧ c.hi = b.hi ∧ c.lo < b.hi := by
  rcases mem_cut hc with hc | hc | hc | rfl
  · exact .inl hc
  · obtain ⟨hlt, -, hlo, hhi, -⟩ := h.mem_lead hc
    exact .inr (.inl ⟨hlo, hhi, hlt⟩)
  · obtain ⟨hlt, -, hlo, hhi, -⟩ := h.mem_trail hp hnowrap hc
    have hlt : (b.aligned alignment + spmpNeeded size).toNat < b.endAddr.toNat := hlt
    have hend := (h.inside hp hnowrap).2.1
    have hsum := h.addr_add_toNat hp hnowrap
    exact .inr (.inr ⟨hlo, hhi, by omega⟩)
  · cases hfree

/-- The holes do not touch each other, for the allocation is between them, nor another free
block. -/
theorem AllocSite.freeApart_cut : FreeApart (p.cut i b lead trail alignment size) := by
  have hbmem : b ∈ p.blocks := h.block ▸ entry_mem h.lt
  have hbfree := SpmpBlock.free_of_fits h.fits
  obtain ⟨-, -, hlow, hhigh⟩ := h.inside hp hnowrap
  have hneeded := spmpNeeded_ge size
  intro c hc d hd hcfree hdfree hmeet
  rcases h.free_cut hp hnowrap hc hcfree with hc | ⟨hclo, hchi, hclead⟩ | ⟨hclo, hchi, hctrail⟩
  · rcases h.free_cut hp hnowrap hd hdfree with hd | ⟨hdlo, -, -⟩ | ⟨hdlo, -, hdtrail⟩
    · exact hp.apart c hc d hd hcfree hdfree hmeet
    · exact hp.apart c hc b hbmem hcfree hbfree (hmeet.trans hdlo)
    · rcases h.eq_or_apart hp hnowrap hc hcfree with rfl | hapart
      · omega
      · omega
  · rcases h.free_cut hp hnowrap hd hdfree with hd | ⟨hdlo, -, -⟩ | ⟨hdlo, -, -⟩
    · rcases h.eq_or_apart hp hnowrap hd hdfree with rfl | hapart
      · omega
      · omega
    · omega
    · omega
  · rcases h.free_cut hp hnowrap hd hdfree with hd | ⟨hdlo, -, -⟩ | ⟨hdlo, -, hdtrail⟩
    · exact hp.apart b hbmem d hd hbfree hdfree (hchi.symm.trans hmeet)
    · omega
    · omega

end Cut

/-- **An allocation keeps the invariant.** -/
theorem PoolInv.allocated (hp : PoolInv B S p) (h : AllocSite p id size alignment i b lead trail)
    (hnowrap : ¬ b.aligned alignment < b.addr)
    (hslots : p.blocks.length + lead.length + trail.length ≤ spmpMaxBlocks) :
    PoolInv B S { p with
      blocks := (p.blocks ++ lead ++ trail).set i
        (b.allocated (b.aligned alignment) (spmpNeeded size))
      used := p.used + spmpNeeded size } where
  tiles := h.tiles_cut hp hnowrap
  used := h.used_cut hp hnowrap
  apart := h.freeApart_cut hp hnowrap
  room := by
    rw [List.length_set]
    simp only [List.length_append]
    exact hslots
  range := .inl (h.inside hp hnowrap).1

end Allocate

/-! ### Freeing -/

section Free

variable {B S : Nat} {p : SpmpPool} {i : Nat} {addr size : Size}

/-- The block, no longer in use. -/
def SpmpBlock.freed (b : SpmpBlock) : SpmpBlock := { b with inUse := false, encrypted := false }

/-- **A free** finds no block in use with the address and the size, or frees the first one there
is. -/
theorem free_cases (p : SpmpPool) (addr size : Size) :
    (p.free addr size = (-enoent, p) ∧
      ∀ b ∈ p.blocks, ¬ (b.inUse = true ∧ b.addr = addr ∧ b.size = size)) ∨
      ∃ i, i < p.blocks.length ∧ (entry p.blocks i).inUse = true ∧
        (entry p.blocks i).addr = addr ∧ (entry p.blocks i).size = size ∧
        p.free addr size = (0, { p with
          blocks := poolCoalesce (p.blocks.set i (entry p.blocks i).freed)
          used := p.used - size }) := by
  unfold SpmpPool.free
  cases hfind : p.blocks.findIdx? fun b => b.inUse && b.addr = addr && b.size = size with
  | none =>
      refine .inl ⟨rfl, fun b hb ⟨huse, haddr, hsize⟩ => ?_⟩
      have hnone := List.findIdx?_eq_none_iff.mp hfind b hb
      simp [huse, haddr, hsize] at hnone
  | some i =>
      obtain ⟨hi, hmatch, -⟩ := List.findIdx?_eq_some_iff_getElem.mp hfind
      rw [← entry_of_lt hi] at hmatch
      simp only [Bool.and_eq_true, decide_eq_true_eq] at hmatch
      obtain ⟨⟨huse, haddr⟩, hsize⟩ := hmatch
      refine .inr ⟨i, hi, huse, haddr, hsize, ?_⟩
      rw [← hsize]
      rfl

/-- The table with one block freed and not yet merged with its neighbours. -/
theorem tiles_freed (hp : PoolInv B S p) (hi : i < p.blocks.length)
    (huse : (entry p.blocks i).inUse = true) (haddr : (entry p.blocks i).addr ≠ 0) :
    Tiles B S (p.blocks.set i (entry p.blocks i).freed) ∧
      total SpmpBlock.liveSize (p.blocks.set i (entry p.blocks i).freed) +
        (entry p.blocks i).size.toNat = total SpmpBlock.liveSize p.blocks := by
  have htotal : ∀ w : SpmpBlock → Nat, total w (p.blocks.set i (entry p.blocks i).freed) +
      w (entry p.blocks i) = total w p.blocks + w (entry p.blocks i).freed := by
    intro w
    have hset := total_set (w := w) (a := (entry p.blocks i).freed) hi
    rwa [← entry_of_lt hi] at hset
  refine ⟨⟨fun x => ?_, ?_, fun b hb hzero => ?_⟩, ?_⟩
  · rw [← hp.tiles.cover x]
    exact Nat.add_right_cancel (htotal (SpmpBlock.holds x))
  · rw [← hp.tiles.sizes]
    exact Nat.add_right_cancel (htotal fun b => b.size.toNat)
  · rcases List.mem_or_eq_of_mem_set hb with hb | rfl
    · exact hp.tiles.dead b hb hzero
    · refine absurd ?_ haddr
      rw [hp.tiles.dead _ (entry_mem hi) hzero]
      rfl
  · have hlive := htotal SpmpBlock.liveSize
    rw [liveSize_of_free (c := (entry p.blocks i).freed) rfl] at hlive
    simpa [SpmpBlock.liveSize, huse] using hlive

theorem stage_freed (hp : PoolInv B S p) (hi : i < p.blocks.length)
    (huse : (entry p.blocks i).inUse = true) (haddr : (entry p.blocks i).addr ≠ 0) :
    Stage (Touch (p.blocks.set i (entry p.blocks i).freed)) 0 := by
  have hT := (tiles_freed hp hi huse haddr).1
  set T := p.blocks.set i (entry p.blocks i).freed with hTdef
  have hold : ∀ k, k ≠ i → entry T k = entry p.blocks k := by
    intro k hk
    rw [hTdef, entry_set, if_neg fun h => hk h.1]
  have hsame : ∀ u v, (entry T u).inUse = false → (entry T v).inUse = false →
      ((entry T u).lo = (entry T v).lo ∨ (entry T u).hi = (entry T v).hi) → u = v := by
    intro u v hu hv hends
    by_contra hne
    have hupos := (hT.free_pos hu).2
    have hvpos := (hT.free_pos hv).2
    have hapart := hT.free_apart hu hv hne
    omega
  refine stage_zero (x := i) (fun u v h => ?_) (fun _ _ h => h.1) (fun v v' h h' => ?_)
    (fun u u' h h' => ?_) fun u h h' => ?_
  · by_contra hnone
    obtain ⟨hu, hv⟩ := not_or.mp hnone
    refine (freeApart_iff hp.tiles).mp hp.apart u v ?_
    obtain ⟨hne, hufree, hvfree, hmeet⟩ := h
    rw [hold u hu] at hufree hmeet
    rw [hold v hv] at hvfree hmeet
    exact ⟨hne, hufree, hvfree, hmeet⟩
  · exact hsame v v' h.2.2.1 h'.2.2.1 (.inl (h.2.2.2.symm.trans h'.2.2.2))
  · exact hsame u u' h.2.1 h'.2.1 (.inr (h.2.2.2.trans h'.2.2.2.symm))
  · have hupos := (hT.free_pos h.2.1).2
    have hipos := (hT.free_pos h.2.2.1).2
    have hmeet := h.2.2.2
    have hmeet' := h'.2.2.2
    omega

/-- **Freeing keeps the invariant**, and the blocks that are still in use. -/
theorem PoolInv.freed (hp : PoolInv B S p) (hB : 0 < B) (hi : i < p.blocks.length)
    (huse : (entry p.blocks i).inUse = true) (haddr : (entry p.blocks i).addr ≠ 0) :
    PoolInv B S { p with
      blocks := poolCoalesce (p.blocks.set i (entry p.blocks i).freed)
      used := p.used - (entry p.blocks i).size } ∧
    Coalesced B S (p.blocks.set i (entry p.blocks i).freed)
      (poolCoalesce (p.blocks.set i (entry p.blocks i).freed)) := by
  have hS : B + S < 2 ^ 64 := by
    refine hp.range.elim (fun h => h) ?_
    rintro ⟨b, hb, hfree⟩
    have hmem := entry_mem hi
    rw [hb] at hmem huse
    rw [List.mem_singleton.mp hmem, hfree] at huse
    cases huse
  obtain ⟨htiles, hlive⟩ := tiles_freed hp hi huse haddr
  obtain ⟨hcoal, hapart⟩ := poolCoalesce_done htiles hB hS (stage_freed hp hi huse haddr)
  refine ⟨⟨hcoal.tiles, ?_, (freeApart_iff hcoal.tiles).mpr hapart, ?_, .inl hS⟩, hcoal⟩
  · have hused := hp.used
    change (p.used - (entry p.blocks i).size).toNat = _
    rw [hcoal.live, BitVec.toNat_sub_of_le (by rw [BitVec.le_def]; omega)]
    omega
  · change (poolCoalesce _).length ≤ _
    rw [hcoal.length, List.length_set]
    exact hp.room

end Free

end BradVector
