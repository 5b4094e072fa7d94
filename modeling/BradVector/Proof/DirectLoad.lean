import BradVector.Proof.DmaTransfers
import BradVector.Proof.DriveRanges
import BradVector.Proof.FreeSets

/-!
# Loads from the drive

A load allocates, transfers and counts. Nothing tests the range of sectors, and the length comes
back from the transfer as an `int`: from `2 ^ 31` bytes on it is negative, and a transfer that has
been made counts as one that was refused, or it has lost its upper half. When the transfer is
refused the allocation is freed again, which fails at the one address that stands for no address.
-/

namespace BradVector

open CSem

/-- What a pool has free, and the size it has handed out. -/
def SpmpPool.standing (p : SpmpPool) : Set Nat × Size := (freeSet p.blocks, p.used)

/-- The pools have the same addresses free and the same used sizes. -/
def Spmp.SameFree (s s' : Spmp) : Prop :=
  ∀ id : Nat, (s'.pools[id]?).map SpmpPool.standing = (s.pools[id]?).map SpmpPool.standing

section Request

variable (d : BradDrive) (w : LoadWorld) (lba count : Size) (spmpPoolId : Nat) (dmaChNull : Bool)
  (outSpmpAddr : Size) (r : LoadResult)

/-- A load that fails leaves everything as it was. -/
structure LoadFails : Prop where
  drive : r.drive = d
  pools : w.spmp.SameFree r.world.spmp
  fabric : r.world.fabric = w.fabric
  ch : r.world.ch = w.ch
  heap : r.world.heap = w.heap

/-- A load that goes through is of sectors of the drive, into a block with room for them, and counts
them. -/
structure LoadSucceeds : Prop where
  range : LbaRange lba count (capacityToSectors d.tier)
  room : ∃ p b, r.world.spmp.poolGet spmpPoolId = some p ∧ b ∈ p.blocks ∧ b.inUse = true ∧
    r.outSpmpAddr = some b.addr ∧ count.toNat * 512 ≤ b.size.toNat
  grown : (r.drive.bytesRead - d.bytesRead).toNat = count.toNat * 512

/-- What is expected of a load. -/
def LoadResult.Keeps : Prop :=
  if r.ret = 0 then LoadSucceeds d lba count spmpPoolId r else LoadFails d w r

/-- The load gets as far as the transfer, into the block with index `i` of the pool. -/
structure LoadTakes (p : SpmpPool) (i : Nat) : Prop where
  initialized : d.initialized = true
  channel : dmaChNull = false
  out : outSpmpAddr ≠ 0
  pool_ne : spmpPoolId ≠ 0
  spmp : w.spmp.initialized = true
  get : w.spmp.poolGet spmpPoolId = some p
  finds : p.Finds (count * bradDriveSectorSize) 4096 i
  slots : ¬ p.OneShort (count * bradDriveSectorSize) 4096 i

/-- A transfer that passes its tests is of less than `2 ^ 31` bytes and of sectors of the drive; one
that does not is into a block that does not begin in the last page. -/
def LoadSound : Prop :=
  ∀ p i, LoadTakes d w count spmpPoolId dmaChNull outSpmpAddr p i →
    (DmaValid w.fabric w.ch (lba * bradDriveSectorSize) ((entry p.blocks i).aligned 4096)
        (count * bradDriveSectorSize) →
      lba.toNat + count.toNat ≤ (capacityToSectors d.tier).toNat ∧ count.toNat < 2 ^ 22) ∧
    (¬ DmaValid w.fabric w.ch (lba * bradDriveSectorSize) ((entry p.blocks i).aligned 4096)
        (count * bradDriveSectorSize) →
      (entry p.blocks i).addr.toNat ≤ 2 ^ 64 - 4096)

end Request

/-! ### Pages -/

section Page

variable {b : SpmpBlock}

theorem SpmpBlock.aligned_page :
    (b.aligned 4096).toNat = (b.addr.toNat + 4095) / 4096 * 4096 % 2 ^ 64 := by
  have haddr := b.addr.isLt
  have hmod : (b.addr % 4096).toNat = b.addr.toNat % 4096 := BitVec.toNat_umod
  have halign : (if spmpBlockAlign < 4096 then 4096 else spmpBlockAlign) = 4096 := by decide
  have hpage : (4096 : Size).toNat = 4096 := rfl
  rw [aligned, halign]
  split_ifs with hrem
  · have hne : b.addr.toNat % 4096 ≠ 0 := by
      rw [← hmod]
      exact fun h => hrem (BitVec.eq_of_toNat_eq h)
    have hle : b.addr % 4096 ≤ 4096 := by
      rw [BitVec.le_def, hmod, hpage]
      omega
    rw [BitVec.toNat_add, BitVec.toNat_sub_of_le hle, hmod, hpage]
    omega
  · rw [not_not] at hrem
    rw [hrem] at hmod
    change 0 = _ at hmod
    omega

theorem SpmpBlock.not_aligned_page_lt_iff :
    ¬ b.aligned 4096 < b.addr ↔ b.addr.toNat ≤ 2 ^ 64 - 4096 := by
  have haddr := b.addr.isLt
  rw [BitVec.lt_def, aligned_page]
  omega

/-- A block that begins in the last page is rounded to the first address. -/
theorem SpmpBlock.aligned_page_eq_zero (h : 2 ^ 64 - 4096 < b.addr.toNat) : b.aligned 4096 = 0 := by
  have haddr := b.addr.isLt
  apply BitVec.eq_of_toNat_eq
  rw [aligned_page]
  change _ = 0
  omega

end Page

/-! ### Allocating and freeing -/

section Pools

variable {s s' : Spmp} {p q : SpmpPool} {id i : Nat} {size alignment : Size} {b : SpmpBlock}
  {lead trail : List SpmpBlock}

theorem Spmp.SameFree.refl (s : Spmp) : s.SameFree s := fun _ => rfl

theorem Spmp.SameFree.of_set (hget : s.poolGet id = some p) (hpools : s'.pools = s.pools.set id q)
    (hfree : freeSet q.blocks = freeSet p.blocks) (hused : q.used = p.used) : s.SameFree s' := by
  have hlt := lt_of_poolGet hget
  intro id'
  rw [hpools]
  by_cases hid : id = id'
  · subst hid
    rw [List.getElem?_set_self hlt, (poolGet_eq_some.mp hget).1, Option.map_some, Option.map_some,
      SpmpPool.standing, SpmpPool.standing, hfree, hused]
  · rw [List.getElem?_set_ne hid]

/-- The state after an allocation. -/
def Spmp.carved (s : Spmp) (p : SpmpPool) (id i : Nat) (b : SpmpBlock) (lead trail : List SpmpBlock)
    (addr size : Size) : Spmp :=
  { s.setPool id (p.carved i b lead trail addr size) with allocs := s.allocs + 1 }

/-- **An allocation** fails and leaves what is free as it was, or succeeds. -/
theorem spmpAlloc_outcome (hs : s.InRange) (id : Nat) (size alignment : Size) :
    ((∀ p i, s.initialized = true → s.poolGet id = some p → p.Finds size alignment i →
        p.OneShort size alignment i) ∧
      ∃ ret s', ret ≠ 0 ∧ spmpAlloc s id size alignment = (ret, s', none) ∧ s.SameFree s') ∨
    ∃ p i b lead trail, s.initialized = true ∧ s.poolGet id = some p ∧
      AllocSite p id size alignment i b lead trail ∧ ¬ p.OneShort size alignment i ∧
      spmpAlloc s id size alignment =
        (0, s.carved p id i b lead trail (b.aligned alignment) (spmpNeeded size),
          some ⟨b.aligned alignment, spmpNeeded size, id, p.cfg.encrypt⟩) := by
  by_cases hinit : s.initialized = true
  · cases hget : s.poolGet id with
    | none =>
        refine .inl ⟨nofun, -einval, s, by decide, ?_, .refl s⟩
        rw [spmpAlloc, if_neg (not_not_intro hinit), hget]
    | some p =>
        have hT := hs p (mem_of_poolGet hget)
        rcases alloc_cases p id size alignment with
          ⟨hnone, ret, hret, heq⟩ |
          ⟨i, b, lead, trail, hsite, ⟨hslots, heq⟩ | ⟨hslots, hlead, htrail, heq⟩⟩
        · refine .inl ⟨?_, ret, s.setPool id p, hret, ?_, ?_⟩
          · rintro p' i - hp' hfinds
            cases hp'
            exact absurd hfinds (hnone i)
          · rw [spmpAlloc, if_neg (not_not_intro hinit), hget]
            dsimp only
            rw [heq]
          · rw [setPool_self hget]
            exact .refl s
        · refine .inr ⟨p, i, b, lead, trail, hinit, rfl, hsite, ?_, ?_⟩
          · intro hshort
            have hlead :=
              List.length_pos_of_ne_nil (hsite.lead_ne_iff.mpr (hsite.block ▸ hshort.lead))
            have htrail :=
              List.length_pos_of_ne_nil (hsite.trail_ne_iff.mpr (hsite.block ▸ hshort.trail))
            have hone := hshort.slots
            omega
          · rw [spmpAlloc, if_neg (not_not_intro hinit), hget]
            dsimp only
            rw [heq]
            rfl
        · refine .inl ⟨?_, -enospc, s.setPool id { p with blocks := p.blocks ++ lead },
            by decide, ?_, ?_⟩
          · rintro p' i' - hp' hfinds
            cases hp'
            obtain rfl : i = i' := Option.some.inj (hsite.finds.found.symm.trans hfinds.found)
            exact ⟨hfinds, hslots, hsite.block ▸ hsite.lead_ne_iff.mp hlead,
              hsite.block ▸ hsite.trail_ne_iff.mp htrail⟩
          · rw [spmpAlloc, if_neg (not_not_intro hinit), hget]
            dsimp only
            rw [heq]
          · exact .of_set hget rfl (hsite.freeSet_short (hsite.bounded hT)) rfl
  · refine .inl ⟨fun _ _ h => absurd h hinit, -enodev, s, by decide, ?_, .refl s⟩
    rw [spmpAlloc, if_pos hinit]

theorem poolGet_carved (hget : s.poolGet id = some p) (addr size : Size) :
    (s.carved p id i b lead trail addr size).poolGet id =
      some (p.carved i b lead trail addr size) :=
  poolGet_replaced hget rfl rfl

/-- An allocation that is freed again leaves what is free as it was. -/
theorem sameFree_carved_free (hT : Bounded p.blocks) (hinit : s.initialized = true)
    (hget : s.poolGet id = some p) (hsite : AllocSite p id size alignment i b lead trail)
    (hnowrap : ¬ b.aligned alignment < b.addr) (encrypted : BitVec 32) :
    s.SameFree (spmpFree (s.carved p id i b lead trail (b.aligned alignment) (spmpNeeded size))
      ⟨b.aligned alignment, spmpNeeded size, id, encrypted⟩).2.1 := by
  have hbpos := (bounded_iff.mp hT b hsite.mem).2 (SpmpBlock.free_of_fits hsite.fits)
  have hne : b.aligned alignment ≠ 0 := by
    intro hzero
    rw [hzero] at hnowrap
    exact hnowrap hbpos
  obtain ⟨q, hfree, hset, hused⟩ := hsite.free_carved hT hnowrap
  rcases spmpFree_of_get (s := s.carved p id i b lead trail (b.aligned alignment)
    (spmpNeeded size)) hinit
    (a := ⟨b.aligned alignment, spmpNeeded size, id, encrypted⟩) (poolGet_carved hget _ _) hne with
    ⟨herror, -⟩ | ⟨-, -, -, -, hpools⟩
  · rw [hfree] at herror
    exact absurd rfl herror
  · rw [hfree] at hpools
    apply Spmp.SameFree.of_set hget ?_ hset hused
    exact hpools.trans (List.set_set _)

theorem spmpFree_zero {a : SpmpAllocation} (h : a.addr = 0) : (spmpFree s a).2.1 = s := by
  rw [spmpFree, if_pos h]
  split_ifs <;> rfl

/-- An allocation that is not freed is missed. -/
theorem not_sameFree_carved (hget : s.poolGet id = some p) (addr : Size) :
    ¬ s.SameFree (s.carved p id i b lead trail addr (spmpNeeded size)) := by
  intro hsame
  have hid := hsame id
  have hcarved : (s.carved p id i b lead trail addr (spmpNeeded size)).poolGet id =
      some (p.carved i b lead trail addr (spmpNeeded size)) := poolGet_carved hget _ _
  rw [(poolGet_eq_some.mp hcarved).1, (poolGet_eq_some.mp hget).1, Option.map_some, Option.map_some,
    Option.some_inj] at hid
  have hused : p.used + spmpNeeded size = p.used := congrArg Prod.snd hid
  have hzero := congrArg BitVec.toNat (BitVec.add_right_eq_self.mp hused)
  have hneeded := spmpNeeded_ge size
  change (spmpNeeded size).toNat = 0 at hzero
  omega

end Pools

/-! ### Loads -/

section Load

variable {ε : Type} {d : BradDrive} {w : LoadWorld} {lba count : Size} {spmpPoolId : Nat}
  {dmaChNull : Bool} {outSpmpAddr : Size} {r : LoadResult} {p : SpmpPool} {i : Nat}

/-- The block that a load takes is the one that the pool finds. -/
theorem loadSound_iff (h : LoadTakes d w count spmpPoolId dmaChNull outSpmpAddr p i) :
    LoadSound d w lba count spmpPoolId dmaChNull outSpmpAddr ↔
      (DmaValid w.fabric w.ch (lba * bradDriveSectorSize) ((entry p.blocks i).aligned 4096)
          (count * bradDriveSectorSize) →
        lba.toNat + count.toNat ≤ (capacityToSectors d.tier).toNat ∧ count.toNat < 2 ^ 22) ∧
      (¬ DmaValid w.fabric w.ch (lba * bradDriveSectorSize) ((entry p.blocks i).aligned 4096)
          (count * bradDriveSectorSize) →
        (entry p.blocks i).addr.toNat ≤ 2 ^ 64 - 4096) := by
  constructor
  · exact fun hsound => hsound p i h
  · intro hsound p' i' h'
    obtain rfl : p = p' := Option.some.inj (h.get.symm.trans h'.get)
    obtain rfl : i = i' := Option.some.inj (h.finds.found.symm.trans h'.finds.found)
    exact hsound

/-- The request passes the tests of the load itself. -/
theorem bradDriveDirectLoad_of_valid (hinit : d.initialized = true) (hch : dmaChNull = false)
    (hout : outSpmpAddr ≠ 0) (hpool : spmpPoolId ≠ 0) :
    (bradDriveDirectLoad d w lba count spmpPoolId dmaChNull outSpmpAddr :
      Outcome HeapFault ε LoadResult) =
      match spmpAlloc w.spmp spmpPoolId (count * bradDriveSectorSize) 4096 with
      | (ret, spmp, none) => .ok ⟨ret, d, { w with spmp }, none⟩
      | (_, spmp, some alloc) =>
          (fabricDma w.fabric w.heap w.ch (lba * bradDriveSectorSize) alloc.addr
              (count * bradDriveSectorSize)).bind fun dma =>
            if dma.ret < 0 then
              .ok ⟨dma.ret, d, ⟨(spmpFree spmp alloc).2.1, dma.fabric, dma.ch, dma.heap⟩, none⟩
            else
              .ok ⟨0,
                { d with
                  bytesRead := d.bytesRead + BitVec.ofInt 64 dma.ret
                  readCmds := d.readCmds + 1 },
                ⟨spmp, dma.fabric, dma.ch, dma.heap⟩, some alloc.addr⟩ := by
  have hargs : ¬ (dmaChNull || outSpmpAddr = 0) = true := by
    rw [hch, Bool.false_or, decide_eq_true_eq]
    exact hout
  calc bradDriveDirectLoad d w lba count spmpPoolId dmaChNull outSpmpAddr
      = _ := if_neg (not_not_intro hinit)
    _ = _ := if_neg hargs
    _ = _ := if_neg hpool

theorem bradDriveDirectLoad_refused
    (h : ¬ (d.initialized = true ∧ dmaChNull = false ∧ outSpmpAddr ≠ 0 ∧ spmpPoolId ≠ 0)) :
    ∃ ret, ret ≠ 0 ∧ (bradDriveDirectLoad d w lba count spmpPoolId dmaChNull outSpmpAddr :
      Outcome HeapFault ε LoadResult) = .ok ⟨ret, d, w, none⟩ := by
  by_cases hinit : d.initialized = true
  · by_cases hargs : (dmaChNull || outSpmpAddr = 0) = true
    · refine ⟨-einval, by decide, ?_⟩
      rw [bradDriveDirectLoad, if_neg (not_not_intro hinit), if_pos hargs]
    · have hpool : spmpPoolId = 0 := by
        by_contra hpool
        rw [Bool.or_eq_true, not_or, Bool.not_eq_true, decide_eq_true_eq] at hargs
        exact h ⟨hinit, hargs.1, hargs.2, hpool⟩
      refine ⟨-einval, by decide, ?_⟩
      rw [bradDriveDirectLoad, if_neg (not_not_intro hinit), if_neg hargs, if_pos hpool]
  · refine ⟨-enodev, by decide, ?_⟩
    rw [bradDriveDirectLoad, if_pos hinit]

/-- A load that fails with the drive, the fabric and memory as they were keeps exactly if nothing is
missing from the pools. -/
theorem keeps_of_error_iff {ret : Int} (hret : ret ≠ 0) (spmp : Spmp) :
    LoadResult.Keeps d w lba count spmpPoolId ⟨ret, d, { w with spmp }, none⟩ ↔
      w.spmp.SameFree spmp := by
  rw [LoadResult.Keeps, if_neg hret]
  exact ⟨fun h => h.pools, fun h => ⟨rfl, h, rfl, rfl, rfl⟩⟩

variable {b : SpmpBlock} {lead trail : List SpmpBlock}

/-- The length that comes back from a transfer. -/
theorem dmaRet_nonneg (hcount : count.toNat < 2 ^ 22) :
    ¬ ((count * bradDriveSectorSize).setWidth 32).toInt < 0 := by
  rw [bytes_toInt_iff.mpr hcount]
  omega

/-- A transfer that has been made and counts as refused. -/
theorem not_keeps_of_moved {ret : Int} (hret : ret ≠ 0) {len : Size} (hlen : len ≠ 0)
    {world : LoadWorld} (hch : world.ch.bytesTx = w.ch.bytesTx + len) :
    ¬ LoadResult.Keeps d w lba count spmpPoolId ⟨ret, d, world, none⟩ := by
  rw [LoadResult.Keeps, if_neg hret]
  intro hfails
  rw [hfails.ch] at hch
  exact hlen (BitVec.add_right_eq_self.mp hch.symm)

theorem keeps_of_moved_iff (hget : w.spmp.poolGet spmpPoolId = some p)
    (hsite : AllocSite p spmpPoolId (count * bradDriveSectorSize) 4096 i b lead trail)
    (hret : ¬ ((count * bradDriveSectorSize).setWidth 32).toInt < 0) {readCmds : Word}
    {world : LoadWorld}
    (hspmp : world.spmp = w.spmp.carved p spmpPoolId i b lead trail (b.aligned 4096)
      (spmpNeeded (count * bradDriveSectorSize))) :
    LoadResult.Keeps d w lba count spmpPoolId
      ⟨0,
        { d with
          bytesRead := d.bytesRead +
            BitVec.ofInt 64 ((count * bradDriveSectorSize).setWidth 32).toInt
          readCmds },
        world, some (b.aligned 4096)⟩ ↔
      lba.toNat + count.toNat ≤ (capacityToSectors d.tier).toNat ∧ count.toNat < 2 ^ 22 := by
  have hgrown : (d.bytesRead + BitVec.ofInt 64 ((count * bradDriveSectorSize).setWidth 32).toInt -
      d.bytesRead).toNat = ((count * bradDriveSectorSize).setWidth 32).toInt.toNat := by
    have hlt := BitVec.toInt_lt (x := (count * bradDriveSectorSize).setWidth 32)
    rw [BitVec.add_comm, BitVec.add_sub_cancel, BitVec.toNat_ofInt,
      Int.emod_eq_of_lt (by omega) (by omega)]
  rw [LoadResult.Keeps, if_pos rfl]
  constructor
  · intro hsucceeds
    refine ⟨hsucceeds.range.2, bytes_toInt_iff.mp ?_⟩
    have hcount := hgrown.symm.trans hsucceeds.grown
    omega
  · rintro ⟨hrange, hcount⟩
    have hbytes : (count * bradDriveSectorSize).toNat = count.toNat * 512 := bytes_toNat (by omega)
    refine ⟨⟨?_, hrange⟩, ?_, ?_⟩
    · apply Nat.pos_of_ne_zero
      intro hzero
      apply hsite.finds.size_ne
      apply BitVec.eq_of_toNat_eq
      rw [hbytes, hzero]
      rfl
    · refine ⟨p.carved i b lead trail (b.aligned 4096) (spmpNeeded (count * bradDriveSectorSize)),
        b.allocated (b.aligned 4096) (spmpNeeded (count * bradDriveSectorSize)),
        ?_, ?_, rfl, rfl, ?_⟩
      · exact hspmp ▸ poolGet_carved hget _ _
      · apply List.mem_set
        have hi := hsite.lt
        rw [List.length_append, List.length_append]
        omega
      · rw [← hbytes]
        apply le_spmpNeeded
        rw [hbytes]
        omega
    · exact hgrown.trans (by rw [bytes_toInt_iff.mpr hcount]; omega)

/-- The transfer is refused, and the allocation freed. -/
theorem keeps_of_refused_iff (hT : Bounded p.blocks) (hinit : w.spmp.initialized = true)
    (hget : w.spmp.poolGet spmpPoolId = some p)
    (hsite : AllocSite p spmpPoolId (count * bradDriveSectorSize) 4096 i b lead trail) {ret : Int}
    (hret : ret ≠ 0) (encrypted : BitVec 32) :
    LoadResult.Keeps d w lba count spmpPoolId ⟨ret, d,
        { w with
          spmp := (spmpFree (w.spmp.carved p spmpPoolId i b lead trail (b.aligned 4096)
              (spmpNeeded (count * bradDriveSectorSize)))
            ⟨b.aligned 4096, spmpNeeded (count * bradDriveSectorSize), spmpPoolId,
              encrypted⟩).2.1 },
        none⟩ ↔
      b.addr.toNat ≤ 2 ^ 64 - 4096 := by
  rw [keeps_of_error_iff hret]
  constructor
  · intro hsame
    by_contra hlast
    have hzero := SpmpBlock.aligned_page_eq_zero (Nat.not_le.mp hlast)
    rw [spmpFree_zero hzero] at hsame
    exact not_sameFree_carved hget _ hsame
  · intro hstart
    have hnowrap := SpmpBlock.not_aligned_page_lt_iff.mpr hstart
    exact sameFree_carved_free hT hinit hget hsite hnowrap encrypted

/-- **Loads.** Every load that returns does what is expected of it exactly if it is sound. -/
theorem bradDriveDirectLoad_keeps_iff (hreached : w.spmp.Reached)
    (hok : (bradDriveDirectLoad d w lba count spmpPoolId dmaChNull outSpmpAddr :
      Outcome HeapFault ε LoadResult) = .ok r) :
    r.Keeps d w lba count spmpPoolId ↔
      LoadSound d w lba count spmpPoolId dmaChNull outSpmpAddr := by
  by_cases hguards : d.initialized = true ∧ dmaChNull = false ∧ outSpmpAddr ≠ 0 ∧ spmpPoolId ≠ 0
  · obtain ⟨hinit, hch, hout, hpool⟩ := hguards
    rw [bradDriveDirectLoad_of_valid hinit hch hout hpool] at hok
    rcases spmpAlloc_outcome hreached.inRange spmpPoolId (count * bradDriveSectorSize) 4096 with
      ⟨hnone, ret, s', hret, heq, hsame⟩ | ⟨p, i, b, lead, trail, hspmp, hget, hsite, hslots, heq⟩
    · rw [heq] at hok
      cases hok
      refine iff_of_true ((keeps_of_error_iff hret s').mpr hsame) fun p i htakes => ?_
      exact absurd (hnone p i htakes.spmp htakes.get htakes.finds) htakes.slots
    · rw [heq] at hok
      dsimp only at hok
      rw [loadSound_iff ⟨hinit, hch, hout, hpool, hspmp, hget, hsite.finds, hslots⟩, ← hsite.block]
      by_cases hvalid : DmaValid w.fabric w.ch (lba * bradDriveSectorSize) (b.aligned 4096)
          (count * bradDriveSectorSize)
      · rw [fabricDma_of_valid hvalid, Outcome.bind_assoc] at hok
        obtain ⟨heap, -, hdone⟩ := Outcome.bind_eq_ok_iff.mp hok
        refine Iff.trans ?_ (and_iff_left fun hrefused => absurd hvalid hrefused).symm
        refine Iff.trans ?_ (imp_iff_right hvalid).symm
        by_cases hret : ((count * bradDriveSectorSize).setWidth 32).toInt < 0
        · change
            (if ((count * bradDriveSectorSize).setWidth 32).toInt < 0 then _ else _) = _ at hdone
          rw [if_pos hret] at hdone
          cases hdone
          apply iff_of_false
          · exact not_keeps_of_moved hret.ne hsite.finds.size_ne rfl
          · exact fun hsound => dmaRet_nonneg hsound.2 hret
        · change
            (if ((count * bradDriveSectorSize).setWidth 32).toInt < 0 then _ else _) = _ at hdone
          rw [if_neg hret] at hdone
          cases hdone
          exact keeps_of_moved_iff hget hsite hret rfl
      · obtain ⟨ret, hret, hrefused⟩ := fabricDma_of_not_valid (ε := ε) (h := w.heap) hvalid
        rw [hrefused, Outcome.ok_bind, if_pos hret] at hok
        cases hok
        refine Iff.trans ?_ (and_iff_right fun haccepted => absurd haccepted hvalid).symm
        refine Iff.trans ?_ (imp_iff_right hvalid).symm
        have hT := hsite.bounded (hreached.inRange p (mem_of_poolGet hget))
        exact keeps_of_refused_iff hT hspmp hget hsite hret.ne p.cfg.encrypt
  · obtain ⟨ret, hret, heq⟩ : ∃ ret, ret ≠ 0 ∧
        (bradDriveDirectLoad d w lba count spmpPoolId dmaChNull outSpmpAddr :
          Outcome HeapFault ε LoadResult) = .ok ⟨ret, d, w, none⟩ :=
      bradDriveDirectLoad_refused hguards
    rw [heq] at hok
    cases hok
    refine iff_of_true ((keeps_of_error_iff hret w.spmp).mpr (.refl w.spmp)) fun p i htakes => ?_
    exact absurd ⟨htakes.initialized, htakes.channel, htakes.out, htakes.pool_ne⟩ hguards

end Load

/-- Two pools of a page. -/
def twoPages : Spmp :=
  (spmpPoolCreate (spmpPoolCreate spmpInit (generalPool 4096)).2.1 (generalPool 4096)).2.1

theorem twoPages_reached : twoPages.Reached := .poolCreate (.poolCreate .init _) _

/-- A node for the drive and the pools, without memory. -/
def wideNode : Fabric := (fabricRegisterNode fabricInit ⟨0, .mem, 0, 0xFFFFFFFFFF, 10, 5⟩).2

/-- A sector over a channel that is not for transfers. -/
theorem load_without_dma_keeps :
    ∃ r, (bradDriveDirectLoad bradDriveInit
        ⟨twoPages, wideNode, { dmaChannel with flags := 0 }, shortHeap⟩ 0 1 1 false 8 :
        Outcome HeapFault Unit LoadResult) = .ok r ∧ r.ret = -eperm ∧
      r.Keeps bradDriveInit ⟨twoPages, wideNode, { dmaChannel with flags := 0 },
        shortHeap⟩ 0 1 1 := by
  have hok : (bradDriveDirectLoad bradDriveInit
      ⟨twoPages, wideNode, { dmaChannel with flags := 0 }, shortHeap⟩ 0 1 1 false 8 :
      Outcome HeapFault Unit LoadResult) = .ok _ := rfl
  refine ⟨_, hok, rfl, ?_⟩
  apply (bradDriveDirectLoad_keeps_iff twoPages_reached hok).mpr
  rintro p i htakes
  obtain rfl := Option.some.inj htakes.get
  have hfirst : some 0 = some i := htakes.finds.found
  obtain rfl := Option.some.inj hfirst
  constructor
  · rintro ⟨-, -, hflags, -⟩
    exact absurd rfl hflags
  · exact fun _ => by decide

/-- The first sector behind the drive. -/
theorem load_past_end_not_kept :
    ¬ ∀ (d : BradDrive) (w : LoadWorld) (lba count : Size) (spmpPoolId : Nat) (dmaChNull : Bool)
      (outSpmpAddr : Size) (r : LoadResult), w.spmp.Reached →
        (bradDriveDirectLoad d w lba count spmpPoolId dmaChNull outSpmpAddr :
          Outcome HeapFault Unit LoadResult) = .ok r → r.Keeps d w lba count spmpPoolId := by
  intro hall
  have hkeeps := hall bradDriveInit ⟨twoPages, wideNode, dmaChannel, shortHeap⟩ 0x40000000 1 1
    false 8 _ twoPages_reached rfl
  have hrange := (hkeeps : LoadSucceeds _ _ _ _ _).range.2
  revert hrange
  decide

end BradVector
