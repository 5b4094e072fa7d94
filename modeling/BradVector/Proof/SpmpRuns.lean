import BradVector.Library.Commands
import BradVector.Proof.SpmpPool
import Mathlib.Data.List.Induction

/-!
# Runs of the allocator

The pools along a run of calls, with the allocations that are live: handed out, and neither freed
since nor in a pool that has been destroyed. A pool starts 4 GiB behind the one created before it,
whatever the size of that one.
-/

namespace BradVector

open CSem

inductive SpmpOp where
  | poolCreate (cfg : SpmpPoolConfig)
  | poolDestroy (poolId : Nat)
  | alloc (poolId : Nat) (size alignment : Size)
  | free (alloc : SpmpAllocation)
  deriving DecidableEq, Repr

/-- A live allocation, with the size and the alignment that were asked for. -/
structure LiveAlloc where
  alloc : SpmpAllocation
  size : Size
  alignment : Size
  deriving DecidableEq, Repr

structure SpmpRun where
  spmp : Spmp
  live : List LiveAlloc
  deriving DecidableEq, Repr

/-- What `spmp_free` reads of an allocation. -/
def SpmpAllocation.handle (a : SpmpAllocation) : Nat × Size × Size := (a.poolId, a.addr, a.size)

namespace SpmpRun

def init : SpmpRun := ⟨spmpInit, []⟩

def step (r : SpmpRun) : SpmpOp → SpmpRun
  | .poolCreate cfg => { r with spmp := (spmpPoolCreate r.spmp cfg).2.1 }
  | .poolDestroy poolId =>
      let done := spmpPoolDestroy r.spmp poolId
      ⟨done.2, if done.1 = 0 then r.live.filter fun a => a.alloc.poolId ≠ poolId else r.live⟩
  | .alloc poolId size alignment =>
      let done := spmpAlloc r.spmp poolId size alignment
      ⟨done.2.1, r.live ++ (done.2.2.map fun a => ⟨a, size, alignment⟩).toList⟩
  | .free alloc =>
      let done := spmpFree r.spmp alloc
      ⟨done.2.1, if done.1 = 0 then r.live.filter fun a =>
        a.alloc.handle ≠ alloc.handle else r.live⟩

/-- The state after the calls. -/
def after (ops : List SpmpOp) : SpmpRun := ops.foldl step init

theorem after_append (ops : List SpmpOp) (op : SpmpOp) :
    after (ops ++ [op]) = (after ops).step op := List.foldl_append

end SpmpRun

/-! ### The pools a call leaves -/

section Calls

variable {s : Spmp} {p q : SpmpPool} {id id' : Nat} {cfg : SpmpPoolConfig}

theorem poolGet_eq_some : s.poolGet id = some p ↔ s.pools[id]? = some p ∧ p.active = true := by
  simp [Spmp.poolGet]

theorem lt_of_poolGet (h : s.poolGet id = some p) : id < s.pools.length :=
  (List.getElem?_eq_some_iff.mp (poolGet_eq_some.mp h).1).1

theorem poolGet_setPool (h : s.poolGet id = some p) :
    (s.setPool id q).poolGet id' =
      if id' = id then (some q).filter (·.active) else s.poolGet id' := by
  have hlt := lt_of_poolGet h
  unfold Spmp.setPool Spmp.poolGet
  by_cases hid : id' = id
  · rw [if_pos hid, hid, List.getElem?_set_self hlt]
  · rw [if_neg hid, List.getElem?_set_ne (Ne.symm hid)]

theorem spmpPoolCreate_cases (s : Spmp) (cfg : SpmpPoolConfig) :
    (spmpPoolCreate s cfg).2.1 = s ∨
      s.pools.length < spmpMaxPools ∧ cfg.size ≠ 0 ∧
        (spmpPoolCreate s cfg).2.1 = { s with pools := s.pools ++
          [.fresh s.pools.length cfg] } := by
  unfold spmpPoolCreate
  split
  · exact .inl rfl
  split
  · exact .inl rfl
  split
  · exact .inl rfl
  · exact .inr ⟨by omega, by assumption, rfl⟩

theorem poolGet_create :
    Spmp.poolGet { s with pools := s.pools ++ [.fresh s.pools.length cfg] } id =
      if id = s.pools.length then some (.fresh s.pools.length cfg) else s.poolGet id := by
  unfold Spmp.poolGet
  dsimp only
  split
  · rename_i hid
    rw [hid, List.getElem?_concat_length]
    rfl
  · rename_i hid
    rcases Nat.lt_or_gt_of_ne hid with hlt | hgt
    · rw [List.getElem?_append_left hlt]
    · rw [List.getElem?_eq_none (by simp; omega), List.getElem?_eq_none (by omega)]

theorem spmpPoolDestroy_cases (s : Spmp) (id : Nat) :
    ((spmpPoolDestroy s id).1 ≠ 0 ∧ (spmpPoolDestroy s id).2 = s) ∨
      ∃ p, s.poolGet id = some p ∧ spmpPoolDestroy s id =
        (0, s.setPool id { p with active := false, blocks := [], used := 0 }) := by
  unfold spmpPoolDestroy
  split
  · exact .inl ⟨(by decide : -enodev ≠ 0), rfl⟩
  cases hget : s.poolGet id with
  | none => exact .inl ⟨(by decide : -einval ≠ 0), rfl⟩
  | some p => exact .inr ⟨p, rfl, rfl⟩

theorem spmpAlloc_cases (s : Spmp) (id : Nat) (size alignment : Size) :
    (spmpAlloc s id size alignment).2 = (s, none) ∨ ∃ p, s.poolGet id = some p ∧
      ((∃ ret p', p.alloc id size alignment = (ret, p', none) ∧
          spmpAlloc s id size alignment = (ret, s.setPool id p', none)) ∨
        ∃ ret p' addr needed, p.alloc id size alignment = (ret, p', some (addr, needed)) ∧
          spmpAlloc s id size alignment =
            (0, { s.setPool id p' with allocs := s.allocs + 1 },
              some ⟨addr, needed, id, p.cfg.encrypt⟩)) := by
  unfold spmpAlloc
  split
  · exact .inl rfl
  cases hget : s.poolGet id with
  | none => exact .inl rfl
  | some p =>
      refine .inr ⟨p, rfl, ?_⟩
      rcases halloc : p.alloc id size alignment with ⟨ret, p', got⟩
      cases got with
      | none => exact .inl ⟨ret, p', rfl, by simp [halloc]⟩
      | some got =>
          obtain ⟨addr, needed⟩ := got
          exact .inr ⟨ret, p', addr, needed, rfl, by simp [halloc]⟩

theorem spmpFree_cases (s : Spmp) (a : SpmpAllocation) :
    ((spmpFree s a).1 ≠ 0 ∧ (spmpFree s a).2.1 = s) ∨
      ∃ p i, s.poolGet a.poolId = some p ∧ a.addr ≠ 0 ∧ i < p.blocks.length ∧
        (entry p.blocks i).inUse = true ∧ (entry p.blocks i).addr = a.addr ∧
        (entry p.blocks i).size = a.size ∧
        spmpFree s a = (0, { s.setPool a.poolId { p with
          blocks := poolCoalesce (p.blocks.set i (entry p.blocks i).freed)
          used := p.used - (entry p.blocks i).size } with frees := s.frees + 1 }, .zero) := by
  unfold spmpFree
  split
  · exact .inl ⟨(by decide : -enodev ≠ 0), rfl⟩
  split
  · exact .inl ⟨(by decide : -einval ≠ 0), rfl⟩
  rename_i haddr
  cases hget : s.poolGet a.poolId with
  | none => exact .inl ⟨(by decide : -einval ≠ 0), rfl⟩
  | some p =>
      dsimp only
      rcases free_cases p a.addr a.size with ⟨heq, -⟩ | ⟨i, hi, huse, hia, his, heq⟩
      · rw [heq]
        exact .inl ⟨(by decide : -enoent ≠ 0), rfl⟩
      · rw [heq, ← his]
        exact .inr ⟨p, i, rfl, haddr, hi, huse, hia, rfl, rfl⟩

end Calls

/-! ### The tables -/

/-- Every pool is tiled by its blocks. -/
structure Spmp.Tiled (s : Spmp) : Prop where
  count : s.pools.length ≤ spmpMaxPools
  pools : ∀ id p, s.poolGet id = some p →
    PoolInv (spmpPoolBase id).toNat p.cfg.size.toNat p

/-- The end of the range of a pool. -/
def spmpPoolEnd (id : Nat) (cfg : SpmpPoolConfig) : Nat :=
  (spmpPoolBase id).toNat + cfg.size.toNat

namespace SpmpOp

/-- An allocation runs into neither of the flaws that corrupt the table. -/
def TableSound (s : Spmp) : SpmpOp → Prop
  | .alloc poolId size alignment =>
      ∀ p, s.poolGet poolId = some p → p.AllocSound size alignment
  | _ => True

/-- The alignment is a power of two. -/
def Aligned : SpmpOp → Prop
  | .alloc _ _ alignment => ∃ k, alignment.toNat = 2 ^ k
  | _ => True

/-- A pool is not put where another one is, unless one of them reaches past the last address and so
has nothing to give; an allocation does not corrupt the table, and its size is not so large that
rounding it up wraps. -/
def Sound (s : Spmp) : SpmpOp → Prop
  | .poolCreate cfg => s.pools.length < spmpMaxPools → cfg.size ≠ 0 →
      spmpPoolEnd s.pools.length cfg < 2 ^ 64 →
      ∀ id p, s.poolGet id = some p → spmpPoolEnd id p.cfg < 2 ^ 64 →
        spmpPoolEnd id p.cfg ≤ (spmpPoolBase s.pools.length).toNat
  | .alloc poolId size alignment => ∀ p, s.poolGet poolId = some p →
      p.AllocSound size alignment ∧ ∀ i, p.Finds size alignment i → size.toNat + 15 < 2 ^ 64
  | _ => True

theorem Sound.table {s : Spmp} {op : SpmpOp} (h : op.Sound s) : op.TableSound s := by
  cases op with
  | alloc id size alignment => exact fun p hget => (h p hget).1
  | _ => trivial

end SpmpOp

section Tables

variable {B S : Nat} {s : Spmp} {r : SpmpRun} {p : SpmpPool} {id : Nat} {size alignment : Size}
  {op : SpmpOp}

theorem spmpPoolBase_toNat (h : id < spmpMaxPools) :
    (spmpPoolBase id).toNat = 2 ^ 32 * (id + 1) := by
  have hid : id < 8 := h
  have hstride : (0x100000000 : Size).toNat = 2 ^ 32 := by decide
  rw [spmpPoolBase, spmpAddrBase, BitVec.toNat_add, BitVec.toNat_mul, BitVec.toNat_ofNat, hstride]
  omega

theorem Spmp.Tiled.base_pos (hs : s.Tiled) (hget : s.poolGet id = some p) :
    0 < (spmpPoolBase id).toNat := by
  have hbase := spmpPoolBase_toNat (Nat.lt_of_lt_of_le (lt_of_poolGet hget) hs.count)
  omega

theorem poolInv_fresh (id : Nat) {cfg : SpmpPoolConfig} (hsize : cfg.size ≠ 0) :
    PoolInv (spmpPoolBase id).toNat cfg.size.toNat (.fresh id cfg) := by
  have hpos : 0 < cfg.size.toNat := Nat.pos_of_ne_zero fun h => hsize (BitVec.eq_of_toNat_eq h)
  refine ⟨⟨fun x => ?_, ?_, fun b hb hzero => ?_⟩, rfl, fun b hb c hc _ _ => ?_, ?_, ?_⟩
  · rw [SpmpPool.fresh, total_cons, total_nil, Nat.add_zero, SpmpBlock.holds, SpmpBlock.lo,
      SpmpBlock.hi]
  · rw [SpmpPool.fresh, total_cons, total_nil, Nat.add_zero]
  · rw [List.mem_singleton.mp hb] at hzero
    exact absurd hzero hsize
  · rw [List.mem_singleton.mp hb, List.mem_singleton.mp hc]
    simp only [SpmpBlock.hi, SpmpBlock.lo]
    omega
  · exact (by decide : 1 ≤ spmpMaxBlocks)
  · exact .inr ⟨_, rfl, rfl⟩

/-- **An allocation that is sound** fails and leaves the pool as it is, or cuts the allocation out
of a free block. -/
theorem PoolInv.alloc (hp : PoolInv B S p) (id : Nat) (hsound : p.AllocSound size alignment) :
    (∃ ret, p.alloc id size alignment = (ret, p, none)) ∨
      ∃ i b lead trail p', AllocSite p id size alignment i b lead trail ∧
        ¬ b.aligned alignment < b.addr ∧
        p'.blocks = (p.blocks ++ lead ++ trail).set i
          (b.allocated (b.aligned alignment) (spmpNeeded size)) ∧
        p'.cfg = p.cfg ∧ p'.active = p.active ∧ PoolInv B S p' ∧
        p.alloc id size alignment = (0, p', some (b.aligned alignment, spmpNeeded size)) := by
  rcases alloc_cases p id size alignment with
    ⟨-, ret, -, heq⟩ | ⟨i, b, lead, trail, hsite, ⟨hslots, heq⟩ | ⟨hlast, hlead, htrail, -⟩⟩
  · exact .inl ⟨ret, heq⟩
  · have hnowrap := (hsound i hsite.finds).1
    rw [← hsite.block] at hnowrap
    refine .inr ⟨i, b, lead, trail, _, hsite, hnowrap, ?_, ?_, ?_,
      hp.allocated hsite hnowrap hslots, heq⟩ <;> rfl
  · refine absurd ⟨hlast, ?_, ?_⟩ (hsound i hsite.finds).2
    · rw [← hsite.block]
      by_contra hnone
      rw [hsite.lead_eq, leadHole, if_neg hnone] at hlead
      exact hlead rfl
    · rw [← hsite.block]
      by_contra hnone
      rw [hsite.trail_eq, trailHole, if_neg hnone] at htrail
      exact htrail rfl

end Tables

/-- A call that runs into neither of the flaws. -/
inductive SoundStep (r r' : SpmpRun) : SpmpOp → Prop
  | idle (op : SpmpOp) (hpools : r'.spmp.pools = r.spmp.pools) (hlive : r'.live = r.live) :
      SoundStep r r' op
  | create (cfg : SpmpPoolConfig) (hroom : r.spmp.pools.length < spmpMaxPools)
    (hsize : cfg.size ≠ 0)
      (hpools : r'.spmp.pools = r.spmp.pools ++ [.fresh r.spmp.pools.length cfg])
      (hlive : r'.live = r.live) : SoundStep r r' (.poolCreate cfg)
  | destroy (id : Nat) (p : SpmpPool) (hget : r.spmp.poolGet id = some p)
      (hpools : r'.spmp.pools =
        r.spmp.pools.set id { p with active := false, blocks := [], used := 0 })
      (hlive : r'.live = r.live.filter fun a => a.alloc.poolId ≠ id) :
      SoundStep r r' (.poolDestroy id)
  | alloc (id : Nat) (size alignment : Size) (p p' : SpmpPool) (i : Nat) (b : SpmpBlock)
      (lead trail : List SpmpBlock) (hget : r.spmp.poolGet id = some p)
      (hsite : AllocSite p id size alignment i b lead trail)
      (hnowrap : ¬ b.aligned alignment < b.addr)
      (hblocks : p'.blocks = (p.blocks ++ lead ++ trail).set i
        (b.allocated (b.aligned alignment) (spmpNeeded size)))
      (hcfg : p'.cfg = p.cfg) (hactive : p'.active = p.active)
      (hinv : PoolInv (spmpPoolBase id).toNat p.cfg.size.toNat p')
      (hpools : r'.spmp.pools = r.spmp.pools.set id p')
      (hlive : r'.live = r.live ++
        [⟨⟨b.aligned alignment, spmpNeeded size, id, p.cfg.encrypt⟩, size, alignment⟩]) :
      SoundStep r r' (.alloc id size alignment)
  | free (a : SpmpAllocation) (p p' : SpmpPool) (i : Nat) (hget : r.spmp.poolGet a.poolId = some p)
      (hi : i < p.blocks.length) (huse : (entry p.blocks i).inUse = true)
      (haddr : (entry p.blocks i).addr = a.addr) (hsize : (entry p.blocks i).size = a.size)
      (hcoal : Coalesced (spmpPoolBase a.poolId).toNat p.cfg.size.toNat
        (p.blocks.set i (entry p.blocks i).freed) p'.blocks)
      (hcfg : p'.cfg = p.cfg) (hactive : p'.active = p.active)
      (hinv : PoolInv (spmpPoolBase a.poolId).toNat p.cfg.size.toNat p')
      (hpools : r'.spmp.pools = r.spmp.pools.set a.poolId p')
      (hlive : r'.live = r.live.filter fun b => b.alloc.handle ≠ a.handle) :
      SoundStep r r' (.free a)

section Steps

variable {r r' : SpmpRun} {p : SpmpPool} {id : Nat} {op : SpmpOp}

/-- **What a sound call does.** -/
theorem SpmpRun.step_sound (hs : r.spmp.Tiled) (hsound : op.TableSound r.spmp) :
    SoundStep r (r.step op) op := by
  cases op with
  | poolCreate cfg =>
      rcases spmpPoolCreate_cases r.spmp cfg with heq | ⟨hroom, hsize, heq⟩
      · exact .idle _ (congrArg Spmp.pools heq) rfl
      · exact .create cfg hroom hsize (congrArg Spmp.pools heq) rfl
  | poolDestroy id =>
      rcases spmpPoolDestroy_cases r.spmp id with ⟨hret, heq⟩ | ⟨p, hget, heq⟩
      · exact .idle _ (congrArg Spmp.pools heq) (if_neg hret)
      · refine .destroy id p hget ?_ ?_
        · rw [step, heq]
          rfl
        · rw [step, heq, if_pos rfl]
  | alloc id size alignment =>
      rcases spmpAlloc_cases r.spmp id size alignment with heq | ⟨p, hget, hcases⟩
      · refine .idle _ ?_ ?_
        · rw [step, heq]
        · rw [step, heq]
          exact List.append_nil _
      have hp := hs.pools id p hget
      rcases hp.alloc id (hsound p hget) with
        ⟨ret, halloc⟩ |
        ⟨i, b, lead, trail, p', hsite, hnowrap, hblocks, hcfg, hactive, hinv, halloc⟩
      · rcases hcases with ⟨ret', q, halloc', heq⟩ | ⟨ret', q, addr, needed, halloc', -⟩
        · rw [halloc] at halloc'
          obtain ⟨-, rfl, -⟩ := halloc'
          refine .idle _ ?_ ?_
          · rw [step, heq]
            obtain ⟨hlt, hp⟩ := List.getElem?_eq_some_iff.mp (poolGet_eq_some.mp hget).1
            rw [← hp]
            exact List.set_getElem_self hlt
          · rw [step, heq]
            exact List.append_nil _
        · rw [halloc] at halloc'
          cases halloc'
      · rcases hcases with ⟨ret', q, halloc', -⟩ | ⟨ret', q, addr, needed, halloc', heq⟩
        · rw [halloc] at halloc'
          cases halloc'
        · rw [halloc] at halloc'
          cases halloc'
          refine .alloc id size alignment p p' i b lead trail hget hsite hnowrap hblocks hcfg
            hactive hinv ?_ ?_
          · rw [step, heq]
            rfl
          · rw [step, heq]
            rfl
  | free a =>
      rcases spmpFree_cases r.spmp a with ⟨hret, heq⟩ |
        ⟨p, i, hget, hne, hi, huse, haddr, hsize, heq⟩
      · exact .idle _ (congrArg Spmp.pools heq) (if_neg hret)
      · obtain ⟨hinv, hcoal⟩ := (hs.pools a.poolId p hget).freed (hs.base_pos hget) hi huse
          (haddr ▸ hne)
        refine .free a p { p with
          blocks := poolCoalesce (p.blocks.set i (entry p.blocks i).freed)
          used :=
            p.used - (entry p.blocks i).size } i hget hi huse haddr hsize hcoal rfl rfl hinv ?_ ?_
        · rw [step, heq]
          rfl
        · rw [step, heq, if_pos rfl]

theorem poolGet_congr {s s' : Spmp} (h : s'.pools = s.pools) : s'.poolGet id = s.poolGet id := by
  rw [Spmp.poolGet, h, Spmp.poolGet]

theorem poolGet_set {s s' : Spmp} {q : SpmpPool} {id' : Nat} (hget : s.poolGet id = some p)
    (h : s'.pools = s.pools.set id q) :
    s'.poolGet id' = if id' = id then (some q).filter (·.active) else s.poolGet id' :=
  (poolGet_congr (s := s.setPool id q) h).trans (poolGet_setPool hget)

/-- The pools stay tiled when one of them is replaced by a pool of the same configuration that is
tiled. -/
theorem Spmp.Tiled.set {s s' : Spmp} {q : SpmpPool} (hs : s.Tiled) (hget : s.poolGet id = some p)
    (h : s'.pools = s.pools.set id q) (hcfg : q.cfg = p.cfg)
    (hq : q.active = true → PoolInv (spmpPoolBase id).toNat p.cfg.size.toNat q) : s'.Tiled := by
  refine ⟨by rw [h, List.length_set]; exact hs.count, fun id' p' hget' => ?_⟩
  rw [poolGet_set hget h] at hget'
  split at hget'
  · rename_i hid
    obtain ⟨hqp, hactive⟩ := Option.filter_eq_some_iff.mp hget'
    cases Option.some.inj hqp
    rw [hid, hcfg]
    exact hq hactive
  · exact hs.pools id' p' hget'

/-- **One call** keeps the pools tiled. -/
theorem Spmp.Tiled.step (hs : r.spmp.Tiled) (h : SoundStep r r' op) : r'.spmp.Tiled := by
  cases h with
  | idle op hpools =>
      exact ⟨hpools ▸ hs.count, fun id p hget => hs.pools id p (poolGet_congr hpools ▸ hget)⟩
  | create cfg hroom hsize hpools =>
      refine ⟨by rw [hpools, List.length_append]; exact hroom, fun id p hget => ?_⟩
      rw [poolGet_congr (s := { r.spmp with pools := r.spmp.pools ++ [.fresh _ cfg] }) hpools,
        poolGet_create] at hget
      split at hget
      · rename_i hid
        rw [← Option.some.inj hget, hid]
        exact poolInv_fresh _ hsize
      · exact hs.pools id p hget
  | destroy id p hget hpools =>
      exact hs.set hget hpools rfl fun hactive => absurd hactive Bool.false_ne_true
  | alloc id size alignment p p' i b lead trail hget hsite hnowrap hblocks hcfg hactive hinv
    hpools =>
      exact hs.set hget hpools hcfg fun _ => hinv
  | free a p p' i hget hi huse haddr hsize hcoal hcfg hactive hinv hpools =>
      exact hs.set hget hpools hcfg fun _ => hinv

end Steps

/-- **The induction on runs.** -/
theorem SpmpRun.after_invariant (P : SpmpRun → Prop) (Sound : Spmp → SpmpOp → Prop)
    (hinit : P .init) (hstep : ∀ r op, P r → Sound r.spmp op → P (r.step op)) {ops : List SpmpOp}
    (hsound : ∀ before op, before ++ [op] <+: ops → Sound (after before).spmp op) :
    P (after ops) := by
  induction ops using List.reverseRecOn with
  | nil => exact hinit
  | append_singleton ops op ih =>
      rw [after_append]
      refine hstep _ op (ih fun before op' hpre => ?_) (hsound ops op (List.prefix_refl _))
      exact hsound before op' (hpre.trans (List.prefix_append _ _))

theorem tiled_init : SpmpRun.init.spmp.Tiled :=
  ⟨Nat.zero_le _, fun _ _ hget => absurd (lt_of_poolGet hget) (Nat.not_lt_zero _)⟩

/-- **The blocks of a pool tile its range**, `used` counts the bytes in use, and no two free blocks
are adjacent, as long as no allocation runs into one of the two flaws. -/
theorem pools_stay_tiled {ops : List SpmpOp}
    (hsound : ∀ before op, before ++ [op] <+: ops → op.TableSound (SpmpRun.after before).spmp)
    {id : Nat} {p : SpmpPool} (hget : (SpmpRun.after ops).spmp.poolGet id = some p) :
    Tiles (spmpPoolBase id).toNat p.cfg.size.toNat p.blocks ∧
      p.used.toNat = total SpmpBlock.liveSize p.blocks ∧ FreeApart p.blocks := by
  have htiled : (SpmpRun.after ops).spmp.Tiled :=
    SpmpRun.after_invariant (fun r => r.spmp.Tiled) (fun s op => op.TableSound s)
      tiled_init (fun r op hr hop => hr.step (r.step_sound hr hop)) hsound
  have hp := htiled.pools id p hget
  exact ⟨hp.tiles, hp.used, hp.apart⟩

/-- A configuration without any options. -/
def generalPool (size : Size) : SpmpPoolConfig := ⟨.general, size, 0, 0, 0⟩

/-- A page, and an allocation in the middle of it. -/
def carvePage : List SpmpOp := [.poolCreate (generalPool 4096), .alloc 0 100 64]

theorem carvePage_finds {i : Nat} {p : SpmpPool}
    (hget : (SpmpRun.after [.poolCreate (generalPool 4096)]).spmp.poolGet 0 = some p)
    (hfinds : p.Finds 100 64 i) : i = 0 ∧ p = .fresh 0 (generalPool 4096) := by
  have hp : p = .fresh 0 (generalPool 4096) := (Option.some.inj hget).symm
  subst hp
  have hfound : blockNextFree (SpmpPool.fresh 0 (generalPool 4096)).blocks (spmpNeeded 100) 64 =
      some 0 := by decide
  exact ⟨Option.some.inj (hfinds.found.symm.trans hfound), rfl⟩

theorem carvePage_sound {before : List SpmpOp} {op : SpmpOp} (h : before ++ [op] <+: carvePage) :
    op.Sound (SpmpRun.after before).spmp := by
  rcases before with _ | ⟨a, _ | ⟨b, rest⟩⟩
  · obtain rfl : op = .poolCreate (generalPool 4096) := by simpa [carvePage] using h
    exact fun _ _ _ id p hget => absurd (lt_of_poolGet hget) (Nat.not_lt_zero _)
  · obtain ⟨rfl, rfl⟩ : a = .poolCreate (generalPool 4096) ∧ op = .alloc 0 100 64 := by
      simpa [carvePage] using h
    intro p hget
    refine ⟨fun i hfinds => ?_, fun i hfinds => ?_⟩
    · obtain ⟨rfl, rfl⟩ := carvePage_finds hget hfinds
      decide
    · decide
  · simp [carvePage] at h

theorem pools_stay_tiled_page : ∃ p, (SpmpRun.after carvePage).spmp.poolGet 0 = some p ∧
    Tiles (spmpPoolBase 0).toNat p.cfg.size.toNat p.blocks ∧
      p.used.toNat = total SpmpBlock.liveSize p.blocks ∧ FreeApart p.blocks :=
  ⟨_, rfl, pools_stay_tiled (fun _ _ h => (carvePage_sound h).table) rfl⟩

/-- Half of the address space, and 64 bytes behind it at the next multiple of half of it. -/
def wrapStart : List SpmpOp :=
  [.poolCreate (generalPool 0xfffffffe00000000), .alloc 0 0x8000000000000000 16,
    .alloc 0 64 0x8000000000000000]

/-- The second allocation is at address 0. -/
theorem wrapStart_not_tiled : ∃ p, (SpmpRun.after wrapStart).spmp.poolGet 0 = some p ∧
    ¬ Tiles (spmpPoolBase 0).toNat p.cfg.size.toNat p.blocks := by
  refine ⟨_, rfl, fun htiles => ?_⟩
  have hsizes := htiles.sizes
  revert hsizes
  decide

/-! ### Live allocations -/

namespace SpmpAllocation

def Apart (a b : SpmpAllocation) : Prop :=
  a.addr.toNat + a.size.toNat ≤ b.addr.toNat ∨ b.addr.toNat + b.size.toNat ≤ a.addr.toNat

/-- The pool of the allocation has a block in use with its address and size. -/
def Backed (s : Spmp) (a : SpmpAllocation) : Prop :=
  ∃ p, s.poolGet a.poolId = some p ∧
    ∃ b ∈ p.blocks, b.inUse = true ∧ b.addr = a.addr ∧ b.size = a.size ∧ b.size ≠ 0

/-- The allocation lies in the range of its pool. -/
def InPool (s : Spmp) (a : SpmpAllocation) : Prop :=
  ∃ p, s.poolGet a.poolId = some p ∧ (spmpPoolBase a.poolId).toNat ≤ a.addr.toNat ∧
    a.addr.toNat + a.size.toNat ≤ (spmpPoolBase a.poolId).toNat + p.cfg.size.toNat

end SpmpAllocation

/-- What the callers rely on. -/
structure SpmpRun.AllocsHold (r : SpmpRun) : Prop where
  apart : r.live.Pairwise fun a b => a.alloc.Apart b.alloc
  inPool : ∀ a ∈ r.live, a.alloc.InPool r.spmp
  size : ∀ a ∈ r.live, a.size.toNat ≤ a.alloc.size.toNat
  aligned : ∀ a ∈ r.live, a.alignment.toNat ∣ a.alloc.addr.toNat

structure LiveInv (r : SpmpRun) : Prop where
  tiled : r.spmp.Tiled
  ranges : ∀ id id' p p', id < id' → r.spmp.poolGet id = some p → r.spmp.poolGet id' = some p' →
    spmpPoolEnd id p.cfg < 2 ^ 64 → spmpPoolEnd id' p'.cfg < 2 ^ 64 →
    spmpPoolEnd id p.cfg ≤ (spmpPoolBase id').toNat
  backed : ∀ a ∈ r.live, a.alloc.Backed r.spmp
  asked : ∀ a ∈ r.live, a.size.toNat ≤ a.alloc.size.toNat ∧
    a.alignment.toNat ∣ a.alloc.addr.toNat
  apart : r.live.Pairwise fun a b => a.alloc.Apart b.alloc

section Requests

variable {size alignment : Size} {b : SpmpBlock}

/-- A size is rounded up to a multiple of 16, and to 64 at least. -/
theorem spmpNeeded_round (h : size.toNat + 15 < 2 ^ 64) :
    (spmpNeeded size).toNat = max 64 ((size.toNat + 15) / 16 * 16) := by
  have hround : ((size + spmpBlockAlign - 1) &&& ~~~(spmpBlockAlign - 1)).toNat =
      (size.toNat + 15) / 16 * 16 := by
    rw [show size + spmpBlockAlign - 1 = size + 15 by rw [add_sub_assoc]; rfl,
      show spmpBlockAlign - 1 = 15 from rfl, and_not_fifteen, BitVec.toNat_add,
      show (15 : Size).toNat = 15 from rfl, Nat.mod_eq_of_lt h]
  have hmin : spmpMinBlock.toNat = 64 := rfl
  unfold spmpNeeded
  dsimp only
  split
  · rename_i hsmall
    have hsmall := BitVec.lt_def.mp hsmall
    omega
  · rename_i hlarge
    rw [BitVec.lt_def] at hlarge
    omega

theorem le_spmpNeeded (h : size.toNat + 15 < 2 ^ 64) : size.toNat ≤ (spmpNeeded size).toNat := by
  have hround := spmpNeeded_round h
  omega

/-- What a start is rounded to is never 0. -/
theorem alignment_pos {align : Size}
    (halign : align = if spmpBlockAlign < alignment then alignment else spmpBlockAlign) :
    0 < align.toNat := by
  rw [halign]
  split
  · rename_i hlt
    exact Nat.lt_of_le_of_lt (Nat.zero_le _) (BitVec.lt_def.mp hlt)
  · decide

/-- The rounded start of a block is a multiple of what it is rounded to. -/
theorem SpmpBlock.dvd_aligned {align : Size}
    (halign : align = if spmpBlockAlign < alignment then alignment else spmpBlockAlign)
    (hnowrap : ¬ b.aligned alignment < b.addr) : align.toNat ∣ (b.aligned alignment).toNat := by
  have hmod := Nat.mod_lt b.addr.toNat (alignment_pos halign)
  have hrem : (b.addr % align).toNat = b.addr.toNat % align.toNat := BitVec.toNat_umod
  have heq : b.aligned alignment =
      if b.addr % align ≠ 0 then b.addr + (align - b.addr % align) else b.addr := by
    rw [halign]
    rfl
  rw [heq] at hnowrap ⊢
  split
  · rename_i hne
    rw [if_pos hne] at hnowrap
    have hnowrap := Nat.not_lt.mp hnowrap
    have hsub : (align - b.addr % align).toNat = align.toNat - b.addr.toNat % align.toNat := by
      rw [BitVec.toNat_sub_of_le (by rw [BitVec.le_def, hrem]; omega), hrem]
    have hne' : b.addr.toNat % align.toNat ≠ 0 := by
      rw [← hrem]
      exact fun h => hne (BitVec.eq_of_toNat_eq h)
    have hsum : (b.addr + (align - b.addr % align)).toNat =
        b.addr.toNat + (align.toNat - b.addr.toNat % align.toNat) := by
      rw [BitVec.toNat_add, hsub] at hnowrap ⊢
      have hlt := align.isLt
      have haddr := b.addr.isLt
      omega
    rw [hsum]
    refine ⟨b.addr.toNat / align.toNat + 1, ?_⟩
    have hdiv := Nat.div_add_mod b.addr.toNat align.toNat
    rw [Nat.mul_add, Nat.mul_one]
    omega
  · rename_i hzero
    rw [not_not] at hzero
    refine Nat.dvd_of_mod_eq_zero ?_
    rw [← hrem, hzero]
    rfl

theorem SpmpBlock.dvd_aligned_of_pow (hpow : ∃ k, alignment.toNat = 2 ^ k)
    (hnowrap : ¬ b.aligned alignment < b.addr) :
    alignment.toNat ∣ (b.aligned alignment).toNat := by
  refine Nat.dvd_trans ?_ (dvd_aligned rfl hnowrap)
  split
  · exact Nat.dvd_refl _
  · rename_i hle
    obtain ⟨k, hk⟩ := hpow
    have hsmall : 2 ^ k ≤ 2 ^ 4 := by
      rw [← hk]
      exact Nat.not_lt.mp hle
    rw [hk]
    exact Nat.pow_dvd_pow 2 ((Nat.pow_le_pow_iff_right (by decide)).mp hsmall)

end Requests

section Live

variable {s s' : Spmp} {r r' : SpmpRun} {p q : SpmpPool} {id : Nat} {a : SpmpAllocation}
  {op : SpmpOp}

/-- Where the block behind an allocation lies. -/
theorem Spmp.Tiled.backed_range (hs : s.Tiled) (hget : s.poolGet id = some p) {b : SpmpBlock}
    (hb : b ∈ p.blocks) (huse : b.inUse = true) (hsize : b.size ≠ 0) :
    spmpPoolEnd id p.cfg < 2 ^ 64 ∧ (spmpPoolBase id).toNat ≤ b.lo ∧
      b.hi ≤ spmpPoolEnd id p.cfg := by
  have hp := hs.pools id p hget
  refine ⟨hp.range.elim (fun h => h) ?_, hp.tiles.in_range hb hsize⟩
  rintro ⟨c, hc, hfree⟩
  rw [hc] at hb
  rw [List.mem_singleton.mp hb, hfree] at huse
  cases huse

theorem Spmp.Tiled.inPool (hs : s.Tiled) (h : a.Backed s) : a.InPool s := by
  obtain ⟨p, hget, b, hb, huse, haddr, hsize, hne⟩ := h
  obtain ⟨-, hlow, hhigh⟩ := hs.backed_range hget hb huse hne
  refine ⟨p, hget, haddr ▸ hlow, ?_⟩
  rw [← haddr, ← hsize]
  exact hhigh

/-- A block in use stays when a free block is carved up. -/
theorem mem_allocated {size alignment : Size} {i : Nat} {b c x : SpmpBlock}
    {lead trail : List SpmpBlock} (hsite : AllocSite p id size alignment i b lead trail)
    (hc : c ∈ p.blocks) (huse : c.inUse = true) :
    c ∈ (p.blocks ++ lead ++ trail).set i x := by
  obtain ⟨k, hk, rfl⟩ := List.getElem_of_mem hc
  have hki : i ≠ k := by
    rintro rfl
    have hfree := SpmpBlock.free_of_fits hsite.fits
    rw [hsite.block, entry_of_lt hk, huse] at hfree
    cases hfree
  refine List.mem_of_getElem? (i := k) ?_
  rw [List.getElem?_set_ne hki, List.append_assoc, List.getElem?_append_left hk,
    List.getElem?_eq_getElem hk]

/-- A block in use stays when another one is freed. -/
theorem mem_coalesced {B S : Nat} {T T' : List SpmpBlock} {i : Nat} {c : SpmpBlock} (hc : c ∈ T)
    (huse : c.inUse = true) (hne : c ≠ entry T i)
    (hcoal : Coalesced B S (T.set i (entry T i).freed) T') : c ∈ T' := by
  obtain ⟨k, hk, rfl⟩ := List.getElem_of_mem hc
  have hki : k ≠ i := by
    rintro rfl
    exact hne (entry_of_lt hk).symm
  have hkeep : entry (T.set i (entry T i).freed) k = T[k] := by
    rw [entry_set, if_neg fun h => hki h.1, entry_of_lt hk]
  have hstay := hcoal.inUse k (hkeep ▸ huse)
  rw [← hkeep, ← hstay]
  exact entry_mem (by rw [hcoal.length, List.length_set]; exact hk)

/-- An allocation stays backed when its pool keeps its block in use, and when another pool
changes. -/
theorem SpmpAllocation.Backed.set (h : a.Backed s) (hget : s.poolGet id = some p)
    (hpools : s'.pools = s.pools.set id q) (hactive : q.active = p.active)
    (hkeep : a.poolId = id → ∀ c ∈ p.blocks, c.inUse = true → c.addr = a.addr → c.size = a.size →
      c ∈ q.blocks) : a.Backed s' := by
  obtain ⟨p', hget', c, hc, huse, haddr, hsize, hne⟩ := h
  by_cases hid : a.poolId = id
  · rw [hid, hget] at hget'
    cases hget'
    refine ⟨q, ?_, c, hkeep hid c hc huse haddr hsize, huse, haddr, hsize, hne⟩
    rw [poolGet_set hget hpools, if_pos hid, Option.filter_some,
      if_pos (hactive ▸ (poolGet_eq_some.mp hget).2)]
  · refine ⟨p', ?_, c, hc, huse, haddr, hsize, hne⟩
    rw [poolGet_set hget hpools, if_neg hid, hget']

/-- The ranges stay apart when no pool's range changes. -/
theorem ranges_set (hget : s.poolGet id = some p) (hpools : s'.pools = s.pools.set id q)
    (hcfg : q.cfg = p.cfg) {id' : Nat} {p' : SpmpPool} (h : s'.poolGet id' = some p') :
    ∃ p'', s.poolGet id' = some p'' ∧ p''.cfg = p'.cfg := by
  rw [poolGet_set hget hpools] at h
  split at h
  · rename_i hid
    cases (Option.filter_eq_some_iff.mp h).1
    exact ⟨p, hid ▸ hget, hcfg.symm⟩
  · exact ⟨p', h, rfl⟩

/-- **A new allocation is apart from every live one.** -/
theorem LiveInv.new_apart (hr : LiveInv r) {size alignment : Size} {i : Nat} {b : SpmpBlock}
    {lead trail : List SpmpBlock} (hget : r.spmp.poolGet id = some p)
    (hsite : AllocSite p id size alignment i b lead trail)
    (hnowrap : ¬ b.aligned alignment < b.addr) (h : a.Backed r.spmp) :
    a.Apart ⟨b.aligned alignment, spmpNeeded size, id, p.cfg.encrypt⟩ := by
  have hp := hr.tiled.pools id p hget
  obtain ⟨hS, -, hlow, hhigh⟩ := hsite.inside hp hnowrap
  have hfree := SpmpBlock.free_of_fits hsite.fits
  have hb : b ∈ p.blocks := hsite.block ▸ entry_mem hsite.lt
  have hneeded := spmpNeeded_ge size
  have hbrange : (spmpPoolBase id).toNat ≤ b.lo ∧ b.hi ≤ spmpPoolEnd id p.cfg := by
    rw [hsite.block] at hfree ⊢
    exact hp.tiles.free_range hfree
  obtain ⟨p', hget', c, hc, huse, haddr, hsize, hne⟩ := h
  obtain ⟨hend, hclow, hchigh⟩ := hr.tiled.backed_range hget' hc huse hne
  have hcpos : 0 < c.size.toNat := Nat.pos_of_ne_zero fun h => hne (BitVec.eq_of_toNat_eq h)
  unfold SpmpAllocation.Apart
  rw [← haddr, ← hsize]
  have hcdef : c.hi = c.addr.toNat + c.size.toNat := rfl
  have hlodef : c.lo = c.addr.toNat := rfl
  rcases Nat.lt_trichotomy a.poolId id with hlt | heq | hgt
  · have hranges := hr.ranges a.poolId id p' p hlt hget' hget hend hS
    dsimp only
    omega
  · rw [heq, hget] at hget'
    cases hget'
    have hapart := hp.tiles.apart_of_ne hc hb fun h => by
      rw [h, hfree] at huse
      cases huse
    dsimp only
    omega
  · have hranges := hr.ranges id a.poolId p p' hgt hget hget' hS hend
    dsimp only
    omega

theorem LiveInv.ranges_of_set (hr : LiveInv r) (hget : r.spmp.poolGet id = some p)
    (hpools : s'.pools = r.spmp.pools.set id q) (hcfg : q.cfg = p.cfg) {i i' : Nat}
    {q₁ q₂ : SpmpPool} (hlt : i < i') (h₁ : s'.poolGet i = some q₁) (h₂ : s'.poolGet i' = some q₂)
    (hend : spmpPoolEnd i q₁.cfg < 2 ^ 64) (hend' : spmpPoolEnd i' q₂.cfg < 2 ^ 64) :
    spmpPoolEnd i q₁.cfg ≤ (spmpPoolBase i').toNat := by
  obtain ⟨p₁, hp₁, hcfg₁⟩ := ranges_set hget hpools hcfg h₁
  obtain ⟨p₂, hp₂, hcfg₂⟩ := ranges_set hget hpools hcfg h₂
  rw [← hcfg₁] at hend ⊢
  rw [← hcfg₂] at hend'
  exact hr.ranges i i' p₁ p₂ hlt hp₁ hp₂ hend hend'

/-- **One call** keeps the live allocations apart and backed by blocks in use. -/
theorem LiveInv.step (hr : LiveInv r) (hsound : op.Sound r.spmp) (halign : op.Aligned) :
    LiveInv (r.step op) := by
  have hstep := r.step_sound hr.tiled hsound.table
  have htiled := hr.tiled.step hstep
  generalize r.step op = r' at hstep htiled ⊢
  cases hstep with
  | idle op hpools hlive =>
      refine ⟨htiled, fun id id' p p' hlt hget hget' => ?_, fun a ha => ?_, fun a ha => ?_, ?_⟩
      · rw [poolGet_congr hpools] at hget hget'
        exact hr.ranges id id' p p' hlt hget hget'
      · obtain ⟨p, hget, hb⟩ := hr.backed a (hlive ▸ ha)
        exact ⟨p, poolGet_congr hpools ▸ hget, hb⟩
      · exact hr.asked a (hlive ▸ ha)
      · exact hlive ▸ hr.apart
  | create cfg hroom hsize hpools hlive =>
      have hgets : ∀ id, r'.spmp.poolGet id =
          if id = r.spmp.pools.length then some (.fresh r.spmp.pools.length cfg)
          else r.spmp.poolGet id := fun id =>
        (poolGet_congr (s := { r.spmp with pools := r.spmp.pools ++ [.fresh _ cfg] })
          hpools).trans poolGet_create
      refine ⟨htiled, fun id id' p p' hlt hget hget' hend hend' => ?_, fun a ha => ?_,
        fun a ha => ?_, ?_⟩
      · rw [hgets] at hget hget'
        have hid : id ≠ r.spmp.pools.length := by
          rintro rfl
          rw [if_neg (by omega)] at hget'
          have hlt' := lt_of_poolGet hget'
          omega
        rw [if_neg hid] at hget
        split at hget'
        · rename_i hid'
          cases Option.some.inj hget'
          rw [hid'] at hend' ⊢
          exact hsound hroom hsize hend' id p hget hend
        · exact hr.ranges id id' p p' hlt hget hget' hend hend'
      · obtain ⟨p, hget, hb⟩ := hr.backed a (hlive ▸ ha)
        have hlt := lt_of_poolGet hget
        exact ⟨p, by rw [hgets, if_neg (by omega), hget], hb⟩
      · exact hr.asked a (hlive ▸ ha)
      · exact hlive ▸ hr.apart
  | destroy id p hget hpools hlive =>
      refine ⟨htiled, fun i i' q q' => ?_, fun a ha => ?_, fun a ha => ?_, ?_⟩
      · exact hr.ranges_of_set hget hpools rfl
      · rw [hlive] at ha
        obtain ⟨hmem, hid⟩ := List.mem_filter.mp ha
        obtain ⟨q, hq, hb⟩ := hr.backed a hmem
        have hid : a.alloc.poolId ≠ id := of_decide_eq_true hid
        exact ⟨q, by rw [poolGet_set hget hpools, if_neg hid, hq], hb⟩
      · rw [hlive] at ha
        exact hr.asked a (List.mem_filter.mp ha).1
      · rw [hlive]
        exact hr.apart.sublist List.filter_sublist
  | alloc id size alignment p p' i b lead trail hget hsite hnowrap hblocks hcfg hactive hinv hpools
      hlive =>
      have hsize := (hsound p hget).2 i hsite.finds
      refine ⟨htiled, fun i i' q q' => ?_, fun a ha => ?_, fun a ha => ?_, ?_⟩
      · exact hr.ranges_of_set hget hpools hcfg
      · rw [hlive] at ha
        rcases List.mem_append.mp ha with hold | hnew
        · refine (hr.backed a hold).set hget hpools hactive fun _ c hc huse _ _ => ?_
          rw [hblocks]
          exact mem_allocated hsite hc huse
        · rw [List.mem_singleton.mp hnew]
          refine ⟨p', ?_, b.allocated (b.aligned alignment) (spmpNeeded size), ?_, rfl, rfl, rfl,
            ?_⟩
          · rw [poolGet_set hget hpools, if_pos rfl, Option.filter_some,
              if_pos (hactive ▸ (poolGet_eq_some.mp hget).2)]
          · rw [hblocks]
            refine List.mem_set ?_ _
            have hlt := hsite.lt
            simp only [List.length_append]
            omega
          · intro hzero
            have hneeded := spmpNeeded_ge size
            have hzero : (spmpNeeded size).toNat = 0 := congrArg BitVec.toNat hzero
            omega
      · rw [hlive] at ha
        rcases List.mem_append.mp ha with hold | hnew
        · exact hr.asked a hold
        · rw [List.mem_singleton.mp hnew]
          exact ⟨le_spmpNeeded hsize, SpmpBlock.dvd_aligned_of_pow halign hnowrap⟩
      · rw [hlive, List.pairwise_append]
        refine ⟨hr.apart, List.pairwise_singleton _ _, fun a ha c hc => ?_⟩
        rw [List.mem_singleton.mp hc]
        exact hr.new_apart hget hsite hnowrap (hr.backed a ha)
  | free a p p' i hget hi huse haddr hsize hcoal hcfg hactive hinv hpools hlive =>
      refine ⟨htiled, fun i i' q q' => ?_, fun b hb => ?_, fun b hb => ?_, ?_⟩
      · exact hr.ranges_of_set hget hpools hcfg
      · rw [hlive] at hb
        obtain ⟨hmem, hne⟩ := List.mem_filter.mp hb
        refine (hr.backed b hmem).set hget hpools hactive fun hid c hc huse haddr' hsize' => ?_
        refine mem_coalesced hc huse ?_ hcoal
        rintro rfl
        refine of_decide_eq_true hne ?_
        rw [SpmpAllocation.handle, hid, ← haddr', ← hsize', haddr, hsize]
        rfl
      · rw [hlive] at hb
        exact hr.asked b (List.mem_filter.mp hb).1
      · rw [hlive]
        exact hr.apart.sublist List.filter_sublist

theorem liveInv_init : LiveInv .init where
  tiled := tiled_init
  ranges _ _ _ _ _ hget := absurd (lt_of_poolGet hget) (Nat.not_lt_zero _)
  backed _ ha := absurd ha List.not_mem_nil
  asked _ ha := absurd ha List.not_mem_nil
  apart := .nil

end Live

/-- **Live allocations are disjoint**, lie in their own pools, and are as large and as aligned as
was asked for, along every run of calls that run into none of the flaws. -/
theorem live_allocs_hold {ops : List SpmpOp} (halign : ∀ op ∈ ops, op.Aligned)
    (hsound : ∀ before op, before ++ [op] <+: ops → op.Sound (SpmpRun.after before).spmp) :
    (SpmpRun.after ops).AllocsHold := by
  have hlive : LiveInv (SpmpRun.after ops) := by
    refine SpmpRun.after_invariant LiveInv (fun s op => op.Sound s ∧ op.Aligned)
      liveInv_init (fun r op hr hop => hr.step hop.1 hop.2) fun before op hpre =>
        ⟨hsound before op hpre, halign op ?_⟩
    exact hpre.subset (List.mem_append_right _ List.mem_cons_self)
  exact ⟨hlive.apart, fun a ha => hlive.tiled.inPool (hlive.backed a ha),
    fun a ha => (hlive.asked a ha).1, fun a ha => (hlive.asked a ha).2⟩

/-- Two pools of a page. One gives two allocations and takes the first back, and gives its place
again. -/
def twoPoolCalls : List SpmpOp :=
  [.poolCreate (generalPool 4096), .poolCreate (generalPool 4096), .alloc 0 100 64,
    .alloc 1 200 256, .alloc 0 64 16, .free ⟨spmpPoolBase 0, 112, 0, 0⟩, .alloc 0 32 16]

theorem sound_alloc {s : Spmp} {p : SpmpPool} {id i : Nat} {size alignment : Size}
    (hget : s.poolGet id = some p)
    (hfound : blockNextFree p.blocks (spmpNeeded size) alignment = some i)
    (hstart : ¬ (entry p.blocks i).aligned alignment < (entry p.blocks i).addr)
    (hslots : p.blocks.length + 1 ≠ spmpMaxBlocks) (hsize : size.toNat + 15 < 2 ^ 64) :
    (SpmpOp.alloc id size alignment).Sound s := by
  intro p' hget'
  obtain rfl := Option.some.inj (hget.symm.trans hget')
  refine ⟨fun j hfinds => ?_, fun _ _ => hsize⟩
  obtain rfl := Option.some.inj (hfound.symm.trans hfinds.found)
  exact ⟨hstart, fun h => hslots h.1⟩

theorem twoPools_sound :
    Throughout SpmpRun.step (fun r op => op.Sound r.spmp) .init twoPoolCalls := by
  have hfirst : (SpmpOp.poolCreate (generalPool 4096)).Sound spmpInit :=
    fun _ _ _ id p hget => absurd (lt_of_poolGet hget) (Nat.not_lt_zero _)
  have hsecond : (SpmpOp.poolCreate (generalPool 4096)).Sound
      (spmpPoolCreate spmpInit (generalPool 4096)).2.1 := by
    intro _ _ _ id p hget _
    obtain rfl : id = 0 := Nat.lt_one_iff.mp (lt_of_poolGet hget)
    obtain rfl : SpmpPool.fresh 0 (generalPool 4096) = p := Option.some.inj hget
    decide
  refine ⟨hfirst, hsecond, ?_, ?_, ?_, trivial, ?_, trivial⟩
  all_goals exact sound_alloc rfl rfl (by decide) (by decide) (by decide)

theorem twoPools_hold :
    (SpmpRun.after twoPoolCalls).AllocsHold ∧
      (SpmpRun.after twoPoolCalls).live.map (fun a => (a.alloc.poolId, a.alloc.addr)) =
        [(1, 0x200000000), (0, 0x100000070), (0, 0x100000000)] := by
  refine ⟨live_allocs_hold (fun op hop => ?_) fun _ _ h => twoPools_sound.before h, by decide⟩
  simp only [twoPoolCalls, List.mem_cons, List.not_mem_nil, or_false] at hop
  rcases hop with rfl | rfl | rfl | rfl | rfl | rfl | rfl
  · trivial
  · trivial
  · exact ⟨6, by decide⟩
  · exact ⟨8, by decide⟩
  · exact ⟨4, by decide⟩
  · trivial
  · exact ⟨4, by decide⟩

/-- The second pool starts in the middle of the first. -/
def overlapPools : List SpmpOp :=
  [.poolCreate (generalPool 0x200000000), .poolCreate (generalPool 0x200000000),
    .alloc 0 0x140000000 16, .alloc 1 64 16]

theorem overlapPools_not_hold : ¬ (SpmpRun.after overlapPools).AllocsHold := by
  intro hhold
  have hapart := hhold.apart
  revert hapart
  unfold SpmpAllocation.Apart
  decide

end BradVector
