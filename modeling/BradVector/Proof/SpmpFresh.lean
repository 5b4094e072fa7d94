import BradVector.Proof.SpmpRuns
import Mathlib.Data.Finset.Card

/-!
# Freed pools and fresh ones

A pool whose allocations have all been freed behaves as a fresh one if and only if its table still
has the one entry it was created with. Every further entry is a slot that is never given back, and
there is a sequence of requests that runs out of slots before a fresh pool does.
-/

namespace BradVector

open CSem

/-- A request to a pool: an allocation, or the return of the `n`-th one. -/
inductive PoolRequest where
  | alloc (size alignment : Size)
  | free (n : Nat)
  deriving DecidableEq, Repr

/-- One request of a caller that holds the allocations `c.2`. There is no result when the call
fails. -/
def Spmp.request (id : Nat) (c : Spmp × List SpmpAllocation) :
    PoolRequest → Option (Spmp × List SpmpAllocation)
  | .alloc size alignment =>
      let done := spmpAlloc c.1 id size alignment
      done.2.2.map fun a => (done.2.1, c.2 ++ [a])
  | .free n =>
      c.2[n]?.bind fun a =>
        let done := spmpFree c.1 a
        if done.1 = 0 then some (done.2.1, c.2.set n done.2.2) else none

/-- The calls all succeed. -/
def Spmp.Accepts (s : Spmp) (id : Nat) (requests : List PoolRequest) : Prop :=
  (requests.foldlM (Spmp.request id) (s, [])).isSome

/-- The call is an allocation from the pool or the return of one. -/
def SpmpOp.On (id : Nat) : SpmpOp → Prop
  | .alloc poolId _ _ => poolId = id
  | .free a => a.poolId = id
  | _ => False

/-! ### The pool alone -/

/-- `Spmp.request`, on the pool that serves it. -/
def SpmpPool.request (id : Nat) (c : SpmpPool × List SpmpAllocation) :
    PoolRequest → Option (SpmpPool × List SpmpAllocation)
  | .alloc size alignment =>
      let done := c.1.alloc id size alignment
      done.2.2.map fun got => (done.2.1, c.2 ++ [⟨got.1, got.2, id, c.1.cfg.encrypt⟩])
  | .free n =>
      c.2[n]?.bind fun a =>
        let done := c.1.free a.addr a.size
        if a.addr ≠ 0 ∧ done.1 = 0 then some (done.2, c.2.set n .zero) else none

section Pool

variable {s : Spmp} {p p' : SpmpPool} {id i : Nat} {size alignment : Size} {T : List SpmpBlock}
  {got : List SpmpAllocation} {requests : List PoolRequest}

@[simp]
theorem length_mergeAt (j : Nat) : (mergeAt i T j).length = T.length := by
  unfold mergeAt
  dsimp only
  split_ifs <;> simp

@[simp]
theorem length_poolCoalesce : (poolCoalesce T).length = T.length :=
  length_foldl fun T i => by
    unfold coalesceRow
    split
    · rfl
    · exact length_foldl fun T j => length_mergeAt j

/-- An allocation only adds entries to the table. -/
theorem alloc_keeps (p : SpmpPool) (id : Nat) (size alignment : Size) :
    (p.alloc id size alignment).2.1.cfg = p.cfg ∧
      (p.alloc id size alignment).2.1.active = p.active ∧
      p.blocks.length ≤ (p.alloc id size alignment).2.1.blocks.length ∧
      (p.blocks.length ≤ spmpMaxBlocks →
        (p.alloc id size alignment).2.1.blocks.length ≤ spmpMaxBlocks) := by
  rcases alloc_cases p id size alignment with
    ⟨-, ret, -, heq⟩ | ⟨i, b, lead, trail, hsite, ⟨hslots, heq⟩ | ⟨hlast, hlead, htrail, heq⟩⟩
  · rw [heq]
    exact ⟨rfl, rfl, Nat.le_refl _, fun h => h⟩
  · rw [heq]
    refine ⟨rfl, rfl, ?_, fun _ => ?_⟩
    · simp only [List.length_set, List.length_append]
      omega
    · simpa only [List.length_set, List.length_append] using hslots
  · rw [heq]
    refine ⟨rfl, rfl, by simp, fun _ => ?_⟩
    have hlen : lead.length ≤ 1 := by
      rw [hsite.lead_eq, leadHole]
      split <;> simp
    rw [List.length_append]
    omega

theorem free_keeps (p : SpmpPool) (addr size : Size) :
    (p.free addr size).2.cfg = p.cfg ∧ (p.free addr size).2.active = p.active ∧
      (p.free addr size).2.blocks.length = p.blocks.length := by
  rcases free_cases p addr size with ⟨heq, -⟩ | ⟨i, -, -, -, -, heq⟩
  · rw [heq]
    exact ⟨rfl, rfl, rfl⟩
  · rw [heq]
    exact ⟨rfl, rfl, by simp⟩

/-- The allocations are from the pool, or have been given back. -/
def HeldFrom (id : Nat) (got : List SpmpAllocation) : Prop := ∀ a ∈ got, a.addr = 0 ∨ a.poolId = id

theorem spmpAlloc_of_get (hinit : s.initialized = true) (hget : s.poolGet id = some p)
    (size alignment : Size) :
    (spmpAlloc s id size alignment).2.2 = ((p.alloc id size alignment).2.2.map fun got =>
        ⟨got.1, got.2, id, p.cfg.encrypt⟩) ∧
      (spmpAlloc s id size alignment).2.1.initialized = true ∧
      (spmpAlloc s id size alignment).2.1.pools = s.pools.set id
        (p.alloc id size alignment).2.1 := by
  unfold spmpAlloc
  rw [if_neg (not_not_intro hinit), hget]
  dsimp only
  rcases p.alloc id size alignment with ⟨ret, p', _ | ⟨addr, needed⟩⟩
  · exact ⟨rfl, hinit, rfl⟩
  · exact ⟨rfl, hinit, rfl⟩

theorem spmpFree_of_get (hinit : s.initialized = true) {a : SpmpAllocation}
    (hget : s.poolGet a.poolId = some p) (haddr : a.addr ≠ 0) :
    ((p.free a.addr a.size).1 ≠ 0 ∧ (spmpFree s a).1 ≠ 0) ∨
      ((p.free a.addr a.size).1 = 0 ∧ (spmpFree s a).1 = 0 ∧ (spmpFree s a).2.2 = .zero ∧
        (spmpFree s a).2.1.initialized = true ∧
        (spmpFree s a).2.1.pools = s.pools.set a.poolId (p.free a.addr a.size).2) := by
  unfold spmpFree
  rw [if_neg (not_not_intro hinit), if_neg haddr, hget]
  rcases free_cases p a.addr a.size with ⟨heq, -⟩ | ⟨i, -, -, -, -, heq⟩
  · dsimp only
    rw [heq]
    exact .inl ⟨(by decide : -enoent ≠ 0), (by decide : -enoent ≠ 0)⟩
  · dsimp only
    rw [heq]
    exact .inr ⟨rfl, rfl, rfl, hinit, rfl⟩

theorem poolGet_replaced {s' : Spmp} (hget : s.poolGet id = some p)
    (hpools : s'.pools = s.pools.set id p') (hactive : p'.active = p.active) :
    s'.poolGet id = some p' := by
  rw [poolGet_set hget hpools, if_pos rfl, Option.filter_some,
    if_pos (hactive ▸ (poolGet_eq_some.mp hget).2)]

/-- **A request goes to the pool.** -/
theorem request_cases (hinit : s.initialized = true) (hget : s.poolGet id = some p)
    (hheld : HeldFrom id got) (request : PoolRequest) :
    (SpmpPool.request id (p, got) request = none ∧ Spmp.request id (s, got) request = none) ∨
      ∃ p' s' got', SpmpPool.request id (p, got) request = some (p', got') ∧
        Spmp.request id (s, got) request = some (s', got') ∧ s'.initialized = true ∧
        s'.poolGet id = some p' ∧ HeldFrom id got' := by
  cases request with
  | alloc size alignment =>
      obtain ⟨hgot, hinit', hpools⟩ := spmpAlloc_of_get hinit hget size alignment
      have hget' := poolGet_replaced hget hpools (alloc_keeps p id size alignment).2.1
      simp only [SpmpPool.request, Spmp.request, hgot]
      rcases (p.alloc id size alignment).2.2 with _ | ⟨addr, needed⟩
      · exact .inl ⟨rfl, rfl⟩
      · refine .inr ⟨_, _, _, rfl, rfl, hinit', hget', fun a ha => ?_⟩
        rcases List.mem_append.mp ha with hold | hnew
        · exact hheld a hold
        · rw [List.mem_singleton.mp hnew]
          exact .inr rfl
  | free n =>
      simp only [SpmpPool.request, Spmp.request]
      cases ha : got[n]? with
      | none => exact .inl ⟨rfl, rfl⟩
      | some a =>
          simp only [Option.bind_some]
          by_cases haddr : a.addr = 0
          · refine .inl ⟨if_neg fun h => h.1 haddr, if_neg ?_⟩
            unfold spmpFree
            rw [if_neg (not_not_intro hinit), if_pos haddr]
            exact (by decide : -einval ≠ 0)
          have hid := (hheld a (List.mem_of_getElem? ha)).resolve_left haddr
          rcases spmpFree_of_get hinit (hid ▸ hget) haddr with
            ⟨hpool, hret⟩ | ⟨hpool, hret, hzero, hinit', hpools⟩
          · exact .inl ⟨if_neg fun h => hpool h.2, if_neg hret⟩
          · rw [if_pos ⟨haddr, hpool⟩, if_pos hret, hzero]
            refine .inr ⟨_, _, _, rfl, rfl, hinit', ?_, fun b hb => ?_⟩
            · exact poolGet_replaced hget (hid ▸ hpools) (free_keeps p a.addr a.size).2.1
            · rcases List.mem_or_eq_of_mem_set hb with hold | rfl
              · exact hheld b hold
              · exact .inl rfl

/-- The calls all succeed. -/
def SpmpPool.Accepts (p : SpmpPool) (id : Nat) (got : List SpmpAllocation)
    (requests : List PoolRequest) : Prop :=
  (requests.foldlM (SpmpPool.request id) (p, got)).isSome

theorem accepts_iff_pool (hinit : s.initialized = true) (hget : s.poolGet id = some p) :
    s.Accepts id requests ↔ p.Accepts id [] requests := by
  have hrun : ∀ (requests : List PoolRequest) (s : Spmp) (p : SpmpPool) (got : List SpmpAllocation),
      s.initialized = true → s.poolGet id = some p → HeldFrom id got →
      ((requests.foldlM (Spmp.request id) (s, got)).isSome ↔ p.Accepts id got requests) := by
    intro requests
    induction requests with
    | nil => exact fun s p got _ _ _ => Iff.rfl
    | cons request requests ih =>
        intro s p got hinit hget hheld
        rw [SpmpPool.Accepts, List.foldlM_cons, List.foldlM_cons]
        rcases request_cases hinit hget hheld request with
          ⟨hpool, hspmp⟩ | ⟨p', s', got', hpool, hspmp, hinit', hget', hheld'⟩
        · rw [hpool, hspmp]
          exact Iff.rfl
        · rw [hpool, hspmp]
          exact ih s' p' got' hinit' hget' hheld'
  exact hrun requests s p [] hinit hget fun a ha => absurd ha List.not_mem_nil

end Pool

/-! ### The encryption flags of the blocks

Freeing clears the flag of the block, so that a pool that has been used is a fresh one only up to
the flags. Nothing reads them.
-/

def SpmpBlock.plain (b : SpmpBlock) : SpmpBlock := { b with encrypted := false }

def SpmpPool.plain (p : SpmpPool) : SpmpPool :=
  { p with used := 0, blocks := p.blocks.map SpmpBlock.plain }

section Plain

variable {p q : SpmpPool} {id i j : Nat} {size alignment addr : Size} {T : List SpmpBlock}
  {got : List SpmpAllocation} {requests : List PoolRequest}

@[simp]
theorem getD_plain :
    (T.map SpmpBlock.plain).getD i .tombstone = (T.getD i .tombstone).plain :=
  List.getD_map T .tombstone SpmpBlock.plain

@[simp]
theorem map_plain_plain : (T.map SpmpBlock.plain).map SpmpBlock.plain = T.map SpmpBlock.plain := by
  rw [List.map_map]
  rfl

theorem SpmpPool.plain_plain : p.plain.plain = p.plain := by
  unfold plain
  rw [map_plain_plain]

theorem blockNextFree_plain :
    blockNextFree (T.map SpmpBlock.plain) size alignment = blockNextFree T size alignment :=
  List.findIdx?_map

theorem addHole_plain {P : Prop} [Decidable P] :
    (if P then addHole (T.map SpmpBlock.plain) id addr size else some (T.map SpmpBlock.plain)) =
      (if P then addHole T id addr size else some T).map (List.map SpmpBlock.plain) := by
  unfold addHole
  rw [List.length_map]
  split_ifs
  · rfl
  · rw [Option.map_some, List.map_append]
    rfl
  · rfl

theorem alloc_plain (p : SpmpPool) (id : Nat) (size alignment : Size) :
    (p.plain.alloc id size alignment).2.2 = (p.alloc id size alignment).2.2 ∧
      (p.plain.alloc id size alignment).2.1.plain = (p.alloc id size alignment).2.1.plain := by
  unfold SpmpPool.alloc
  have hblocks : p.plain.blocks = p.blocks.map SpmpBlock.plain := rfl
  have hplain : p.plain.plain = p.plain := SpmpPool.plain_plain
  dsimp only
  rw [hblocks, List.length_map, blockNextFree_plain]
  split
  · exact ⟨rfl, hplain⟩
  split
  · exact ⟨rfl, hplain⟩
  cases blockNextFree p.blocks (spmpNeeded size) alignment with
  | none => exact ⟨rfl, hplain⟩
  | some i =>
      dsimp only
      rw [getD_plain]
      set b := p.blocks.getD i .tombstone
      rw [show b.plain.aligned alignment = b.aligned alignment from rfl,
        show b.plain.endAddr = b.endAddr from rfl, show b.plain.addr = b.addr from rfl,
        addHole_plain]
      cases hlead : (if b.addr < b.aligned alignment then
        addHole p.blocks id b.addr (b.aligned alignment - b.addr) else some p.blocks) with
      | none => exact ⟨rfl, hplain⟩
      | some blocks =>
          rw [Option.map_some]
          dsimp only
          rw [addHole_plain]
          cases htrail : (if b.aligned alignment + spmpNeeded size < b.endAddr then
            addHole blocks id (b.aligned alignment + spmpNeeded size)
              (b.endAddr - (b.aligned alignment + spmpNeeded size)) else some blocks) with
          | none =>
              rw [Option.map_none]
              refine ⟨rfl, ?_⟩
              simp only [SpmpPool.plain, map_plain_plain]
          | some blocks' =>
              rw [Option.map_some]
              refine ⟨rfl, ?_⟩
              simp only [SpmpPool.plain, List.map_set, map_plain_plain]
              rfl

theorem mergeAt_plain : mergeAt i (T.map SpmpBlock.plain) j = (mergeAt i T j).map .plain := by
  unfold mergeAt
  simp only [getD_plain, apply_ite (List.map SpmpBlock.plain), List.map_set]
  rfl

theorem poolCoalesce_plain :
    poolCoalesce (T.map SpmpBlock.plain) = (poolCoalesce T).map .plain := by
  unfold poolCoalesce
  rw [List.length_map]
  refine List.foldl_hom (List.map SpmpBlock.plain) fun T i => ?_
  unfold coalesceRow
  rw [getD_plain, apply_ite (List.map SpmpBlock.plain)]
  refine if_congr Iff.rfl rfl ?_
  exact List.foldl_hom (List.map SpmpBlock.plain) fun T j => mergeAt_plain

theorem free_plain (p : SpmpPool) (addr size : Size) :
    (p.plain.free addr size).1 = (p.free addr size).1 ∧
      (p.plain.free addr size).2.plain = (p.free addr size).2.plain := by
  have hblocks : p.plain.blocks = p.blocks.map SpmpBlock.plain := rfl
  have hfind : (p.plain.blocks.findIdx? fun b => b.inUse && b.addr = addr && b.size = size) =
      p.blocks.findIdx? fun b => b.inUse && b.addr = addr && b.size = size := List.findIdx?_map
  unfold SpmpPool.free
  rw [hfind]
  cases p.blocks.findIdx? fun b => b.inUse && b.addr = addr && b.size = size with
  | none => exact ⟨rfl, SpmpPool.plain_plain⟩
  | some i =>
      refine ⟨rfl, ?_⟩
      dsimp only
      rw [hblocks, getD_plain]
      set b := p.blocks.getD i .tombstone
      have hset : (p.blocks.map SpmpBlock.plain).set i
          { b.plain with inUse := false, encrypted := false } =
            (p.blocks.set i { b with inUse := false, encrypted := false }).map SpmpBlock.plain := by
        rw [List.map_set]
        rfl
      rw [hset, poolCoalesce_plain]
      simp only [SpmpPool.plain, map_plain_plain]

theorem request_plain (request : PoolRequest) :
    (SpmpPool.request id (p.plain, got) request).map (fun c => (c.1.plain, c.2)) =
      (SpmpPool.request id (p, got) request).map fun c => (c.1.plain, c.2) := by
  cases request with
  | alloc size alignment =>
      obtain ⟨hgot, hpool⟩ := alloc_plain p id size alignment
      simp only [SpmpPool.request, hgot, Option.map_map, Function.comp_def, hpool]
      rfl
  | free n =>
      simp only [SpmpPool.request]
      cases got[n]? with
      | none => rfl
      | some a =>
          obtain ⟨hret, hpool⟩ := free_plain p a.addr a.size
          simp only [Option.bind_some, hret]
          split
          · simp only [Option.map_some, hpool]
          · rfl

/-- Two pools that differ in the flags serve the same requests. -/
theorem accepts_of_plain (hpq : p.plain = q.plain) :
    p.Accepts id got requests ↔ q.Accepts id got requests := by
  induction requests generalizing p q got with
  | nil => exact Iff.rfl
  | cons request requests ih =>
      have hstep : (SpmpPool.request id (p, got) request).map (fun c => (c.1.plain, c.2)) =
          (SpmpPool.request id (q, got) request).map fun c => (c.1.plain, c.2) := by
        rw [← request_plain, hpq, request_plain]
      unfold SpmpPool.Accepts
      rw [List.foldlM_cons, List.foldlM_cons]
      rcases hp : SpmpPool.request id (p, got) request with _ | ⟨p', got'⟩ <;>
        rcases hq : SpmpPool.request id (q, got) request with _ | ⟨q', got''⟩
      · exact Iff.rfl
      · rw [hp, hq] at hstep
        cases hstep
      · rw [hp, hq] at hstep
        cases hstep
      · rw [hp, hq] at hstep
        obtain ⟨hplain, hgot⟩ := Prod.mk.inj (Option.some.inj hstep)
        subst hgot
        exact ih hplain

end Plain

/-! ### Rounding -/

section Rounding

variable {b : SpmpBlock} {alignment : Size}

/-- The start of a block in the lower half of the addresses is not rounded past the last one. -/
theorem SpmpBlock.not_aligned_lt (h : b.lo < 2 ^ 63) : ¬ b.aligned alignment < b.addr := by
  rw [BitVec.lt_def, Nat.not_lt]
  unfold aligned
  dsimp only
  generalize halign : (if spmpBlockAlign < alignment then alignment else spmpBlockAlign) = align
  split
  · rename_i hne
    have halignlt := align.isLt
    have hrem : (b.addr % align).toNat = b.addr.toNat % align.toNat := BitVec.toNat_umod
    have hmod := Nat.mod_lt b.addr.toNat (alignment_pos halign.symm)
    have hne' : b.addr.toNat % align.toNat ≠ 0 := by
      rw [← hrem]
      exact fun h => hne (BitVec.eq_of_toNat_eq h)
    have hlo : b.addr.toNat < 2 ^ 63 := h
    rw [BitVec.toNat_add, BitVec.toNat_sub_of_le (by rw [BitVec.le_def, hrem]; omega), hrem]
    rcases Nat.lt_or_ge b.addr.toNat align.toNat with hlt | hge
    · rw [Nat.mod_eq_of_lt hlt] at hne' ⊢
      omega
    · omega
  · exact Nat.le_refl _

theorem SpmpBlock.aligned_sixteen (h : b.lo % 16 = 0) : b.aligned 16 = b.addr := by
  have halign : (if spmpBlockAlign < 16 then 16 else spmpBlockAlign) = 16 := by decide
  unfold aligned
  dsimp only
  rw [halign, if_neg]
  rw [not_not]
  refine BitVec.eq_of_toNat_eq ?_
  rw [BitVec.toNat_umod]
  exact h

theorem spmpNeeded_ofNat {n : Nat} (hlow : 64 ≤ n) (hdvd : n % 16 = 0) (hhigh : n + 15 < 2 ^ 64) :
    spmpNeeded (BitVec.ofNat 64 n) = BitVec.ofNat 64 n := by
  have hn : (BitVec.ofNat 64 n).toNat = n := by
    rw [BitVec.toNat_ofNat, Nat.mod_eq_of_lt (by omega)]
  have hround := spmpNeeded_round
    (show (BitVec.ofNat 64 n).toNat + 15 < 2 ^ 64 by rw [hn]; exact hhigh)
  refine BitVec.eq_of_toNat_eq ?_
  rw [hn] at hround ⊢
  omega

end Rounding

/-! ### Histories -/

/-- What any history of allocations and frees leaves of a pool. Where the table has one entry, and
where the pool is small, no start is rounded past the last address, and the pool is tiled unless an
allocation has taken the last slot and failed. -/
structure HistoryInv (id : Nat) (cfg : SpmpPoolConfig) (live : List LiveAlloc) (p : SpmpPool) :
    Prop where
  cfg_eq : p.cfg = cfg
  pos : 0 < p.blocks.length
  room : p.blocks.length ≤ spmpMaxBlocks
  own : p.blocks.length = 1 → ∀ b ∈ p.blocks, b.poolId = id
  wide : 2 ≤ p.blocks.length → spmpPoolEnd id cfg < 2 ^ 64 ∧ 64 < cfg.size.toNat
  sound : p.blocks.length = 1 ∨ cfg.size.toNat < 2 ^ 23 → p.blocks.length = spmpMaxBlocks ∨
    PoolInv (spmpPoolBase id).toNat cfg.size.toNat p ∧
      ∀ b ∈ p.blocks, b.inUse = true → b.size ≠ 0 →
        ∃ a ∈ live, a.alloc.handle = (id, b.addr, b.size)

section History

variable {B S : Nat} {p q : SpmpPool} {id i : Nat} {cfg : SpmpPoolConfig} {size alignment : Size}
  {live : List LiveAlloc} {b : SpmpBlock} {lead trail : List SpmpBlock}

theorem historyInv_fresh (id : Nat) (hsize : cfg.size ≠ 0) :
    HistoryInv id cfg [] (.fresh id cfg) where
  cfg_eq := rfl
  pos := Nat.one_pos
  room := (by decide : 1 ≤ spmpMaxBlocks)
  own _ b hb := by rw [List.mem_singleton.mp hb]
  wide h := absurd h (by decide : ¬ 2 ≤ 1)
  sound _ := by
    refine .inr ⟨poolInv_fresh id hsize, fun b hb huse => ?_⟩
    rw [List.mem_singleton.mp hb] at huse
    cases huse

/-- The only block of a table with one entry is the whole pool. -/
theorem PoolInv.single (hp : PoolInv B S p) (hS : 0 < S) (hone : p.blocks.length = 1) :
    ∃ b, p.blocks = [b] ∧ b.lo = B ∧ b.size.toNat = S := by
  obtain ⟨b, hb⟩ := List.length_eq_one_iff.mp hone
  have hsizes := hp.tiles.sizes
  rw [hb, total_cons, total_nil, Nat.add_zero] at hsizes
  have hne : b.size ≠ 0 := by
    intro h
    rw [h] at hsizes
    change 0 = S at hsizes
    omega
  have hrange := hp.tiles.in_range (b := b) (hb ▸ List.mem_cons_self) hne
  have hhi : b.hi = b.lo + b.size.toNat := rfl
  exact ⟨b, hb, by omega, hsizes⟩

/-- Where the pool is tiled, blocks are in the lower half of the addresses. -/
theorem HistoryInv.low (hid : id < spmpMaxPools)
    (hp : PoolInv (spmpPoolBase id).toNat cfg.size.toNat p)
    (hsize : cfg.size ≠ 0) (hone : p.blocks.length = 1 ∨ cfg.size.toNat < 2 ^ 23)
    (hb : b ∈ p.blocks) (hne : b.size ≠ 0) : b.lo < 2 ^ 63 := by
  have hid : id < 8 := hid
  have hbase := spmpPoolBase_toNat hid
  have hpos : 0 < cfg.size.toNat := Nat.pos_of_ne_zero fun h => hsize (BitVec.eq_of_toNat_eq h)
  rcases hone with hone | hsmall
  · obtain ⟨c, hc, hlo, -⟩ := hp.single hpos hone
    rw [hc] at hb
    rw [List.mem_singleton.mp hb]
    omega
  · have hrange := hp.tiles.in_range hb hne
    have hle := b.lo_le_hi
    omega

/-- Where the pool is tiled, an allocation does not leave the block it is cut from. -/
theorem HistoryInv.nowrap (hid : id < spmpMaxPools) (hsize : cfg.size ≠ 0)
    (h : HistoryInv id cfg live p) (hone : p.blocks.length = 1 ∨ cfg.size.toNat < 2 ^ 23)
    (hsite : AllocSite p id size alignment i b lead trail) :
    PoolInv (spmpPoolBase id).toNat cfg.size.toNat p ∧
      (∀ b ∈ p.blocks, b.inUse = true → b.size ≠ 0 →
        ∃ a ∈ live, a.alloc.handle = (id, b.addr, b.size)) ∧
      ¬ b.aligned alignment < b.addr := by
  have hroom := hsite.finds.room
  obtain ⟨hp, hhandles⟩ := (h.sound hone).resolve_left (by omega)
  refine ⟨hp, hhandles, SpmpBlock.not_aligned_lt ?_⟩
  have hfree := SpmpBlock.free_of_fits hsite.fits
  rw [hsite.block] at hfree ⊢
  exact HistoryInv.low hid hp hsize hone (entry_mem hsite.lt) (hp.tiles.free_pos hfree).1

theorem length_leadHole (id : Nat) (b : SpmpBlock) (addr : Size) :
    (leadHole id b addr).length ≤ 1 := by
  unfold leadHole
  split <;> simp

/-- **An allocation keeps the invariant.** -/
theorem HistoryInv.alloc (hid : id < spmpMaxPools) (hsize : cfg.size ≠ 0)
    (h : HistoryInv id cfg live p) :
    HistoryInv id cfg
      (live ++ (((p.alloc id size alignment).2.2.map fun got =>
        (⟨⟨got.1, got.2, id, p.cfg.encrypt⟩, size, alignment⟩ : LiveAlloc)).toList))
      (p.alloc id size alignment).2.1 := by
  rcases alloc_cases p id size alignment with
    ⟨-, ret, -, heq⟩ | ⟨i, b, lead, trail, hsite, ⟨hslots, heq⟩ | ⟨hlast, hlead, htrail, heq⟩⟩
  · rw [heq]
    simpa using h
  · rw [heq]
    have hinv := fun hp hnowrap => PoolInv.allocated (p := p) (B := (spmpPoolBase id).toNat)
      (S := cfg.size.toNat) hp hsite hnowrap hslots
    set T' := (p.blocks ++ lead ++ trail).set i
      (b.allocated (b.aligned alignment) (spmpNeeded size)) with hT'
    have hlen : T'.length = p.blocks.length + lead.length + trail.length := by
      rw [hT']
      simp only [List.length_set, List.length_append]
    have hpos := h.pos
    refine ⟨h.cfg_eq, ?_, ?_, fun hone c hc => ?_, fun htwo => ?_, fun hone => ?_⟩
    · change 0 < T'.length
      omega
    · change T'.length ≤ spmpMaxBlocks
      omega
    · change T'.length = 1 at hone
      have hnil : lead = [] ∧ trail = [] :=
        ⟨List.eq_nil_of_length_eq_zero (by omega), List.eq_nil_of_length_eq_zero (by omega)⟩
      have hown := h.own (by omega)
      rcases List.mem_or_eq_of_mem_set hc with hc | rfl
      · rw [hnil.1, hnil.2, List.append_nil, List.append_nil] at hc
        exact hown c hc
      · exact hown b (hsite.block ▸ entry_mem hsite.lt)
    · change 2 ≤ T'.length at htwo
      rcases Nat.lt_or_ge p.blocks.length 2 with hsingle | hwide
      · obtain ⟨hp, -, hnowrap⟩ := h.nowrap hid hsize (.inl (by omega)) hsite
        obtain ⟨hS, hend, hlow, hhigh⟩ := hsite.inside hp hnowrap
        have hneeded := spmpNeeded_ge size
        refine ⟨hS, ?_⟩
        have hfree := SpmpBlock.free_of_fits hsite.fits
        have hrange : (spmpPoolBase id).toNat ≤ b.lo ∧
            b.hi ≤ (spmpPoolBase id).toNat + cfg.size.toNat := by
          rw [hsite.block] at hfree ⊢
          exact hp.tiles.free_range hfree
        rcases Nat.eq_zero_or_pos lead.length with hzero | hsome
        · obtain ⟨c, hc⟩ := List.exists_mem_of_length_pos (l := trail) (by omega)
          rw [hsite.trail_eq] at hc
          have hlt := BitVec.lt_def.mp (mem_trailHole hc).1
          rw [hend, BitVec.toNat_add, Nat.mod_eq_of_lt (by omega)] at hlt
          omega
        · obtain ⟨c, hc⟩ := List.exists_mem_of_length_pos hsome
          rw [hsite.lead_eq] at hc
          have hlt : b.lo < (b.aligned alignment).toNat := BitVec.lt_def.mp (mem_leadHole hc).1
          omega
      · exact h.wide hwide
    · change T'.length = 1 ∨ _ at hone
      have hone' : p.blocks.length = 1 ∨ cfg.size.toNat < 2 ^ 23 := by omega
      obtain ⟨hp, hhandles, hnowrap⟩ := h.nowrap hid hsize hone' hsite
      refine .inr ⟨hinv hp hnowrap, fun c hc huse hne => ?_⟩
      rcases List.mem_or_eq_of_mem_set hc with hc | rfl
      · simp only [List.mem_append] at hc
        rcases hc with (hc | hc) | hc
        · obtain ⟨a, ha, hhandle⟩ := hhandles c hc huse hne
          exact ⟨a, List.mem_append_left _ ha, hhandle⟩
        · rw [hsite.lead_eq] at hc
          rw [(mem_leadHole hc).2.1] at huse
          cases huse
        · rw [hsite.trail_eq] at hc
          rw [(mem_trailHole hc).2.1] at huse
          cases huse
      · exact ⟨_, List.mem_append_right _ List.mem_cons_self, rfl⟩
  · rw [heq]
    have hlen : (p.blocks ++ lead).length = spmpMaxBlocks := by
      have hle := hsite.lead_eq ▸ length_leadHole id b (b.aligned alignment)
      have hpos := List.length_pos_of_ne_nil hlead
      rw [List.length_append]
      omega
    have hmax : spmpMaxBlocks = 512 := rfl
    refine ⟨h.cfg_eq, ?_, hlen.le, fun hone => ?_, fun _ => h.wide (by omega), fun _ => .inl hlen⟩
    · change 0 < (p.blocks ++ lead).length
      omega
    · change (p.blocks ++ lead).length = 1 at hone
      omega

/-- An allocation from the whole pool leaves one entry exactly if it takes all of it. -/
theorem HistoryInv.alloc_single_iff (hid : id < spmpMaxPools) (hsize : cfg.size ≠ 0)
    (h : HistoryInv id cfg live p) (hone : p.blocks.length = 1) :
    (p.alloc id size alignment).2.1.blocks.length = 1 ↔
      ∀ got, (p.alloc id size alignment).2.2 = some got → got.2 = cfg.size := by
  rcases alloc_cases p id size alignment with
    ⟨-, ret, -, heq⟩ | ⟨i, b, lead, trail, hsite, ⟨-, heq⟩ | ⟨hlast, -, -, -⟩⟩
  · rw [heq]
    exact iff_of_true hone fun got hgot => by cases hgot
  · rw [heq]
    simp only [Option.some.injEq, forall_eq', List.length_set, List.length_append, hone]
    obtain ⟨hp, -, hnowrap⟩ := h.nowrap hid hsize (.inl hone) hsite
    have hpos : 0 < cfg.size.toNat := Nat.pos_of_ne_zero fun h => hsize (BitVec.eq_of_toNat_eq h)
    obtain ⟨c, hc, hlo, hwhole⟩ := hp.single hpos hone
    have hmem : b ∈ p.blocks := hsite.block ▸ entry_mem hsite.lt
    rw [hc] at hmem
    obtain rfl := List.mem_singleton.mp hmem
    obtain ⟨-, hend, hlow, hhigh⟩ := hsite.inside hp hnowrap
    have hsum := hsite.addr_add_toNat hp hnowrap
    have hhi : b.hi = b.lo + b.size.toNat := rfl
    have hlead : lead.length = if b.lo < (b.aligned alignment).toNat then 1 else 0 := by
      rw [hsite.lead_eq, leadHole]
      by_cases hlt : b.addr < b.aligned alignment
      · rw [if_pos hlt, if_pos (show b.lo < (b.aligned alignment).toNat from hlt)]
        rfl
      · rw [if_neg hlt, if_neg (show ¬ b.lo < (b.aligned alignment).toNat from hlt)]
        rfl
    have htrail : trail.length =
        if (b.aligned alignment + spmpNeeded size).toNat < b.endAddr.toNat then 1 else 0 := by
      rw [hsite.trail_eq, trailHole]
      by_cases hlt : b.aligned alignment + spmpNeeded size < b.endAddr
      · rw [if_pos hlt, if_pos (BitVec.lt_def.mp hlt)]
        rfl
      · rw [if_neg hlt, if_neg (mt BitVec.lt_def.mpr hlt)]
        rfl
    rw [hlead, htrail, ← BitVec.toNat_inj]
    split_ifs <;> omega
  · have hmax : spmpMaxBlocks = 512 := rfl
    omega

theorem poolCoalesce_singleton : poolCoalesce [b] = [b] := by
  simp [poolCoalesce, coalesceRow, mergeAt]

/-- **A free keeps the invariant.** -/
theorem HistoryInv.free (hid : id < spmpMaxPools) (h : HistoryInv id cfg live p)
    {a : SpmpAllocation} (ha : a.poolId = id) (hi : i < p.blocks.length)
    (huse : (entry p.blocks i).inUse = true) (hne : a.addr ≠ 0)
    (haddr : (entry p.blocks i).addr = a.addr) (hsize : (entry p.blocks i).size = a.size) :
    HistoryInv id cfg (live.filter fun b => b.alloc.handle ≠ a.handle) { p with
      blocks := poolCoalesce (p.blocks.set i (entry p.blocks i).freed)
      used := p.used - (entry p.blocks i).size } := by
  have hlen : (poolCoalesce (p.blocks.set i (entry p.blocks i).freed)).length =
      p.blocks.length := by
    rw [length_poolCoalesce, List.length_set]
  refine ⟨h.cfg_eq, hlen ▸ h.pos, hlen ▸ h.room, fun hone c hc => ?_, fun htwo =>
    h.wide (hlen ▸ htwo), fun hone => ?_⟩
  · obtain ⟨b, hb⟩ := List.length_eq_one_iff.mp (hlen ▸ hone)
    have hown := h.own (hlen ▸ hone) b (hb ▸ List.mem_cons_self)
    rw [hb] at hi hc
    obtain rfl : i = 0 := Nat.lt_one_iff.mp hi
    rw [show ([b].set 0 (entry [b] 0).freed) = [b.freed] from rfl, poolCoalesce_singleton] at hc
    rw [List.mem_singleton.mp hc]
    exact hown
  · rw [hlen] at hone ⊢
    rcases h.sound hone with hfull | ⟨hp, hhandles⟩
    · exact .inl hfull
    have hbase : 0 < (spmpPoolBase id).toNat := by
      have hbase := spmpPoolBase_toNat hid
      omega
    obtain ⟨hinv, hcoal⟩ := hp.freed hbase hi huse (haddr ▸ hne)
    refine .inr ⟨hinv, fun c hc hcuse hcne => ?_⟩
    obtain ⟨k, hk, rfl⟩ := List.getElem_of_mem hc
    rw [← entry_of_lt hk] at hcuse hcne ⊢
    rcases hcoal.back k hcuse with hdead | hsame
    · rw [hdead] at hcne
      exact absurd rfl hcne
    rw [hsame, entry_set] at hcuse hcne ⊢
    by_cases hki : k = i
    · rw [if_pos ⟨hki, hi⟩] at hcuse
      cases hcuse
    rw [if_neg fun h => hki h.1] at hcuse hcne ⊢
    have hk' : k < p.blocks.length := hlen ▸ hk
    obtain ⟨d, hd, hhandle⟩ := hhandles _ (entry_mem hk') hcuse hcne
    refine ⟨d, List.mem_filter.mpr ⟨hd, decide_eq_true ?_⟩, hhandle⟩
    rw [hhandle, SpmpAllocation.handle, ha, ← haddr, ← hsize]
    intro heq
    obtain ⟨haddr', hsize'⟩ := Prod.mk.inj (Prod.mk.inj heq).2
    have hapart := hp.tiles.apart hk' hi hki
    rw [← entry_of_lt hk', ← entry_of_lt hi] at hapart
    have hpos : 0 < (entry p.blocks k).size.toNat :=
      Nat.pos_of_ne_zero fun h => hcne (BitVec.eq_of_toNat_eq h)
    simp only [SpmpBlock.hi, SpmpBlock.lo, haddr', hsize'] at hapart hpos
    omega

end History

/-! ### Running out of slots

In a large pool, allocations of sizes that fit no hole exactly take a slot each. In a small one,
which is tiled by one free block once everything has been freed, an allocation and its return take
one.
-/

section Slots

variable {B S : Nat} {p q : SpmpPool} {id i : Nat} {size alignment : Size} {b : SpmpBlock}
  {lead trail : List SpmpBlock} {got : List SpmpAllocation} {request : PoolRequest}
  {requests : List PoolRequest}

theorem accepts_cons : p.Accepts id got (request :: requests) ↔
    ∃ p' got', SpmpPool.request id (p, got) request = some (p', got') ∧
      p'.Accepts id got' requests := by
  unfold SpmpPool.Accepts
  rw [List.foldlM_cons]
  rcases SpmpPool.request id (p, got) request with _ | ⟨p', got'⟩
  · exact ⟨fun h => absurd h (by simp), fun ⟨_, _, h, _⟩ => by cases h⟩
  · refine ⟨fun h => ⟨p', got', rfl, h⟩, fun ⟨_, _, heq, h⟩ => ?_⟩
    cases heq
    exact h

/-- Nothing can be allocated from a pool without slots. -/
theorem not_accepts_full (hfull : p.blocks.length = spmpMaxBlocks) :
    ¬ p.Accepts id got (.alloc size alignment :: requests) := by
  rw [accepts_cons]
  rintro ⟨p', got', heq, -⟩
  rcases alloc_cases p id size alignment with ⟨-, ret, -, halloc⟩ | ⟨i, b, lead, trail, hsite, -⟩
  · simp [SpmpPool.request, halloc] at heq
  · exact absurd hsite.finds.room (by omega)

/-- An allocation that does not fill the rest of its block leaves a hole behind it. -/
theorem AllocSite.trail_ne (hsite : AllocSite p id size alignment i b lead trail)
    (havoid : b.endAddr - b.aligned alignment ≠ spmpNeeded size) : trail ≠ [] := by
  have hfits := hsite.fits
  unfold SpmpBlock.fits at hfits
  rw [if_neg (by rw [SpmpBlock.free_of_fits hsite.fits]; decide)] at hfits
  split at hfits
  · cases hfits
  rename_i hend
  split at hfits
  · cases hfits
  rename_i hneeded
  have hend : (b.aligned alignment).toNat ≤ b.endAddr.toNat := Nat.not_lt.mp hend
  have hneeded : (spmpNeeded size).toNat ≤ (b.endAddr - b.aligned alignment).toNat :=
    Nat.not_lt.mp hneeded
  have hne : (b.endAddr - b.aligned alignment).toNat ≠ (spmpNeeded size).toNat :=
    fun h => havoid (BitVec.eq_of_toNat_eq h)
  rw [BitVec.toNat_sub_of_le hend] at hneeded hne
  have hlt : b.aligned alignment + spmpNeeded size < b.endAddr := by
    have hmax := b.endAddr.isLt
    rw [BitVec.lt_def, BitVec.toNat_add, Nat.mod_eq_of_lt (by omega)]
    omega
  rw [hsite.trail_eq, trailHole, if_pos hlt]
  exact List.cons_ne_nil _ _

/-- A request for `n` bytes, without a special alignment. -/
def allocSmall (n : Nat) : PoolRequest := .alloc (BitVec.ofNat 64 n) 16

/-- The sizes to choose from: one more than a table has blocks. -/
def SmallSize (n : Nat) : Prop := 64 ≤ n ∧ n ≤ 8256 ∧ n % 16 = 0

theorem SmallSize.needed {n : Nat} (h : SmallSize n) :
    spmpNeeded (BitVec.ofNat 64 n) = BitVec.ofNat 64 n :=
  spmpNeeded_ofNat h.1 h.2.2 (by have := h.2.1; omega)

theorem exists_size_avoiding {T : List Size} (hlen : T.length ≤ spmpMaxBlocks) :
    ∃ z, SmallSize z ∧ BitVec.ofNat 64 z ∉ T := by
  have hmax : spmpMaxBlocks = 512 := rfl
  set sizes := (Finset.range 513).image fun k => BitVec.ofNat 64 (64 + 16 * k) with hsizes
  have hcard : sizes.card = 513 := by
    rw [hsizes, Finset.card_image_of_injOn, Finset.card_range]
    intro k hk k' hk' heq
    have hk : k < 513 := Finset.mem_range.mp hk
    have hk' : k' < 513 := Finset.mem_range.mp hk'
    have heq := congrArg BitVec.toNat heq
    simp only [BitVec.toNat_ofNat] at heq
    omega
  have hlt : T.toFinset.card < sizes.card := by
    have hle := T.toFinset_card_le
    omega
  obtain ⟨x, hx, hnot⟩ := Finset.exists_mem_notMem_of_card_lt_card hlt
  obtain ⟨k, hk, rfl⟩ := Finset.mem_image.mp hx
  have hk : k < 513 := Finset.mem_range.mp hk
  exact ⟨64 + 16 * k, ⟨by omega, by omega, by omega⟩, fun h => hnot (List.mem_toFinset.mpr h)⟩

/-- **There are requests that a pool with a used slot does not serve.** -/
theorem exists_rejected {n : Nat} (id : Nat) (got : List SpmpAllocation)
    (hroom : p.blocks.length ≤ spmpMaxBlocks)
    (hover : spmpMaxBlocks < p.blocks.length + n) :
    ∃ sizes : List Nat, sizes.length = n ∧ (∀ z ∈ sizes, SmallSize z) ∧
      ¬ p.Accepts id got (sizes.map allocSmall) := by
  induction n generalizing p got with
  | zero => omega
  | succ n ih =>
      have hreplicate : ∀ z, SmallSize z → ∀ z' ∈ z :: List.replicate n 64, SmallSize z' := by
        intro z hz z' hz'
        rcases List.mem_cons.mp hz' with rfl | hrest
        · exact hz
        · rw [List.eq_of_mem_replicate hrest]
          exact ⟨by omega, by omega, by omega⟩
      rcases Nat.lt_or_ge p.blocks.length spmpMaxBlocks with hlt | hge
      · obtain ⟨z, hz, havoid⟩ := exists_size_avoiding
          (T := p.blocks.map fun b => b.endAddr - b.aligned 16)
            (by rw [List.length_map]; exact hroom)
        have hreject : (p.alloc id (BitVec.ofNat 64 z) 16).2.2 = none →
            ¬ p.Accepts id got ((z :: List.replicate n 64).map allocSmall) := by
          intro hnone
          rw [List.map_cons, accepts_cons]
          rintro ⟨p', got', heq, -⟩
          simp only [allocSmall, SpmpPool.request, hnone, Option.map_none] at heq
          cases heq
        rcases alloc_cases p id (BitVec.ofNat 64 z) 16 with
          ⟨-, ret, -, heq⟩ | ⟨i, b, lead, trail, hsite, ⟨hslots, heq⟩ | ⟨-, -, -, heq⟩⟩
        · exact ⟨z :: List.replicate n 64, by simp, hreplicate z hz, hreject (by rw [heq])⟩
        · have htrail : trail ≠ [] := by
            refine hsite.trail_ne fun hfit => havoid ?_
            rw [hz.needed] at hfit
            rw [← hfit, hsite.block]
            exact List.mem_map_of_mem (entry_mem hsite.lt)
          have hpos := List.length_pos_of_ne_nil htrail
          obtain ⟨sizes, hlen, hsmall, hrest⟩ := ih
            (p := (p.alloc id (BitVec.ofNat 64 z) 16).2.1)
            (got ++ [⟨b.aligned 16, spmpNeeded (BitVec.ofNat 64 z), id, p.cfg.encrypt⟩])
            (by rw [heq]; simpa only [List.length_set, List.length_append] using hslots)
            (by rw [heq]; simp only [List.length_set, List.length_append]; omega)
          refine ⟨z :: sizes, by simp [hlen], fun z' hz' => ?_, ?_⟩
          · rcases List.mem_cons.mp hz' with rfl | hmem
            · exact hz
            · exact hsmall z' hmem
          · rw [List.map_cons, accepts_cons]
            rintro ⟨p', got', hstep, haccepts⟩
            simp only [allocSmall, SpmpPool.request, heq, Option.map_some, Option.some.injEq,
              Prod.mk.injEq] at hstep
            obtain ⟨rfl, rfl⟩ := hstep
            rw [heq] at hrest
            exact hrest haccepts
        · exact ⟨z :: List.replicate n 64, by simp, hreplicate z hz, hreject (by rw [heq])⟩
      · refine ⟨64 :: List.replicate n 64, by simp, hreplicate 64 ⟨by omega, by omega, by omega⟩,
          ?_⟩
        exact not_accepts_full (Nat.le_antisymm hroom hge)

/-- The last block is the first that fits, when the ones before it are in use. -/
theorem finds_last {U : List SpmpBlock} (hU : ∀ b ∈ U, b.inUse = true)
    (hblocks : p.blocks = U ++ [b]) (hroom : p.blocks.length < spmpMaxBlocks) (hsize : size ≠ 0)
    (hfits : b.fits (spmpNeeded size) alignment = true) : p.Finds size alignment U.length := by
  refine ⟨hsize, hroom, ?_⟩
  have hnone : U.findIdx? (fun b => b.fits (spmpNeeded size) alignment) = none := by
    rw [List.findIdx?_eq_none_iff]
    intro c hc
    unfold SpmpBlock.fits
    rw [if_pos (hU c hc)]
  rw [blockNextFree, hblocks, List.findIdx?_append, hnone, List.findIdx?_singleton, hfits]
  simp

theorem AllocSite.eq_last {U : List SpmpBlock} {b' : SpmpBlock}
    (hsite : AllocSite p id size alignment i b' lead trail)
    (hfinds : p.Finds size alignment U.length) (hblocks : p.blocks = U ++ [b]) :
    U.length = i ∧ b = b' := by
  have hi : U.length = i := Option.some.inj (hfinds.found.symm.trans hsite.finds.found)
  refine ⟨hi, ?_⟩
  rw [hsite.block, ← hi, entry, hblocks]
  simp

/-- **An allocation from the end of the pool**: the blocks before the last one are in use, and it is
taken from the start of that one. -/
theorem alloc_last (id : Nat) {z : Nat} (hz : SmallSize z) {U : List SpmpBlock}
    (hU : ∀ b ∈ U, b.inUse = true) (hblocks : p.blocks = U ++ [b]) (hfree : b.inUse = false)
    (halign : b.lo % 16 = 0) (hend : b.hi < 2 ^ 64) (hroom : p.blocks.length < spmpMaxBlocks)
    (hlt : z < b.size.toNat) :
    ∃ p' addr c t, p.alloc id (BitVec.ofNat 64 z) 16 = (0, p', some (addr, BitVec.ofNat 64 z)) ∧
      p'.blocks = U ++ [c] ++ [t] ∧ c.inUse = true ∧ t.inUse = false ∧ t.lo = b.lo + z ∧
      t.hi = b.hi := by
  have hzval : (BitVec.ofNat 64 z).toNat = z := by
    have hz := hz.2.1
    rw [BitVec.toNat_ofNat, Nat.mod_eq_of_lt (by omega)]
  have haligned := SpmpBlock.aligned_sixteen halign
  have hendAddr := SpmpBlock.endAddr_toNat hend
  have hhi : b.hi = b.lo + b.size.toNat := rfl
  have hlo : b.lo = b.addr.toNat := rfl
  have hfits : b.fits (spmpNeeded (BitVec.ofNat 64 z)) 16 = true := by
    have hle : b.addr.toNat ≤ b.endAddr.toNat := by omega
    unfold SpmpBlock.fits
    rw [hz.needed, haligned, if_neg (by rw [hfree]; decide),
      if_neg (by rw [BitVec.lt_def]; omega),
      if_neg (by rw [BitVec.lt_def, BitVec.toNat_sub_of_le hle]; omega)]
  have hne : BitVec.ofNat 64 z ≠ 0 := by
    intro h
    rw [h] at hzval
    change 0 = z at hzval
    have hz := hz.1
    omega
  have hfinds := finds_last hU hblocks hroom hne hfits
  rcases alloc_cases p id (BitVec.ofNat 64 z) 16 with
    ⟨hnone, -⟩ | ⟨i, b', lead, trail, hsite, ⟨hslots, heq⟩ | ⟨-, hlead, -⟩⟩
  · exact absurd hfinds (hnone _)
  · obtain ⟨rfl, rfl⟩ := hsite.eq_last hfinds hblocks
    have hlt : b.aligned 16 + spmpNeeded (BitVec.ofNat 64 z) < b.endAddr := by
      rw [haligned, hz.needed, BitVec.lt_def, BitVec.toNat_add, Nat.mod_eq_of_lt (by omega)]
      omega
    have hlead : lead = [] := by
      rw [hsite.lead_eq, haligned, leadHole, if_neg (by rw [BitVec.lt_def]; omega)]
    obtain ⟨t, ht⟩ : ∃ t, trail = [t] := by
      rw [hsite.trail_eq, trailHole, if_pos hlt]
      exact ⟨_, rfl⟩
    obtain ⟨-, htfree, htlo, hthi, -⟩ :=
      mem_trailHole (c := t) (hsite.trail_eq ▸ ht ▸ List.mem_cons_self)
    rw [haligned, hz.needed, BitVec.toNat_add, Nat.mod_eq_of_lt (by omega)] at htlo
    rw [hz.needed] at heq
    refine ⟨_, _, b.allocated (b.aligned 16) (BitVec.ofNat 64 z), t, heq, ?_, rfl, htfree, by omega,
      by omega⟩
    rw [hblocks, hlead, ht, List.append_nil, List.append_assoc, List.set_append_right _ _ le_rfl]
    simp
  · obtain ⟨rfl, rfl⟩ := hsite.eq_last hfinds hblocks
    refine absurd ?_ hlead
    rw [hsite.lead_eq, haligned, leadHole, if_neg (by rw [BitVec.lt_def]; omega)]

/-- **Allocations in a row**, from a pool whose last block is large enough for all of them. -/
theorem accepts_row {sizes : List Nat} (hsmall : ∀ z ∈ sizes, SmallSize z) {U : List SpmpBlock}
    (hU : ∀ b ∈ U, b.inUse = true) (hblocks : p.blocks = U ++ [b]) (hfree : b.inUse = false)
    (halign : b.lo % 16 = 0) (hend : b.hi < 2 ^ 64)
    (hroom : p.blocks.length + sizes.length ≤ spmpMaxBlocks) (hsum : sizes.sum < b.size.toNat) :
    p.Accepts id got (sizes.map allocSmall) := by
  induction sizes generalizing p got U b with
  | nil => exact Option.isSome_some
  | cons z sizes ih =>
      have hz := hsmall z List.mem_cons_self
      rw [List.sum_cons] at hsum
      rw [List.length_cons] at hroom
      obtain ⟨p', addr, c, t, heq, hblocks', hcuse, htfree, htlo, hthi⟩ :=
        alloc_last id hz hU hblocks hfree halign hend (by omega) (by omega)
      have hhi : b.hi = b.lo + b.size.toNat := rfl
      have htsize : t.hi = t.lo + t.size.toNat := rfl
      refine accepts_cons.mpr ⟨_, _, by simp only [allocSmall, SpmpPool.request, heq]; rfl, ?_⟩
      refine ih (fun z' hz' => hsmall z' (List.mem_cons_of_mem z hz')) (U := U ++ [c]) ?_ hblocks'
        htfree ?_ ?_ ?_ ?_
      · intro d hd
        rcases List.mem_append.mp hd with hold | hnew
        · exact hU d hold
        · rw [List.mem_singleton.mp hnew]
          exact hcuse
      · have hz := hz.2.2
        omega
      · omega
      · rw [hblocks', List.length_append, List.length_append]
        rw [hblocks, List.length_append] at hroom
        simp only [List.length_singleton] at hroom ⊢
        omega
      · omega

/-- A tiled pool with nothing allocated. -/
structure Idle (B S : Nat) (p : SpmpPool) : Prop where
  inv : PoolInv B S p
  used : p.used = 0

/-- One free block covers the pool. -/
theorem Idle.whole (hp : Idle B S p) (hS : 0 < S) :
    ∃ i < p.blocks.length, (entry p.blocks i).inUse = false ∧ (entry p.blocks i).lo = B ∧
      (entry p.blocks i).hi = B + S ∧ ∀ j, (entry p.blocks j).inUse = false → j = i := by
  have htiles := hp.inv.tiles
  have hlive : ∀ b ∈ p.blocks, b.inUse = true → b.hi = b.lo := by
    intro b hb huse
    have hle : b.liveSize ≤ total SpmpBlock.liveSize p.blocks := le_total hb
    rw [← hp.inv.used, hp.used, SpmpBlock.liveSize, if_pos huse] at hle
    have hzero : (0 : Size).toNat = 0 := rfl
    have hhi : b.hi = b.lo + b.size.toNat := rfl
    omega
  have hat : ∀ x, B ≤ x ∧ x < B + S → ∃ i < p.blocks.length, (entry p.blocks i).inUse = false ∧
      (entry p.blocks i).lo ≤ x ∧ x < (entry p.blocks i).hi := by
    intro x hx
    have hcover := htiles.cover x
    rw [if_pos hx] at hcover
    by_contra hnone
    push Not at hnone
    rw [total_eq_zero fun b hb => ?_] at hcover
    · omega
    · obtain ⟨i, hi, rfl⟩ := List.getElem_of_mem hb
      rw [← entry_of_lt hi]
      apply if_neg
      rintro ⟨hlow, hhigh⟩
      cases huse : (entry p.blocks i).inUse with
      | false =>
          have hle := hnone i hi huse hlow
          omega
      | true =>
          have hempty := hlive _ (entry_mem hi) huse
          omega
  obtain ⟨i, hi, hfree, hlow, hhigh⟩ := hat B ⟨Nat.le_refl _, by omega⟩
  have hrange := htiles.free_range hfree
  have hend : (entry p.blocks i).hi = B + S := by
    by_contra hne
    obtain ⟨j, hj, hjfree, hjlow, hjhigh⟩ := hat (entry p.blocks i).hi ⟨by omega, by omega⟩
    have hji : j ≠ i := by
      rintro rfl
      omega
    have hapart := htiles.free_apart hjfree hfree hji
    exact hp.inv.apart _ (entry_mem hi) _ (entry_mem hj) hfree hjfree (by omega)
  refine ⟨i, hi, hfree, by omega, hend, fun j hjfree => ?_⟩
  by_contra hji
  have hapart := htiles.free_apart hjfree hfree hji
  have hjrange := htiles.free_range hjfree
  have hjpos := (htiles.free_pos hjfree).2
  omega

/-- What an idle pool does with a small request. -/
theorem Idle.alloc (hp : Idle B S p) (id : Nat) (hB : B % 16 = 0) (hS : 64 < S)
    (hend : B + S < 2 ^ 64) (hroom : p.blocks.length < spmpMaxBlocks) :
    ∃ p' addr, p.alloc id 64 16 = (0, p', some (addr, 64)) ∧ PoolInv B S p' ∧ p'.used = 64 ∧
      p'.blocks.length = p.blocks.length + 1 ∧
      ∃ b ∈ p'.blocks, b.inUse = true ∧ b.addr = addr ∧ b.size = 64 ∧ addr.toNat = B := by
  obtain ⟨i, hi, hfree, hlo, hhi, honly⟩ := hp.whole (by omega)
  have hneeded : spmpNeeded 64 = 64 := by decide
  have haligned : (entry p.blocks i).aligned 16 = (entry p.blocks i).addr :=
    SpmpBlock.aligned_sixteen (by omega)
  have hendAddr := SpmpBlock.endAddr_toNat (b := entry p.blocks i) (by omega)
  have haddr : (entry p.blocks i).addr.toNat = B := hlo
  have hsixtyfour : (64 : Size).toNat = 64 := rfl
  have hfits : (entry p.blocks i).fits (spmpNeeded 64) 16 = true := by
    have hle : (entry p.blocks i).addr.toNat ≤ (entry p.blocks i).endAddr.toNat := by omega
    unfold SpmpBlock.fits
    rw [hneeded, haligned, if_neg (by rw [hfree]; decide), if_neg (by rw [BitVec.lt_def]; omega),
      if_neg (by rw [BitVec.lt_def, BitVec.toNat_sub_of_le hle]; omega)]
  have hfound : ∃ j, p.Finds 64 16 j := by
    cases hfind : blockNextFree p.blocks (spmpNeeded 64) 16 with
    | none =>
        have hnone := List.findIdx?_eq_none_iff.mp hfind _ (entry_mem hi)
        rw [hfits] at hnone
        cases hnone
    | some j => exact ⟨j, by decide, hroom, hfind⟩
  obtain ⟨j, hfinds⟩ := hfound
  have hwhole : ∀ {k b lead trail}, AllocSite p id 64 16 k b lead trail →
      b = entry p.blocks i ∧ lead = [] ∧ trail.length = 1 := by
    intro k b lead trail hsite
    have hbfree := SpmpBlock.free_of_fits hsite.fits
    have hb : b = entry p.blocks i := by
      rw [hsite.block] at hbfree ⊢
      rw [honly k hbfree]
    have hlt : (entry p.blocks i).addr + 64 < (entry p.blocks i).endAddr := by
      rw [BitVec.lt_def, BitVec.toNat_add, Nat.mod_eq_of_lt (by omega)]
      omega
    refine ⟨hb, ?_, ?_⟩
    · rw [hsite.lead_eq, hb, haligned, leadHole, if_neg (by rw [BitVec.lt_def]; omega)]
    · rw [hsite.trail_eq, hb, haligned, hneeded, trailHole, if_pos hlt, List.length_singleton]
  rcases alloc_cases p id 64 16 with
    ⟨hnone, -⟩ | ⟨k, b, lead, trail, hsite, ⟨hslots, heq⟩ | ⟨-, hlead, -⟩⟩
  · exact absurd hfinds (hnone j)
  · obtain ⟨rfl, hlead, htrail⟩ := hwhole hsite
    have hnowrap : ¬ (entry p.blocks i).aligned 16 < (entry p.blocks i).addr := by
      rw [haligned, BitVec.lt_def]
      omega
    have hinv := hp.inv.allocated hsite hnowrap hslots
    refine ⟨_, _, heq, hinv, ?_, ?_, _, List.mem_set ?_ _, rfl, rfl, rfl, ?_⟩
    · change p.used + 64 = 64
      rw [hp.used]
      rfl
    · simp only [List.length_set, List.length_append, hlead, List.length_nil, htrail]
    · have hlt := hsite.lt
      simp only [List.length_append]
      omega
    · rw [haligned, haddr]
  · exact absurd (hwhole hsite).2.1 hlead

/-- And with the return of it. -/
theorem PoolInv.free_only (hp : PoolInv B S p) (hB : 0 < B) (hused : p.used = 64)
    (hb : b ∈ p.blocks) (huse : b.inUse = true) (haddr : b.addr ≠ 0) (hsize : b.size = 64) :
    (p.free b.addr 64).1 = 0 ∧ Idle B S (p.free b.addr 64).2 := by
  rcases free_cases p b.addr 64 with ⟨-, hnone⟩ | ⟨i, hi, hiuse, hiaddr, hisize, heq⟩
  · exact absurd ⟨huse, rfl, hsize⟩ (hnone b hb)
  · obtain ⟨hinv, -⟩ := hp.freed hB hi hiuse (hiaddr ▸ haddr)
    rw [heq]
    rw [hisize] at hinv
    refine ⟨rfl, hinv, ?_⟩
    change p.used - 64 = 0
    rw [hused]
    rfl

/-- Allocations of 64 bytes, each returned before the next. -/
def churn (k n : Nat) : List PoolRequest :=
  (List.range' k n).flatMap fun j => [.alloc 64 16, .free j]

/-- **Every allocation that is returned costs a slot.** -/
theorem Idle.churn {n : Nat} (hp : Idle B S p) (id : Nat) (got : List SpmpAllocation) (hpos : 0 < B)
    (hB : B % 16 = 0) (hS : 64 < S)
    (hend : B + S < 2 ^ 64) (hroom : p.blocks.length + n ≤ spmpMaxBlocks) :
    ∃ p' got', (churn got.length n).foldlM (SpmpPool.request id) (p, got) = some (p', got') ∧
      Idle B S p' ∧ p'.blocks.length = p.blocks.length + n := by
  induction n generalizing p got with
  | zero => exact ⟨p, got, rfl, hp, rfl⟩
  | succ n ih =>
      obtain ⟨p₁, addr, halloc, hinv, hused, hlen, b, hb, huse, rfl, hsize, haddr⟩ :=
        hp.alloc id hB hS hend (by omega)
      have hne : b.addr ≠ 0 := by
        intro h
        rw [h] at haddr
        change 0 = B at haddr
        omega
      obtain ⟨hret, hidle⟩ := hinv.free_only hpos hused hb huse hne hsize
      have hlen₂ := (free_keeps p₁ b.addr 64).2.2
      set a : SpmpAllocation := ⟨b.addr, 64, id, p.cfg.encrypt⟩ with ha
      have hget : SpmpPool.request id (p, got) (.alloc 64 16) = some (p₁, got ++ [a]) := by
        simp only [SpmpPool.request, halloc, Option.map_some, ha]
      have hreturn : SpmpPool.request id (p₁, got ++ [a]) (.free got.length) =
          some ((p₁.free b.addr 64).2, (got ++ [a]).set got.length .zero) := by
        simp only [SpmpPool.request, List.getElem?_concat_length, Option.bind_some]
        exact if_pos ⟨hne, hret⟩
      obtain ⟨p', got', hrun, hidle', hlen'⟩ := ih (p := (p₁.free b.addr 64).2) hidle
        ((got ++ [a]).set got.length .zero) (by omega)
      rw [List.length_set, List.length_append, List.length_singleton] at hrun
      have hsteps : BradVector.churn got.length (n + 1) =
          .alloc 64 16 :: .free got.length :: BradVector.churn (got.length + 1) n := rfl
      refine ⟨p', got', ?_, hidle', by omega⟩
      simp only [hsteps, List.foldlM_cons, hget, hreturn, Option.bind_eq_bind, Option.bind_some]
      exact hrun

end Slots

/-! ### Fresh again -/

section Fresh

variable {p : SpmpPool} {id : Nat} {cfg : SpmpPoolConfig} {got : List SpmpAllocation}

/-- A fresh pool serves small requests until it runs out of slots. -/
theorem fresh_accepts_row (hid : id < spmpMaxPools) (hend : spmpPoolEnd id cfg < 2 ^ 64)
    {sizes : List Nat} (hsmall : ∀ z ∈ sizes, SmallSize z) (hroom : sizes.length < spmpMaxBlocks)
    (hsum : sizes.sum < cfg.size.toNat) :
    (SpmpPool.fresh id cfg).Accepts id [] (sizes.map allocSmall) := by
  refine accepts_row hsmall (U := [])
    (fun b hb => absurd hb List.not_mem_nil) rfl rfl ?_ hend ?_ hsum
  · change (spmpPoolBase id).toNat % 16 = 0
    rw [spmpPoolBase_toNat hid]
    omega
  · change 1 + sizes.length ≤ spmpMaxBlocks
    omega

/-- A pool whose table still has one entry, with nothing allocated, is a fresh one up to a flag. -/
theorem plain_eq_fresh (hsize : cfg.size ≠ 0) (h : HistoryInv id cfg [] p)
    (hactive : p.active = true)
    (hone : p.blocks.length = 1) : p.plain = (SpmpPool.fresh id cfg).plain := by
  have hpos : 0 < cfg.size.toNat := Nat.pos_of_ne_zero fun h => hsize (BitVec.eq_of_toNat_eq h)
  obtain ⟨hp, hhandles⟩ := (h.sound (.inl hone)).resolve_left (by rw [hone]; decide)
  obtain ⟨b, hb, hlo, hbsize⟩ := hp.single hpos hone
  have hmem : b ∈ p.blocks := hb ▸ List.mem_cons_self
  have hown := h.own hone b hmem
  have hfree : b.inUse = false := by
    by_contra huse
    rw [Bool.not_eq_false] at huse
    obtain ⟨a, ha, -⟩ := hhandles b hmem huse fun hzero => by
      rw [hzero] at hbsize
      change 0 = _ at hbsize
      omega
    exact absurd ha List.not_mem_nil
  obtain ⟨cfg', used, active, blocks⟩ := p
  obtain ⟨addr, size, poolId, inUse, encrypted⟩ := b
  obtain rfl : cfg' = cfg := h.cfg_eq
  obtain rfl : active = true := hactive
  obtain rfl : blocks = [_] := hb
  obtain rfl : poolId = id := hown
  obtain rfl : inUse = false := hfree
  obtain rfl : addr = spmpPoolBase poolId := BitVec.eq_of_toNat_eq hlo
  obtain rfl : size = cfg'.size := BitVec.eq_of_toNat_eq hbsize
  rfl

/-- **The pool alone.** -/
theorem accepts_fresh_iff (hid : id < spmpMaxPools) (hsize : cfg.size ≠ 0)
    (h : HistoryInv id cfg [] p) (hactive : p.active = true) :
    (∀ requests, (SpmpPool.fresh id cfg).Accepts id [] requests → p.Accepts id [] requests) ↔
      p.blocks.length = 1 := by
  refine ⟨fun haccepts => ?_, fun hone requests => ?_⟩
  · by_contra hne
    have hmax : spmpMaxBlocks = 512 := rfl
    have hpos := h.pos
    have hroom := h.room
    obtain ⟨hend, hS⟩ := h.wide (by omega)
    rcases Nat.lt_or_ge cfg.size.toNat (2 ^ 23) with hsmall | hlarge
    · rcases h.sound (.inr hsmall) with hfull | ⟨hp, hhandles⟩
      · have hserved := haccepts ([64].map allocSmall) (fresh_accepts_row hid hend (fun z hz => by
          rw [List.mem_singleton.mp hz]
          exact ⟨by decide, by decide, by decide⟩) (by decide) (by simpa using hS))
        exact not_accepts_full hfull hserved
      · have hbase := spmpPoolBase_toNat hid
        have hidle : Idle (spmpPoolBase id).toNat cfg.size.toNat p := by
          refine ⟨hp, BitVec.eq_of_toNat_eq ?_⟩
          rw [hp.used]
          refine total_eq_zero fun b hb => ?_
          unfold SpmpBlock.liveSize
          split
          · rename_i huse
            by_contra hbytes
            obtain ⟨a, ha, -⟩ := hhandles b hb huse fun hzero => hbytes (by rw [hzero]; rfl)
            exact absurd ha List.not_mem_nil
          · rfl
        have hfresh : Idle (spmpPoolBase id).toNat cfg.size.toNat (.fresh id cfg) :=
          ⟨poolInv_fresh id hsize, rfl⟩
        set n := spmpMaxBlocks - p.blocks.length with hn
        obtain ⟨p', got', hrun, -, hlen⟩ := hidle.churn (n := n) id [] (by omega)
          (by omega) hS hend (by omega)
        obtain ⟨q, got'', hrun', hidle', hlen'⟩ := hfresh.churn (n := n) id []
          (by omega) (by omega) hS hend (by change 1 + n ≤ _; omega)
        have hlen' : q.blocks.length = 1 + n := hlen'
        obtain ⟨q', addr, halloc, -⟩ := hidle'.alloc id (by omega) hS hend (by omega)
        have hserved := haccepts (churn 0 n ++ [.alloc 64 16]) (by
          unfold SpmpPool.Accepts
          rw [List.foldlM_append]
          simp only [List.length_nil] at hrun'
          rw [hrun']
          simp only [Option.bind_eq_bind, Option.bind_some, List.foldlM_cons, SpmpPool.request,
            halloc, Option.map_some]
          rfl)
        unfold SpmpPool.Accepts at hserved
        rw [List.foldlM_append] at hserved
        simp only [List.length_nil] at hrun
        rw [hrun] at hserved
        have hserved : p'.Accepts id got' [.alloc 64 16] := hserved
        exact not_accepts_full (by omega) hserved
    · obtain ⟨sizes, hlen, hsizes, hreject⟩ :=
        exists_rejected (n := 511) id [] hroom (by omega)
      refine hreject (haccepts _ (fresh_accepts_row hid hend hsizes (by omega) ?_))
      have hsum : sizes.sum ≤ sizes.length * 8256 := by
        simpa using List.sum_le_card_nsmul sizes 8256 fun z hz => (hsizes z hz).2.1
      omega
  · exact (accepts_of_plain (plain_eq_fresh hsize h hactive hone)).mpr

end Fresh

section System

variable {s s₀ : Spmp} {r : SpmpRun} {id : Nat} {cfg : SpmpPoolConfig} {history : List SpmpOp}
  {op : SpmpOp}

theorem spmpPoolCreate_fresh (hcreate : spmpPoolCreate s cfg = (0, s₀, some id)) :
    s₀.initialized = true ∧ id < spmpMaxPools ∧ cfg.size ≠ 0 ∧
      s₀.poolGet id = some (.fresh id cfg) := by
  unfold spmpPoolCreate at hcreate
  split at hcreate
  · cases hcreate
  rename_i hinit
  split at hcreate
  · cases hcreate
  rename_i hroom
  split at hcreate
  · cases hcreate
  rename_i hsize
  cases hcreate
  exact ⟨not_not.mp hinit, Nat.lt_of_not_le hroom, hsize, poolGet_create.trans (if_pos rfl)⟩

/-- The pool that all the calls are on, after some of them. -/
structure HistoryOf (id : Nat) (cfg : SpmpPoolConfig) (r : SpmpRun) (p : SpmpPool) : Prop where
  initialized : r.spmp.initialized = true
  get : r.spmp.poolGet id = some p
  inv : HistoryInv id cfg r.live p

/-- **One call on the pool.** -/
theorem HistoryOf.step {p : SpmpPool} (h : HistoryOf id cfg r p) (hid : id < spmpMaxPools)
    (hsize : cfg.size ≠ 0) (hon : op.On id) : ∃ p', HistoryOf id cfg (r.step op) p' := by
  cases op with
  | poolCreate => cases hon
  | poolDestroy => cases hon
  | alloc poolId size alignment =>
      obtain rfl : poolId = id := hon
      obtain ⟨hgot, hinit, hpools⟩ :=
        spmpAlloc_of_get h.initialized h.get size alignment
      refine ⟨_, hinit, poolGet_replaced h.get hpools (alloc_keeps p poolId size alignment).2.1, ?_⟩
      rw [SpmpRun.step]
      dsimp only
      rw [hgot, Option.map_map]
      exact h.inv.alloc hid hsize
  | free a =>
      have ha : a.poolId = id := hon
      rcases spmpFree_cases r.spmp a with ⟨hret, heq⟩ |
        ⟨p', i, hget, hne, hi, huse, haddr, hsz, heq⟩
      · refine ⟨p, ?_, ?_, ?_⟩
        · rw [SpmpRun.step, heq]
          exact h.initialized
        · rw [SpmpRun.step, heq]
          exact h.get
        · rw [SpmpRun.step, if_neg hret]
          exact h.inv
      · obtain rfl : p = p' := Option.some.inj (h.get.symm.trans (ha ▸ hget))
        rw [SpmpRun.step, heq, if_pos rfl]
        refine ⟨_, h.initialized, ?_, h.inv.free hid ha hi huse hne haddr hsz⟩
        rw [ha]
        exact poolGet_replaced h.get rfl rfl

/-- One call leaves one entry in the table if there was one, and it is not an allocation of less
than the whole pool. -/
theorem HistoryOf.single_step_iff {p q : SpmpPool} (h : HistoryOf id cfg r p)
    (hid : id < spmpMaxPools)
    (hsize : cfg.size ≠ 0) (hon : op.On id) (hq : HistoryOf id cfg (r.step op) q) :
    q.blocks.length = 1 ↔ p.blocks.length = 1 ∧
      ∀ size alignment a, op = .alloc id size alignment →
        (spmpAlloc r.spmp id size alignment).2.2 = some a → a.size = cfg.size := by
  cases op with
  | poolCreate => cases hon
  | poolDestroy => cases hon
  | alloc poolId size alignment =>
      obtain rfl : poolId = id := hon
      obtain ⟨hgot, hinit, hpools⟩ := spmpAlloc_of_get h.initialized h.get size alignment
      have hkeeps := alloc_keeps p poolId size alignment
      obtain rfl : (p.alloc poolId size alignment).2.1 = q :=
        Option.some.inj ((poolGet_replaced h.get hpools hkeeps.2.1).symm.trans hq.get)
      have hpos := h.inv.pos
      have hgrows := hkeeps.2.2.1
      have hserved : (∀ size' alignment' a, SpmpOp.alloc poolId size alignment =
            .alloc poolId size' alignment' →
          (spmpAlloc r.spmp poolId size' alignment').2.2 = some a → a.size = cfg.size) ↔
          ∀ got, (p.alloc poolId size alignment).2.2 = some got → got.2 = cfg.size := by
        constructor
        · intro hall got hsome
          exact hall size alignment _ rfl (by rw [hgot, hsome]; rfl)
        · rintro hall size' alignment' a heq hsome
          obtain ⟨-, rfl, rfl⟩ := SpmpOp.alloc.inj heq
          rw [hgot] at hsome
          obtain ⟨got, hserved, rfl⟩ := Option.map_eq_some_iff.mp hsome
          exact hall got hserved
      rw [hserved]
      by_cases hone : p.blocks.length = 1
      · rw [h.inv.alloc_single_iff hid hsize hone]
        exact (and_iff_right hone).symm
      · exact iff_of_false (by omega) fun hboth => hone hboth.1
  | free a =>
      obtain rfl : a.poolId = id := hon
      have hlen : q.blocks.length = p.blocks.length := by
        have hget := hq.get
        rcases spmpFree_cases r.spmp a with ⟨-, heq⟩ | ⟨p', i, hget', -, -, -, -, -, heq⟩
        · rw [SpmpRun.step, heq] at hget
          rw [Option.some.inj (hget.symm.trans h.get)]
        · obtain rfl : p = p' := Option.some.inj (h.get.symm.trans hget')
          rw [SpmpRun.step, heq] at hget
          let freed : SpmpPool := { p with
            blocks := poolCoalesce (p.blocks.set i (entry p.blocks i).freed)
            used := p.used - (entry p.blocks i).size }
          have hset : Spmp.poolGet { r.spmp.setPool a.poolId freed with frees := r.spmp.frees + 1 }
              a.poolId = some freed := poolGet_replaced h.get rfl rfl
          rw [← Option.some.inj (hset.symm.trans hget)]
          simp [freed]
      rw [hlen]
      refine (and_iff_left ?_).symm
      intro size alignment got heq
      cases heq

theorem historyOf_create (hcreate : spmpPoolCreate s cfg = (0, s₀, some id))
    (hon : ∀ op ∈ history, op.On id) :
    ∃ p, HistoryOf id cfg (history.foldl SpmpRun.step ⟨s₀, []⟩) p := by
  obtain ⟨hinit, hid, hsize, hget⟩ := spmpPoolCreate_fresh hcreate
  induction history using List.reverseRecOn with
  | nil => exact ⟨_, hinit, hget, historyInv_fresh id hsize⟩
  | append_singleton history op ih =>
      obtain ⟨p, hp⟩ := ih fun op' hop' => hon op' (List.mem_append_left _ hop')
      rw [List.foldl_append]
      exact hp.step hid hsize (hon op (List.mem_append_right _ List.mem_cons_self))

/-- The table has one entry as long as each allocation that the pool served took the whole of it. -/
theorem single_entry_iff (hcreate : spmpPoolCreate s cfg = (0, s₀, some id))
    (hon : ∀ op ∈ history, op.On id) :
    (∃ p, (history.foldl SpmpRun.step ⟨s₀, []⟩).spmp.poolGet id = some p ∧ p.blocks.length = 1) ↔
      ∀ before size alignment a, before ++ [.alloc id size alignment] <+: history →
        (spmpAlloc (before.foldl SpmpRun.step ⟨s₀, []⟩).spmp id size alignment).2.2 = some a →
          a.size = cfg.size := by
  obtain ⟨-, hid, hsize, hget⟩ := spmpPoolCreate_fresh hcreate
  induction history using List.reverseRecOn with
  | nil =>
      refine iff_of_true ⟨_, hget, rfl⟩ fun before size alignment a hbefore => ?_
      simp at hbefore
  | append_singleton history op ih =>
      have hon' : ∀ op' ∈ history, op'.On id :=
        fun op' hop' => hon op' (List.mem_append_left _ hop')
      obtain ⟨p, hp⟩ := historyOf_create hcreate hon'
      obtain ⟨q, hq⟩ := historyOf_create hcreate hon
      have hbefore : (∃ p', (history.foldl SpmpRun.step ⟨s₀, []⟩).spmp.poolGet id = some p' ∧
          p'.blocks.length = 1) ↔ p.blocks.length = 1 := by
        simp only [hp.get, Option.some.injEq, exists_eq_left']
      have hafter :
          (∃ p', ((history ++ [op]).foldl SpmpRun.step ⟨s₀, []⟩).spmp.poolGet id = some p' ∧
            p'.blocks.length = 1) ↔ q.blocks.length = 1 := by
        simp only [hq.get, Option.some.injEq, exists_eq_left']
      have hlast :=
        hp.single_step_iff hid hsize (hon op (List.mem_append_right _ List.mem_cons_self))
          (List.foldl_append ▸ hq)
      rw [hafter, hlast, ← hbefore, ih hon']
      constructor
      · rintro ⟨hpast, hop⟩ before size alignment a hinitial hserved
        rcases List.prefix_concat_iff.mp hinitial with hwhole | hinitial
        · obtain ⟨rfl, rfl⟩ := List.append_singleton_inj.mp hwhole
          exact hop size alignment a rfl hserved
        · exact hpast before size alignment a hinitial hserved
      · intro h
        refine ⟨fun before size alignment a hinitial => h before size alignment a
          (hinitial.trans (List.prefix_append _ _)), ?_⟩
        rintro size alignment a rfl
        exact h history size alignment a (List.prefix_refl _)

/-- **A pool whose allocations have all been freed** serves every sequence of requests that it
served when it was created if and only if its table still has one entry. -/
theorem freed_pool_fresh_iff (hcreate : spmpPoolCreate s cfg = (0, s₀, some id))
    (hon : ∀ op ∈ history, op.On id)
    (hfreed : (history.foldl SpmpRun.step ⟨s₀, []⟩).live = []) :
    (∀ requests, s₀.Accepts id requests →
        (history.foldl SpmpRun.step ⟨s₀, []⟩).spmp.Accepts id requests) ↔
      ∃ p, (history.foldl SpmpRun.step ⟨s₀, []⟩).spmp.poolGet id = some p ∧
        p.blocks.length = 1 := by
  obtain ⟨hinit, hid, hsize, hget⟩ := spmpPoolCreate_fresh hcreate
  obtain ⟨p, hp⟩ := historyOf_create hcreate hon
  have hinv := hp.inv
  rw [hfreed] at hinv
  have hpool := accepts_fresh_iff hid hsize hinv (poolGet_eq_some.mp hp.get).2
  have haccepts : (∀ requests, s₀.Accepts id requests →
      (history.foldl SpmpRun.step ⟨s₀, []⟩).spmp.Accepts id requests) ↔
        ∀ requests, (SpmpPool.fresh id cfg).Accepts id [] requests → p.Accepts id [] requests :=
    forall_congr' fun requests =>
      imp_congr (accepts_iff_pool hinit hget) (accepts_iff_pool hp.initialized hp.get)
  rw [haccepts, hpool]
  refine ⟨fun hone => ⟨p, hp.get, hone⟩, ?_⟩
  rintro ⟨q, hq, hone⟩
  rw [hp.get] at hq
  cases hq
  exact hone

end System

/-- A pool of one page. -/
def pagePool : Spmp := (spmpPoolCreate spmpInit (generalPool 4096)).2.1

/-- All of the page, and back. -/
def wholePage : List SpmpOp := [.alloc 0 4096 16, .free ⟨0x100000000, 4096, 0, 0⟩]

theorem freed_pool_fresh_page : (wholePage.foldl SpmpRun.step ⟨pagePool, []⟩).live = [] ∧
    ∀ requests, pagePool.Accepts 0 requests →
      (wholePage.foldl SpmpRun.step ⟨pagePool, []⟩).spmp.Accepts 0 requests := by
  have hcreate : spmpPoolCreate spmpInit (generalPool 4096) = (0, pagePool, some 0) := rfl
  have hfreed : (wholePage.foldl SpmpRun.step ⟨pagePool, []⟩).live = [] := by decide
  refine ⟨hfreed, (freed_pool_fresh_iff hcreate (fun op hop => ?_) hfreed).mpr ⟨_, rfl, rfl⟩⟩
  rcases List.mem_pair.mp hop with rfl | rfl <;> rfl

/-- A part of the page, and back. -/
def pageStart : List SpmpOp := [.alloc 0 64 16, .free ⟨0x100000000, 64, 0, 0⟩]

theorem pageStart_not_fresh : (pageStart.foldl SpmpRun.step ⟨pagePool, []⟩).live = [] ∧
    ¬ ∀ requests, pagePool.Accepts 0 requests →
      (pageStart.foldl SpmpRun.step ⟨pagePool, []⟩).spmp.Accepts 0 requests := by
  have hfreed : (pageStart.foldl SpmpRun.step ⟨pagePool, []⟩).live = [] := by decide
  have hlen : ((pageStart.foldl SpmpRun.step ⟨pagePool, []⟩).spmp.poolGet 0).map
      (fun p => p.blocks.length) = some 2 := by decide
  refine ⟨hfreed, fun haccepts => ?_⟩
  have hcreate : spmpPoolCreate spmpInit (generalPool 4096) = (0, pagePool, some 0) := rfl
  obtain ⟨hinit, hid, hsize, hget⟩ := spmpPoolCreate_fresh hcreate
  obtain ⟨p, hp⟩ : ∃ p, HistoryOf 0 (generalPool 4096)
      (pageStart.foldl SpmpRun.step ⟨pagePool, []⟩) p := by
    refine historyOf_create hcreate fun op hop => ?_
    rcases List.mem_pair.mp hop with rfl | rfl <;> rfl
  have hinv := hp.inv
  rw [hfreed] at hinv
  have hone := (accepts_fresh_iff hid hsize hinv (poolGet_eq_some.mp hp.get).2).mp fun requests h =>
    (accepts_iff_pool hp.initialized hp.get).mp
      (haccepts requests ((accepts_iff_pool hinit hget).mpr h))
  rw [hp.get, Option.map_some, hone] at hlen
  cases hlen

end BradVector
