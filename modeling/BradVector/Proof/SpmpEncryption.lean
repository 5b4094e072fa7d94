import BradVector.Library.Commands
import BradVector.Proof.SpmpErrors

/-!
# The encryption flags of live blocks

The block that a pool is created with takes its flag from the pool. No other block does: a hole
starts without the flag, freeing clears it, and merging keeps the flag of a free block. So the first
allocation from a pool with encryption is flagged, and no later one.
-/

namespace BradVector

open CSem

inductive SpmpCall where
  | poolCreate (cfg : SpmpPoolConfig)
  | alloc (poolId : Nat) (size alignment : Size)
  | free (alloc : SpmpAllocation)
  | encrypt (addr size : Size)
  | decrypt (addr size : Size)
  deriving DecidableEq, Repr

/-- An allocation that has not been freed, with the slot of its block, and whether the block has
been decrypted since. -/
structure LiveBlock where
  alloc : SpmpAllocation
  slot : Nat
  decrypted : Bool
  deriving DecidableEq, Repr

/-- A call of `spmp_decrypt` on an address of the block. -/
def LiveBlock.decrypt (addr : Size) (l : LiveBlock) : LiveBlock :=
  { l with decrypted := l.decrypted || (l.alloc.addr ≤ addr && addr < l.alloc.addr + l.alloc.size) }

structure EncryptionRun where
  spmp : Spmp
  live : List LiveBlock
  deriving DecidableEq, Repr

/-- The slot of the block that an allocation is cut from. -/
def Spmp.slotFor (s : Spmp) (poolId : Nat) (size alignment : Size) : Option Nat :=
  (s.poolGet poolId).bind fun p => blockNextFree p.blocks (spmpNeeded size) alignment

/-- The slot of the block that `spmp_free` returns. -/
def Spmp.slotOf (s : Spmp) (a : SpmpAllocation) : Option Nat :=
  (s.poolGet a.poolId).bind fun p =>
    p.blocks.findIdx? fun b => b.inUse && b.addr = a.addr && b.size = a.size

namespace EncryptionRun

def init : EncryptionRun := ⟨spmpInit, []⟩

def step (r : EncryptionRun) : SpmpCall → EncryptionRun
  | .poolCreate cfg => { r with spmp := (spmpPoolCreate r.spmp cfg).2.1 }
  | .alloc poolId size alignment =>
      let done := spmpAlloc r.spmp poolId size alignment
      let slot := (r.spmp.slotFor poolId size alignment).getD 0
      ⟨done.2.1, r.live ++ (done.2.2.map fun a => ⟨a, slot, false⟩).toList⟩
  | .free a =>
      let done := spmpFree r.spmp a
      ⟨done.2.1, if done.1 = 0 then
        r.live.filter fun l => ¬ (l.alloc.poolId = a.poolId ∧ r.spmp.slotOf a = some l.slot)
      else r.live⟩
  | .encrypt addr size => { r with spmp := (spmpEncrypt r.spmp addr size).2 }
  | .decrypt addr size =>
      let done := spmpDecrypt r.spmp addr size
      ⟨done.2, if done.1 = 0 then r.live.map (LiveBlock.decrypt addr) else r.live⟩

end EncryptionRun

/-- The block of a live allocation from a pool with encryption is flagged, as the allocation says,
unless it has been decrypted. -/
def LiveBlock.Flagged (s : Spmp) (l : LiveBlock) : Prop :=
  ∀ p ∈ s.poolGet l.alloc.poolId, p.cfg.encrypt ≠ 0 → l.decrypted = false →
    (entry p.blocks l.slot).inUse = true ∧ (entry p.blocks l.slot).addr = l.alloc.addr ∧
      (entry p.blocks l.slot).size = l.alloc.size ∧ (entry p.blocks l.slot).encrypted = true ∧
      l.alloc.encrypted ≠ 0

instance (s : Spmp) (l : LiveBlock) : Decidable (l.Flagged s) := by
  unfold LiveBlock.Flagged
  infer_instance

def EncryptionRun.AllFlagged (r : EncryptionRun) : Prop := ∀ l ∈ r.live, l.Flagged r.spmp

/-- The pool has what the allocation asks for: a block that fits, and the slots it needs. -/
def SpmpPool.Serves (p : SpmpPool) (size alignment : Size) : Prop :=
  ∃ i, p.Finds size alignment i ∧ ¬ p.OneShort size alignment i

/-- An allocation that a pool with encryption serves finds the pool as it was created. -/
def SpmpCall.FirstUse (s : Spmp) : SpmpCall → Prop
  | .alloc poolId size alignment => ∀ p, s.poolGet poolId = some p → p.cfg.encrypt ≠ 0 →
      p.Serves size alignment → p = .fresh poolId p.cfg
  | _ => True

/-! ### Merging -/

section Merging

variable {T T' T'' : List SpmpBlock} {i j p q : Nat}

/-- What merging keeps of the flags: the blocks in use stay, and a block that is free afterwards was
free, with the same flag. The entry `i` is merged with others in the course of a row. -/
structure FlagsKept (i : Option Nat) (T T' : List SpmpBlock) : Prop where
  length : T'.length = T.length
  inUse : ∀ k, some k ≠ i → (entry T k).inUse = true → entry T' k = entry T k
  free : ∀ k, (entry T' k).inUse = false →
    (entry T k).inUse = false ∧ (entry T' k).encrypted = (entry T k).encrypted

theorem FlagsKept.refl (i : Option Nat) (T : List SpmpBlock) : FlagsKept i T T :=
  ⟨rfl, fun _ _ _ => rfl, fun _ h => ⟨h, rfl⟩⟩

theorem FlagsKept.trans (h : FlagsKept none T T') (h' : FlagsKept none T' T'') :
    FlagsKept none T T'' where
  length := h'.length.trans h.length
  inUse k hk huse := by
    have hstay := h.inUse k hk huse
    rw [h'.inUse k hk (hstay ▸ huse), hstay]
  free k hfree := by
    obtain ⟨hfree', hflag'⟩ := h'.free k hfree
    obtain ⟨hfree'', hflag⟩ := h.free k hfree'
    exact ⟨hfree'', hflag'.trans hflag⟩

/-- One merge, of two entries of which one is `i` and the other is free. -/
theorem FlagsKept.joined (h : FlagsKept (some i) T T')
    (hp : p = i ∨ (entry T' p).inUse = false) (hq : q = i ∨ (entry T' q).inUse = false) :
    FlagsKept (some i) T (joined T' p q) := by
  have hentry : ∀ k, entry (BradVector.joined T' p q) k =
      if k = q ∧ q < T'.length then .tombstone
      else if k = p ∧ p < T'.length then
        { entry T' p with size := (entry T' p).size + (entry T' q).size }
      else entry T' k := by
    intro k
    unfold BradVector.joined
    rw [entry_set, entry_set, List.length_set]
  have hother : ∀ k u, u = i ∨ (entry T' u).inUse = false → some k ≠ some i →
      (entry T k).inUse = true → k ≠ u := by
    rintro k u hu hk huse rfl
    have hfree := hu.resolve_left fun heq => hk (congrArg some heq)
    rw [h.inUse k hk huse, huse] at hfree
    cases hfree
  refine ⟨?_, fun k hk huse => ?_, fun k hfree => ?_⟩
  · unfold BradVector.joined
    rw [List.length_set, List.length_set]
    exact h.length
  · rw [hentry, if_neg fun heq => hother k q hq hk huse heq.1,
      if_neg fun heq => hother k p hp hk huse heq.1]
    exact h.inUse k hk huse
  · rw [hentry] at hfree ⊢
    split at hfree
    · cases hfree
    rename_i hkq
    rw [if_neg hkq]
    split at hfree
    · rename_i hkp
      rw [if_pos hkp, hkp.1]
      exact h.free p hfree
    · rename_i hkp
      rw [if_neg hkp]
      exact h.free k hfree

theorem FlagsKept.mergeAt (h : FlagsKept (some i) T T') (j : Nat) :
    FlagsKept (some i) T (mergeAt i T' j) := by
  change FlagsKept (some i) T (if j = i then T'
    else if (entry T' j).inUse = true then T'
    else if (entry T' i).endAddr = (entry T' j).addr then BradVector.joined T' i j
    else if (entry T' j).endAddr = (entry T' i).addr then BradVector.joined T' j i else T')
  split
  · exact h
  split
  · exact h
  rename_i hj
  rw [Bool.not_eq_true] at hj
  split
  · exact h.joined (.inl rfl) (.inr hj)
  split
  · exact h.joined (.inr hj) (.inl rfl)
  · exact h

theorem flagsKept_coalesceRow (n : Nat) (T : List SpmpBlock) (i : Nat) :
    FlagsKept none T (coalesceRow n T i) := by
  unfold coalesceRow
  split
  · exact .refl none T
  rename_i hi
  have hrow : FlagsKept (some i) T ((List.range n).foldl (BradVector.mergeAt i) T) :=
    List.foldlRecOn (List.range n) (BradVector.mergeAt i) (.refl (some i) T)
      fun T' h j _ => h.mergeAt j
  refine ⟨hrow.length, fun k _ huse => hrow.inUse k ?_ huse, hrow.free⟩
  intro heq
  cases heq
  exact hi huse

theorem flagsKept_poolCoalesce (T : List SpmpBlock) : FlagsKept none T (poolCoalesce T) :=
  List.foldlRecOn (List.range T.length) (coalesceRow T.length) (.refl none T)
    fun T' h i _ => h.trans (flagsKept_coalesceRow T.length T' i)

end Merging

/-! ### The calls -/

section Calls

variable {s : Spmp} {p : SpmpPool} {id i j : Nat} {addr size alignment : Size} {a : SpmpAllocation}
  {pools : List SpmpPool}

theorem blockContaining_spec (h : blockContaining addr pools = some (i, j)) :
    ∃ p, pools[i]? = some p ∧ j < p.blocks.length ∧ (entry p.blocks j).contains addr = true := by
  induction pools generalizing i with
  | nil => cases h
  | cons p pools ih =>
      unfold blockContaining at h
      cases hfind : p.blocks.findIdx? fun b => b.contains addr with
      | some k =>
          rw [hfind] at h
          cases h
          obtain ⟨hj, hcontains, -⟩ := List.findIdx?_eq_some_iff_getElem.mp hfind
          exact ⟨p, rfl, hj, entry_of_lt hj ▸ hcontains⟩
      | none =>
          rw [hfind] at h
          obtain ⟨⟨i', j'⟩, hfound, heq⟩ := Option.map_eq_some_iff.mp h
          cases heq
          exact ih hfound

theorem modify_of_getElem? {α : Type*} {l : List α} {x : α} {f : α → α} (h : l[i]? = some x) :
    l.modify i f = l.set i (f x) := by
  rw [List.modify_eq_set_getElem?, h]
  rfl

/-- The pool with the flag of one block set. -/
def SpmpPool.reflag (p : SpmpPool) (j : Nat) (value : Bool) : SpmpPool :=
  { p with blocks := p.blocks.set j { entry p.blocks j with encrypted := value } }

/-- **A flag is set** in the block in use that contains the address. -/
theorem spmpSetEncrypted_cases (value : Bool) (s : Spmp) (addr size : Size) :
    ((spmpSetEncrypted value s addr size).1 ≠ 0 ∧ (spmpSetEncrypted value s addr size).2 = s) ∨
      ∃ i p j, s.pools[i]? = some p ∧ j < p.blocks.length ∧
      (entry p.blocks j).contains addr = true ∧
        spmpSetEncrypted value s addr size =
          (0, { s with pools := s.pools.set i (p.reflag j value) }) := by
  unfold spmpSetEncrypted
  split
  · exact .inl ⟨(by decide : -enodev ≠ 0), rfl⟩
  split
  · exact .inl ⟨(by decide : -einval ≠ 0), rfl⟩
  cases hfound : blockContaining addr s.pools with
  | none => exact .inl ⟨(by decide : -enoent ≠ 0), rfl⟩
  | some found =>
      obtain ⟨i, j⟩ := found
      obtain ⟨p, hp, hj, hcontains⟩ := blockContaining_spec hfound
      refine .inr ⟨i, p, j, hp, hj, hcontains, ?_⟩
      have hblock : p.blocks[j]? = some (entry p.blocks j) := by
        rw [entry_of_lt hj, List.getElem?_eq_getElem hj]
      dsimp only
      rw [modify_of_getElem? hp, modify_of_getElem? hblock]
      rfl

/-- `spmp_free` frees the block it finds. -/
theorem spmpFree_slot (s : Spmp) (a : SpmpAllocation) :
    ((spmpFree s a).1 ≠ 0 ∧ (spmpFree s a).2.1 = s) ∨
      ∃ p j, s.poolGet a.poolId = some p ∧ s.slotOf a = some j ∧ j < p.blocks.length ∧
        (spmpFree s a).1 = 0 ∧ (spmpFree s a).2.1 = { s.setPool a.poolId { p with
          blocks := poolCoalesce (p.blocks.set j (entry p.blocks j).freed)
          used := p.used - (entry p.blocks j).size } with frees := s.frees + 1 } := by
  unfold spmpFree
  split
  · exact .inl ⟨(by decide : -enodev ≠ 0), rfl⟩
  split
  · exact .inl ⟨(by decide : -einval ≠ 0), rfl⟩
  unfold Spmp.slotOf
  cases hget : s.poolGet a.poolId with
  | none => exact .inl ⟨(by decide : -einval ≠ 0), rfl⟩
  | some p =>
      dsimp only [Option.bind_some]
      unfold SpmpPool.free
      cases hfind : p.blocks.findIdx? fun b => b.inUse && b.addr = a.addr && b.size = a.size with
      | none => exact .inl ⟨(by decide : -enoent ≠ 0), rfl⟩
      | some j =>
          obtain ⟨hj, -⟩ := List.findIdx?_eq_some_iff_getElem.mp hfind
          exact .inr ⟨p, j, rfl, rfl, hj, rfl, rfl⟩

end Calls

/-- What the calls do to the pools and the live blocks. -/
inductive EncryptionStep (r r' : EncryptionRun) : SpmpCall → Prop
  | idle (call : SpmpCall) (hpools : r'.spmp.pools = r.spmp.pools) (hlive : r'.live = r.live)
      (hfirst : call.FirstUse r.spmp) : EncryptionStep r r' call
  | create (cfg : SpmpPoolConfig)
      (hpools : r'.spmp.pools = r.spmp.pools ++ [.fresh r.spmp.pools.length cfg])
      (hlive : r'.live = r.live) : EncryptionStep r r' (.poolCreate cfg)
  | alloc (id : Nat) (size alignment : Size) (p q : SpmpPool) (i : Nat) (b : SpmpBlock)
      (lead trail : List SpmpBlock) (hget : r.spmp.poolGet id = some p)
      (hsite : AllocSite p id size alignment i b lead trail) (hserves : p.Serves size alignment)
      (hcfg : q.cfg = p.cfg) (hactive : q.active = p.active)
      (hblocks : q.blocks = (p.blocks ++ lead ++ trail).set i
        (b.allocated (b.aligned alignment) (spmpNeeded size)))
      (hpools : r'.spmp.pools = r.spmp.pools.set id q)
      (hlive : r'.live = r.live ++
        [⟨⟨b.aligned alignment, spmpNeeded size, id, p.cfg.encrypt⟩, i, false⟩]) :
      EncryptionStep r r' (.alloc id size alignment)
  | short (id : Nat) (size alignment : Size) (p q : SpmpPool) (i : Nat) (b : SpmpBlock)
      (lead trail : List SpmpBlock) (hget : r.spmp.poolGet id = some p)
      (hsite : AllocSite p id size alignment i b lead trail) (hshort : ¬ p.Serves size alignment)
      (hslots : p.blocks.length + 1 = spmpMaxBlocks) (hcfg : q.cfg = p.cfg)
      (hactive : q.active = p.active) (hblocks : q.blocks = p.blocks ++ lead)
      (hpools : r'.spmp.pools = r.spmp.pools.set id q) (hlive : r'.live = r.live) :
      EncryptionStep r r' (.alloc id size alignment)
  | free (a : SpmpAllocation) (p q : SpmpPool) (j : Nat) (hget : r.spmp.poolGet a.poolId = some p)
      (hj : j < p.blocks.length) (hcfg : q.cfg = p.cfg) (hactive : q.active = p.active)
      (hblocks : q.blocks = poolCoalesce (p.blocks.set j (entry p.blocks j).freed))
      (hpools : r'.spmp.pools = r.spmp.pools.set a.poolId q)
      (hlive : r'.live = r.live.filter fun l => ¬ (l.alloc.poolId = a.poolId ∧ l.slot = j)) :
      EncryptionStep r r' (.free a)
  | encrypt (addr size : Size) (id : Nat) (p : SpmpPool) (j : Nat)
      (hget : r.spmp.pools[id]? = some p) (hj : j < p.blocks.length)
      (hcontains : (entry p.blocks j).contains addr = true)
      (hpools : r'.spmp.pools = r.spmp.pools.set id (p.reflag j true)) (hlive : r'.live = r.live) :
      EncryptionStep r r' (.encrypt addr size)
  | decrypt (addr size : Size) (id : Nat) (p : SpmpPool) (j : Nat)
      (hget : r.spmp.pools[id]? = some p) (hj : j < p.blocks.length)
      (hcontains : (entry p.blocks j).contains addr = true)
      (hpools : r'.spmp.pools = r.spmp.pools.set id (p.reflag j false))
      (hlive : r'.live = r.live.map (LiveBlock.decrypt addr)) :
      EncryptionStep r r' (.decrypt addr size)

section Steps

variable {r : EncryptionRun} {p : SpmpPool} {id i : Nat} {size alignment : Size}

theorem serves_of_site {b : SpmpBlock} {lead trail : List SpmpBlock}
    (hsite : AllocSite p id size alignment i b lead trail) :
    p.Serves size alignment ↔ ¬ p.OneShort size alignment i := by
  refine ⟨?_, fun h => ⟨i, hsite.finds, h⟩⟩
  rintro ⟨j, hfinds, hshort⟩
  obtain rfl : i = j := Option.some.inj (hsite.finds.found.symm.trans hfinds.found)
  exact hshort

/-- A pool serves the allocations that succeed. -/
theorem serves_iff (p : SpmpPool) (id : Nat) (size alignment : Size) :
    p.Serves size alignment ↔ (p.alloc id size alignment).1 = 0 := by
  have hkept := alloc_error_keeps_iff p id size alignment
  rcases alloc_cases p id size alignment with
    ⟨hnone, ret, hret, heq⟩ | ⟨i, b, lead, trail, hsite, ⟨-, heq⟩ | ⟨hslots, hlead, htrail, heq⟩⟩
  · rw [heq]
    refine iff_of_false ?_ hret
    rintro ⟨i, hfinds, -⟩
    exact hnone i hfinds
  · rw [heq] at hkept ⊢
    refine iff_of_true ⟨i, hsite.finds, fun hshort => ?_⟩ rfl
    exact hkept.mp (fun hret => absurd rfl hret) ⟨i, hshort⟩
  · rw [heq, serves_of_site hsite]
    refine iff_of_false (not_not_intro ⟨hsite.finds, hslots, ?_, ?_⟩) (by decide : -enospc ≠ 0)
    · exact hsite.block ▸ hsite.lead_ne_iff.mp hlead
    · exact hsite.block ▸ hsite.trail_ne_iff.mp htrail

/-- **What an allocation does.** -/
theorem EncryptionRun.step_alloc (hinit : r.spmp.initialized = true) (id : Nat)
    (size alignment : Size) :
    EncryptionStep r (r.step (.alloc id size alignment)) (.alloc id size alignment) := by
  cases hget : r.spmp.poolGet id with
  | none =>
      have hdone : spmpAlloc r.spmp id size alignment = (-einval, r.spmp, none) := by
        unfold spmpAlloc
        rw [if_neg (not_not_intro hinit), hget]
      refine .idle _ ?_ ?_ fun p hp => ?_
      · rw [step, hdone]
      · rw [step, hdone]
        exact List.append_nil _
      · rw [hget] at hp
        cases hp
  | some p =>
      obtain ⟨hgot, -, hpools⟩ := spmpAlloc_of_get hinit hget size alignment
      have hiff := serves_iff p id size alignment
      rcases alloc_cases p id size alignment with
        ⟨-, ret, hret, heq⟩ | ⟨i, b, lead, trail, hsite, ⟨-, heq⟩ | ⟨hslots, -, -, heq⟩⟩
      · rw [heq] at hgot hpools hiff
        refine .idle _ ?_ ?_ fun q hq _ hserves => ?_
        · rw [step, hpools]
          exact congrArg Spmp.pools (setPool_self hget)
        · rw [step, hgot]
          exact List.append_nil _
        · rw [hget] at hq
          cases hq
          exact absurd (hiff.mp hserves) hret
      · have hslot : r.spmp.slotFor id size alignment = some i := by
          rw [Spmp.slotFor, hget]
          exact hsite.finds.found
        rw [heq] at hgot hpools hiff
        refine .alloc id size alignment p _ i b lead trail hget hsite
          (hiff.mpr rfl) ?_ ?_ ?_ hpools ?_
        · rfl
        · rfl
        · rfl
        · rw [step, hgot, hslot]
          rfl
      · rw [heq] at hgot hpools hiff
        have hshort : ¬ p.Serves size alignment :=
          fun h => absurd (hiff.mp h) (by decide : -enospc ≠ 0)
        refine .short id size alignment p _ i b lead trail hget hsite hshort hslots ?_ ?_ ?_
          hpools ?_
        · rfl
        · rfl
        · rfl
        · rw [step, hgot]
          exact List.append_nil _

/-- **What a call does.** -/
theorem EncryptionRun.step_cases (hinit : r.spmp.initialized = true) (call : SpmpCall) :
    EncryptionStep r (r.step call) call := by
  cases call with
  | poolCreate cfg =>
      rcases spmpPoolCreate_cases r.spmp cfg with heq | ⟨-, -, heq⟩
      · exact .idle _ (congrArg Spmp.pools heq) rfl trivial
      · exact .create cfg (congrArg Spmp.pools heq) rfl
  | alloc id size alignment => exact step_alloc hinit id size alignment
  | free a =>
      rcases spmpFree_slot r.spmp a with ⟨hret, heq⟩ | ⟨p, j, hget, hslot, hj, hret, heq⟩
      · exact .idle _ (congrArg Spmp.pools heq) (if_neg hret) trivial
      · refine .free a p _ j hget hj ?_ ?_ ?_ (congrArg Spmp.pools heq) ?_
        · rfl
        · rfl
        · rfl
        · rw [step, if_pos hret, hslot]
          simp only [Option.some.injEq, eq_comm]
  | encrypt addr size =>
      rcases spmpSetEncrypted_cases true r.spmp addr size with
        ⟨-, heq⟩ | ⟨id, p, j, hp, hj, hcontains, heq⟩
      · exact .idle _ (congrArg Spmp.pools heq) rfl trivial
      · exact .encrypt addr size id p j hp hj hcontains
          (congrArg (fun done => done.2.pools) heq) rfl
  | decrypt addr size =>
      rcases spmpSetEncrypted_cases false r.spmp addr size with
        ⟨hret, heq⟩ | ⟨id, p, j, hp, hj, hcontains, heq⟩
      · exact .idle _ (congrArg Spmp.pools heq) (if_neg hret) trivial
      · refine .decrypt addr size id p j hp hj hcontains
          (congrArg (fun done => done.2.pools) heq) ?_
        exact if_pos (congrArg Prod.fst heq)

/-- No call stops the driver. -/
theorem EncryptionRun.step_initialized (hinit : r.spmp.initialized = true) (call : SpmpCall) :
    (r.step call).spmp.initialized = true := by
  cases call with
  | poolCreate cfg =>
      rcases spmpPoolCreate_cases r.spmp cfg with heq | ⟨-, -, heq⟩
      · exact (congrArg Spmp.initialized heq).trans hinit
      · exact (congrArg Spmp.initialized heq).trans hinit
  | alloc id size alignment =>
      rcases spmpAlloc_cases r.spmp id size alignment with
        heq | ⟨p, -, ⟨ret, p', -, heq⟩ | ⟨ret, p', addr, needed, -, heq⟩⟩
      · exact (congrArg (fun done => done.1.initialized) heq).trans hinit
      · exact (congrArg (fun done => done.2.1.initialized) heq).trans hinit
      · exact (congrArg (fun done => done.2.1.initialized) heq).trans hinit
  | free a =>
      rcases spmpFree_slot r.spmp a with ⟨-, heq⟩ | ⟨p, j, -, -, -, -, heq⟩
      · exact (congrArg Spmp.initialized heq).trans hinit
      · exact (congrArg Spmp.initialized heq).trans hinit
  | encrypt addr size =>
      rcases spmpSetEncrypted_cases true r.spmp addr size with ⟨-, heq⟩ | ⟨id, p, j, -, -, -, heq⟩
      · exact (congrArg Spmp.initialized heq).trans hinit
      · exact (congrArg (fun done => done.2.initialized) heq).trans hinit
  | decrypt addr size =>
      rcases spmpSetEncrypted_cases false r.spmp addr size with ⟨-, heq⟩ | ⟨id, p, j, -, -, -, heq⟩
      · exact (congrArg Spmp.initialized heq).trans hinit
      · exact (congrArg (fun done => done.2.initialized) heq).trans hinit

end Steps

/-! ### The invariant -/

/-- No free block has the flag. -/
def SpmpPool.HolesPlain (p : SpmpPool) : Prop :=
  ∀ k, (entry p.blocks k).inUse = false → (entry p.blocks k).encrypted = false

/-- The block of a live allocation is in use in its slot. -/
def LiveBlock.Held (s : Spmp) (l : LiveBlock) : Prop :=
  ∃ p, s.pools[l.alloc.poolId]? = some p ∧ l.slot < p.blocks.length ∧
    (entry p.blocks l.slot).inUse = true ∧ (entry p.blocks l.slot).addr = l.alloc.addr ∧
    (entry p.blocks l.slot).size = l.alloc.size ∧ l.alloc.encrypted = p.cfg.encrypt

/-- A pool is as it was created, or has no flag left for an allocation to take over. -/
structure EncryptionInv (r : EncryptionRun) : Prop where
  initialized : r.spmp.initialized = true
  active : ∀ p ∈ r.spmp.pools, p.active = true
  free : ∀ (id : Nat) (p : SpmpPool), r.spmp.pools[id]? = some p →
    p = .fresh id p.cfg ∨ p.HolesPlain
  live : ∀ l ∈ r.live, l.Held r.spmp

section Invariant

variable {s s' : Spmp} {r : EncryptionRun} {p q : SpmpPool} {l : LiveBlock} {id i j k : Nat}
  {size alignment addr : Size} {T T' : List SpmpBlock} {b : SpmpBlock} {lead trail : List SpmpBlock}
  {call : SpmpCall}

theorem entry_append_left (hk : k < T.length) : entry (T ++ T') k = entry T k := by
  unfold entry
  rw [List.getD_append _ _ _ _ hk]

/-- Blocks put behind the table come with their own flags. -/
theorem holesPlain_append (hp : p.HolesPlain) (hblocks : q.blocks = p.blocks ++ T)
    (hT : ∀ c ∈ T, c.encrypted = false) : q.HolesPlain := by
  intro k hfree
  rw [hblocks] at hfree ⊢
  rcases Nat.lt_or_ge k p.blocks.length with hlt | hge
  · rw [entry_append_left hlt] at hfree ⊢
    exact hp k hfree
  · have hk := lt_of_free hfree
    rw [entry_of_lt hk, List.getElem_append_right hge]
    exact hT _ (List.getElem_mem _)

theorem AllocSite.holes_plain (hsite : AllocSite p id size alignment i b lead trail) :
    ∀ c ∈ lead ++ trail, c.encrypted = false := by
  intro c hc
  rw [hsite.lead_eq, hsite.trail_eq, leadHole, trailHole] at hc
  rcases List.mem_append.mp hc with hc | hc
  · split at hc
    · rw [List.mem_singleton.mp hc]
    · exact absurd hc List.not_mem_nil
  · split at hc
    · rw [List.mem_singleton.mp hc]
    · exact absurd hc List.not_mem_nil

/-- The one block of a pool that is as it was created. -/
theorem entry_fresh {cfg : SpmpPoolConfig} (hp : p = .fresh id cfg) (hfree : k < p.blocks.length) :
    k = 0 ∧ (entry p.blocks k).inUse = false ∧
      (entry p.blocks k).encrypted = decide (cfg.encrypt ≠ 0) := by
  subst hp
  obtain rfl : k = 0 := Nat.lt_one_iff.mp hfree
  exact ⟨rfl, rfl, rfl⟩

theorem holesPlain_alloc (hp : p = .fresh id p.cfg ∨ p.HolesPlain)
    (hsite : AllocSite p id size alignment i b lead trail)
    (hblocks : q.blocks = (p.blocks ++ lead ++ trail).set i
      (b.allocated (b.aligned alignment) (spmpNeeded size))) : q.HolesPlain := by
  intro k hfree
  have hlt := hsite.lt
  rw [hblocks, List.append_assoc, entry_set] at hfree ⊢
  split at hfree
  · cases hfree
  rename_i hki
  rw [if_neg hki]
  have hki : k ≠ i := by
    rintro rfl
    refine hki ⟨rfl, ?_⟩
    rw [List.length_append]
    omega
  rcases Nat.lt_or_ge k p.blocks.length with hk | hk
  · rw [entry_append_left hk] at hfree ⊢
    rcases hp with hfresh | hp
    · have hk0 := (entry_fresh hfresh hk).1
      have hi0 := (entry_fresh hfresh hlt).1
      exact absurd (hk0.trans hi0.symm) hki
    · exact hp k hfree
  · have hkl := lt_of_free hfree
    rw [entry_of_lt hkl, List.getElem_append_right hk]
    exact hsite.holes_plain _ (List.getElem_mem _)

theorem holesPlain_free (hp : p = .fresh id p.cfg ∨ p.HolesPlain) (hj : j < p.blocks.length)
    (hblocks : q.blocks = poolCoalesce (p.blocks.set j (entry p.blocks j).freed)) :
    q.HolesPlain := by
  intro k hfree
  rw [hblocks] at hfree ⊢
  obtain ⟨hfree, hflag⟩ := (flagsKept_poolCoalesce _).free k hfree
  rw [hflag]
  have hk := lt_of_free hfree
  rw [List.length_set] at hk
  rw [entry_set] at hfree ⊢
  by_cases hkj : k = j
  · rw [if_pos ⟨hkj, hj⟩]
    rfl
  · rw [if_neg fun h => hkj h.1] at hfree ⊢
    rcases hp with hfresh | hp
    · have hk0 := (entry_fresh hfresh hk).1
      have hj0 := (entry_fresh hfresh hj).1
      exact absurd (hk0.trans hj0.symm) hkj
    · exact hp k hfree

theorem SpmpBlock.inUse_of_contains (h : b.contains addr = true) :
    b.inUse = true ∧ b.addr ≤ addr ∧ addr < b.addr + b.size := by
  unfold contains at h
  simpa only [Bool.and_eq_true, decide_eq_true_eq, and_assoc] using h

theorem holesPlain_reflag (hp : p = .fresh id p.cfg ∨ p.HolesPlain) (hj : j < p.blocks.length)
    (hcontains : (entry p.blocks j).contains addr = true) (value : Bool) :
    (p.reflag j value).HolesPlain := by
  have huse := (SpmpBlock.inUse_of_contains hcontains).1
  have hp : p.HolesPlain := by
    refine hp.resolve_left fun hfresh => ?_
    rw [(entry_fresh hfresh hj).2.1] at huse
    cases huse
  intro k hfree
  unfold SpmpPool.reflag at hfree ⊢
  rw [entry_set] at hfree ⊢
  split at hfree
  · rw [show SpmpBlock.inUse _ = _ from hfree] at huse
    cases huse
  · rename_i hkj
    rw [if_neg hkj]
    exact hp k hfree

/-- A block in use stays where it is. -/
def Stays (T T' : List SpmpBlock) (k : Nat) : Prop :=
  k < T.length → (entry T k).inUse = true → k < T'.length ∧ (entry T' k).inUse = true ∧
    (entry T' k).addr = (entry T k).addr ∧ (entry T' k).size = (entry T k).size

theorem stays_of_eq (hlen : T.length ≤ T'.length)
    (h : k < T.length → (entry T k).inUse = true → entry T' k = entry T k) : Stays T T' k := by
  intro hk huse
  rw [h hk huse]
  exact ⟨Nat.lt_of_lt_of_le hk hlen, huse, rfl, rfl⟩

theorem pools_set (hget : s.pools[id]? = some p) (hpools : s'.pools = s.pools.set id q)
    (id' : Nat) :
    s'.pools[id']? = if id' = id then some q else s.pools[id']? := by
  have hlt := (List.getElem?_eq_some_iff.mp hget).1
  rw [hpools, List.getElem?_set]
  by_cases hid : id = id'
  · rw [if_pos hid, if_pos (hid ▸ hlt), if_pos hid.symm]
  · rw [if_neg hid, if_neg (Ne.symm hid)]

theorem LiveBlock.Held.of_get (h : l.Held s) (hid : l.alloc.poolId = id)
    (hget : s.pools[id]? = some p) :
    l.slot < p.blocks.length ∧ (entry p.blocks l.slot).inUse = true ∧
      (entry p.blocks l.slot).addr = l.alloc.addr ∧ (entry p.blocks l.slot).size = l.alloc.size ∧
        l.alloc.encrypted = p.cfg.encrypt := by
  obtain ⟨p', hp', h⟩ := h
  rw [hid, hget] at hp'
  cases hp'
  exact h

theorem LiveBlock.Held.set (h : l.Held s) (hget : s.pools[id]? = some p)
    (hpools : s'.pools = s.pools.set id q) (hcfg : q.cfg = p.cfg)
    (hstays : l.alloc.poolId = id → Stays p.blocks q.blocks l.slot) : l.Held s' := by
  by_cases hid : l.alloc.poolId = id
  · obtain ⟨hlt, huse, haddr, hsize, henc⟩ := h.of_get hid hget
    obtain ⟨hlt', huse', haddr', hsize'⟩ := hstays hid hlt huse
    refine ⟨q, ?_, hlt', huse', haddr'.trans haddr, hsize'.trans hsize, henc.trans ?_⟩
    · rw [pools_set hget hpools, if_pos hid]
    · rw [hcfg]
  · obtain ⟨p', hp', h⟩ := h
    refine ⟨p', ?_, h⟩
    rw [pools_set hget hpools, if_neg hid, hp']

theorem poolGet_of_active (hactive : ∀ p ∈ s.pools, p.active = true) (id : Nat) :
    s.poolGet id = s.pools[id]? := by
  unfold Spmp.poolGet
  cases hp : s.pools[id]? with
  | none => rfl
  | some p => rw [Option.filter_some, if_pos (hactive p (List.mem_of_getElem? hp))]

theorem flagged_iff (hactive : ∀ p ∈ s.pools, p.active = true) (h : l.Held s) :
    l.Flagged s ↔ ∀ p, s.pools[l.alloc.poolId]? = some p → p.cfg.encrypt ≠ 0 →
      l.decrypted = false → (entry p.blocks l.slot).encrypted = true := by
  obtain ⟨p, hp, -, huse, haddr, hsize, henc⟩ := h
  unfold LiveBlock.Flagged
  rw [poolGet_of_active hactive, hp]
  constructor
  · intro h q hq hne hdec
    cases hq
    exact (h p rfl hne hdec).2.2.2.1
  · intro h q hq hne hdec
    cases hq
    exact ⟨huse, haddr, hsize, h p rfl hne hdec, henc ▸ hne⟩

theorem AllocSite.free (hsite : AllocSite p id size alignment i b lead trail) :
    (entry p.blocks i).inUse = false := hsite.block ▸ SpmpBlock.free_of_fits hsite.fits

theorem AllocSite.lt_length (hsite : AllocSite p id size alignment i b lead trail) :
    i < (p.blocks ++ lead ++ trail).length := by
  have hlt := hsite.lt
  rw [List.append_assoc, List.length_append]
  omega

/-- The blocks in use are those before an allocation, and the one it takes. -/
theorem AllocSite.entry_inUse (hsite : AllocSite p id size alignment i b lead trail) {x : SpmpBlock}
    (hk : k < p.blocks.length) (huse : (entry p.blocks k).inUse = true) :
    entry ((p.blocks ++ lead ++ trail).set i x) k = entry p.blocks k := by
  have hki : k ≠ i := by
    rintro rfl
    rw [hsite.free] at huse
    cases huse
  rw [entry_set, if_neg fun h => hki h.1, List.append_assoc, entry_append_left hk]

theorem AllocSite.entry_taken (hsite : AllocSite p id size alignment i b lead trail)
    {x : SpmpBlock} :
    entry ((p.blocks ++ lead ++ trail).set i x) i = x := by
  rw [entry_set, if_pos ⟨rfl, hsite.lt_length⟩]

theorem AllocSite.stays (hsite : AllocSite p id size alignment i b lead trail) {x : SpmpBlock} :
    Stays p.blocks ((p.blocks ++ lead ++ trail).set i x) k := by
  apply stays_of_eq
  · rw [List.length_set, List.append_assoc, List.length_append]
    omega
  · exact hsite.entry_inUse

/-- Freeing one block leaves the others in use as they are. -/
theorem entry_free (hkj : k ≠ j) {x : SpmpBlock} (huse : (entry T k).inUse = true) :
    entry (poolCoalesce (T.set j x)) k = entry T k := by
  have hentry : entry (T.set j x) k = entry T k := by
    rw [entry_set, if_neg fun h => hkj h.1]
  rw [(flagsKept_poolCoalesce (T.set j x)).inUse k (by simp) (hentry ▸ huse), hentry]

theorem stays_free (hkj : k ≠ j) {x : SpmpBlock} : Stays T (poolCoalesce (T.set j x)) k := by
  apply stays_of_eq
  · rw [(flagsKept_poolCoalesce (T.set j x)).length, List.length_set]
  · exact fun _ huse => entry_free hkj huse

theorem entry_reflag (p : SpmpPool) (j k : Nat) (value : Bool) (hj : j < p.blocks.length) :
    entry (p.reflag j value).blocks k =
      if k = j then { entry p.blocks j with encrypted := value } else entry p.blocks k := by
  unfold SpmpPool.reflag
  rw [entry_set]
  by_cases hkj : k = j
  · rw [if_pos ⟨hkj, hj⟩, if_pos hkj]
  · rw [if_neg fun h => hkj h.1, if_neg hkj]

theorem stays_reflag (hj : j < p.blocks.length) (value : Bool) :
    Stays p.blocks (p.reflag j value).blocks k := by
  intro hk huse
  rw [entry_reflag p j k value hj]
  refine ⟨?_, ?_⟩
  · unfold SpmpPool.reflag
    rw [List.length_set]
    exact hk
  · split
    · rename_i hkj
      subst hkj
      exact ⟨huse, rfl, rfl⟩
    · exact ⟨huse, rfl, rfl⟩

theorem LiveBlock.Held.congr (h : l.Held s) (hpools : s'.pools = s.pools) : l.Held s' := by
  obtain ⟨p, hp, h⟩ := h
  exact ⟨p, hpools ▸ hp, h⟩

theorem LiveBlock.Held.append (h : l.Held s) (hpools : s'.pools = s.pools ++ [q]) : l.Held s' := by
  obtain ⟨p, hp, h⟩ := h
  have hlt := (List.getElem?_eq_some_iff.mp hp).1
  exact ⟨p, by rw [hpools, List.getElem?_append_left hlt, hp], h⟩

/-- The block an allocation takes is held by what it returns. -/
theorem AllocSite.held (hsite : AllocSite p id size alignment i b lead trail)
    (hget : s.pools[id]? = some p) (hpools : s'.pools = s.pools.set id q) (hcfg : q.cfg = p.cfg)
    (hblocks : q.blocks = (p.blocks ++ lead ++ trail).set i
      (b.allocated (b.aligned alignment) (spmpNeeded size))) :
    LiveBlock.Held s' ⟨⟨b.aligned alignment, spmpNeeded size, id, p.cfg.encrypt⟩, i, false⟩ := by
  have hentry : entry q.blocks i = b.allocated (b.aligned alignment) (spmpNeeded size) := by
    rw [hblocks, hsite.entry_taken]
  refine ⟨q, ?_, ?_, ?_, ?_, ?_, ?_⟩
  · rw [BradVector.pools_set hget hpools, if_pos rfl]
  · rw [hblocks, List.length_set]
    exact hsite.lt_length
  · rw [hentry]
    rfl
  · rw [hentry]
    rfl
  · rw [hentry]
    rfl
  · rw [hcfg]

/-- Replacing a pool keeps what holds of all pools. -/
theorem EncryptionInv.pools_set {r' : EncryptionRun} (h : EncryptionInv r)
    (hget : r.spmp.pools[id]? = some p) (hpools : r'.spmp.pools = r.spmp.pools.set id q)
    (hactive : q.active = p.active) (hq : q.HolesPlain) :
    (∀ p ∈ r'.spmp.pools, p.active = true) ∧ ∀ (id : Nat) (p : SpmpPool),
      r'.spmp.pools[id]? = some p → p = .fresh id p.cfg ∨ p.HolesPlain := by
  refine ⟨fun p' hp' => ?_, fun id' p' hp' => ?_⟩
  · rw [hpools] at hp'
    rcases List.mem_or_eq_of_mem_set hp' with hold | rfl
    · exact h.active p' hold
    · rw [hactive]
      exact h.active p (List.mem_of_getElem? hget)
  · rw [BradVector.pools_set hget hpools] at hp'
    split at hp'
    · cases hp'
      exact .inr hq
    · exact h.free id' p' hp'

theorem encryptionInv_init : EncryptionInv .init where
  initialized := rfl
  active p hp := absurd hp List.not_mem_nil
  free id p hp := by
    rw [EncryptionRun.init, spmpInit, List.getElem?_nil] at hp
    cases hp
  live l hl := absurd hl List.not_mem_nil

/-- **One call keeps the invariant.** -/
theorem EncryptionInv.step (h : EncryptionInv r) (call : SpmpCall) :
    EncryptionInv (r.step call) := by
  have hstep := EncryptionRun.step_cases h.initialized call
  have hinit := EncryptionRun.step_initialized h.initialized call
  generalize r.step call = r' at hstep hinit ⊢
  cases hstep with
  | idle call hpools hlive =>
      refine ⟨hinit, hpools ▸ h.active, hpools ▸ h.free, fun l hl => ?_⟩
      exact (h.live l (hlive ▸ hl)).congr hpools
  | create cfg hpools hlive =>
      refine ⟨hinit, fun p hp => ?_, fun id p hp => ?_, fun l hl => ?_⟩
      · rw [hpools] at hp
        rcases List.mem_append.mp hp with hold | hnew
        · exact h.active p hold
        · rw [List.mem_singleton.mp hnew]
          rfl
      · rw [hpools] at hp
        rcases Nat.lt_or_ge id r.spmp.pools.length with hlt | hge
        · rw [List.getElem?_append_left hlt] at hp
          exact h.free id p hp
        · rw [List.getElem?_append_right hge, List.getElem?_singleton] at hp
          split at hp
          · cases hp
            have hid : id = r.spmp.pools.length := by omega
            rw [hid]
            exact .inl rfl
          · cases hp
      · exact (h.live l (hlive ▸ hl)).append hpools
  | alloc id size alignment p q i b lead trail hget hsite hserves hcfg hactive hblocks hpools
    hlive =>
      rw [poolGet_of_active h.active] at hget
      obtain ⟨hactives, hfrees⟩ := h.pools_set hget hpools hactive
        (holesPlain_alloc (h.free id p hget) hsite hblocks)
      refine ⟨hinit, hactives, hfrees, fun l hl => ?_⟩
      rw [hlive] at hl
      rcases List.mem_append.mp hl with hold | hnew
      · exact (h.live l hold).set hget hpools hcfg fun _ => hblocks ▸ hsite.stays
      · rw [List.mem_singleton.mp hnew]
        exact hsite.held hget hpools hcfg hblocks
  | short id size alignment p q i b lead trail hget hsite hshort hslots hcfg hactive hblocks hpools
      hlive =>
      rw [poolGet_of_active h.active] at hget
      have hp : p.HolesPlain := by
        refine (h.free id p hget).resolve_left fun hfresh => ?_
        rw [hfresh] at hslots
        exact absurd hslots (by decide : ¬ 1 + 1 = spmpMaxBlocks)
      obtain ⟨hactives, hfrees⟩ := h.pools_set hget hpools hactive
        (holesPlain_append hp hblocks fun c hc => hsite.holes_plain c (List.mem_append_left _ hc))
      refine ⟨hinit, hactives, hfrees, fun l hl => ?_⟩
      refine (h.live l (hlive ▸ hl)).set hget hpools hcfg fun _ => ?_
      rw [hblocks]
      apply stays_of_eq
      · rw [List.length_append]
        omega
      · exact fun hk _ => entry_append_left hk
  | free a p q j hget hj hcfg hactive hblocks hpools hlive =>
      rw [poolGet_of_active h.active] at hget
      obtain ⟨hactives, hfrees⟩ := h.pools_set hget hpools hactive
        (holesPlain_free (h.free a.poolId p hget) hj hblocks)
      refine ⟨hinit, hactives, hfrees, fun l hl => ?_⟩
      rw [hlive] at hl
      obtain ⟨hmem, hne⟩ := List.mem_filter.mp hl
      refine (h.live l hmem).set hget hpools hcfg fun hid => ?_
      rw [hblocks]
      exact stays_free fun hslot => of_decide_eq_true hne ⟨hid, hslot⟩
  | encrypt addr size id p j hget hj hcontains hpools hlive =>
      obtain ⟨hactives, hfrees⟩ := h.pools_set hget hpools rfl
        (holesPlain_reflag (h.free id p hget) hj hcontains true)
      refine ⟨hinit, hactives, hfrees, fun l hl => ?_⟩
      exact (h.live l (hlive ▸ hl)).set hget hpools rfl fun _ => stays_reflag hj true
  | decrypt addr size id p j hget hj hcontains hpools hlive =>
      obtain ⟨hactives, hfrees⟩ := h.pools_set hget hpools rfl
        (holesPlain_reflag (h.free id p hget) hj hcontains false)
      refine ⟨hinit, hactives, hfrees, fun l hl => ?_⟩
      rw [hlive] at hl
      obtain ⟨l, hmem, rfl⟩ := List.mem_map.mp hl
      have hheld := (h.live l hmem).set hget hpools rfl fun _ => stays_reflag hj false
      exact hheld

/-- The flag of a live block stays when its entry keeps it, and when another pool changes. -/
theorem LiveBlock.Flagged.set (h : l.Flagged s) (hactive : ∀ p ∈ s.pools, p.active = true)
    (hactive' : ∀ p ∈ s'.pools, p.active = true) (hheld : l.Held s) (hheld' : l.Held s')
    (hget : s.pools[id]? = some p) (hpools : s'.pools = s.pools.set id q) (hcfg : q.cfg = p.cfg)
    (hkeep : l.alloc.poolId = id → l.decrypted = false →
      (entry p.blocks l.slot).encrypted = true → (entry q.blocks l.slot).encrypted = true) :
    l.Flagged s' := by
  rw [flagged_iff hactive hheld] at h
  rw [flagged_iff hactive' hheld']
  intro p' hp' hne hdec
  rw [pools_set hget hpools] at hp'
  split at hp'
  · rename_i hid
    cases hp'
    exact hkeep hid hdec (h p (hid ▸ hget) (hcfg ▸ hne) hdec)
  · exact h p' hp' hne hdec

/-- A block whose entry stays as it is keeps its flag. -/
theorem LiveBlock.Flagged.set_of_entry (h : l.Flagged s) (hactive : ∀ p ∈ s.pools, p.active = true)
    (hactive' : ∀ p ∈ s'.pools, p.active = true) (hheld : l.Held s) (hheld' : l.Held s')
    (hget : s.pools[id]? = some p) (hpools : s'.pools = s.pools.set id q) (hcfg : q.cfg = p.cfg)
    (hentry : l.alloc.poolId = id → l.slot < p.blocks.length →
      (entry p.blocks l.slot).inUse = true →
      entry q.blocks l.slot = entry p.blocks l.slot) : l.Flagged s' := by
  apply h.set hactive hactive' hheld hheld' hget hpools hcfg
  intro hid _ hflag
  obtain ⟨hlt, huse, -⟩ := hheld.of_get hid hget
  rw [hentry hid hlt huse]
  exact hflag

theorem LiveBlock.Flagged.congr (h : l.Flagged s) (hpools : s'.pools = s.pools) : l.Flagged s' := by
  unfold LiveBlock.Flagged
  rw [poolGet_congr hpools]
  exact h

theorem LiveBlock.Flagged.decrypt (h : l.Flagged s) (addr : Size) : (l.decrypt addr).Flagged s := by
  intro p hp hne hdec
  unfold LiveBlock.decrypt at hdec
  exact h p hp hne (Bool.or_eq_false_iff.mp hdec).1

/-- A flagged free block is the one its pool was created with. -/
theorem flagged_free_iff (hp : p = .fresh id p.cfg ∨ p.HolesPlain) (hne : p.cfg.encrypt ≠ 0)
    (hi : i < p.blocks.length) (hfree : (entry p.blocks i).inUse = false) :
    (entry p.blocks i).encrypted = true ↔ p = .fresh id p.cfg := by
  refine ⟨fun hflag => ?_, fun hfresh => ?_⟩
  · refine hp.resolve_right fun hplain => ?_
    rw [hplain i hfree] at hflag
    cases hflag
  · rw [(entry_fresh hfresh hi).2.2]
    exact decide_eq_true hne

/-- A block that is cut from a free one takes its flag over. -/
theorem flagged_cut_iff (hactive' : ∀ p ∈ s'.pools, p.active = true) (hheld : l.Held s')
    (hp : p = .fresh id p.cfg ∨ p.HolesPlain) (hlt : l.slot < p.blocks.length)
    (hfree : (entry p.blocks l.slot).inUse = false) (hq : s'.pools[l.alloc.poolId]? = some q)
    (hcfg : q.cfg = p.cfg) (hdec : l.decrypted = false)
    (hflag : (entry q.blocks l.slot).encrypted = (entry p.blocks l.slot).encrypted) :
    l.Flagged s' ↔ (p.cfg.encrypt ≠ 0 → p = .fresh id p.cfg) := by
  rw [flagged_iff hactive' hheld]
  constructor
  · intro hflagged hne
    rw [← flagged_free_iff hp hne hlt hfree, ← hflag]
    exact hflagged q hq (hcfg ▸ hne) hdec
  · intro hfresh q' hq' hne _
    rw [hq] at hq'
    cases hq'
    rw [hcfg] at hne
    rw [hflag, flagged_free_iff hp hne hlt hfree]
    exact hfresh hne

/-- **One call** leaves all live blocks flagged if and only if it is not an allocation that a used
pool serves. -/
theorem allFlagged_step_iff (h : EncryptionInv r) (hall : r.AllFlagged) (call : SpmpCall) :
    (r.step call).AllFlagged ↔ call.FirstUse r.spmp := by
  have hstep := EncryptionRun.step_cases h.initialized call
  have hinv := h.step call
  generalize r.step call = r' at hstep hinv ⊢
  cases hstep with
  | idle call hpools hlive hfirst =>
      refine iff_of_true (fun l hl => ?_) hfirst
      exact (hall l (hlive ▸ hl)).congr hpools
  | create cfg hpools hlive =>
      refine iff_of_true (fun l hl => ?_) trivial
      rw [hlive] at hl
      have hheld := h.live l hl
      rw [flagged_iff hinv.active (hheld.append hpools)]
      intro p hp hne hdec
      obtain ⟨p', hp', -⟩ := hheld
      have hlt := (List.getElem?_eq_some_iff.mp hp').1
      rw [hpools, List.getElem?_append_left hlt] at hp
      exact (flagged_iff h.active (h.live l hl)).mp (hall l hl) p hp hne hdec
  | alloc id size alignment p q i b lead trail hget hsite hserves hcfg hactive hblocks hpools
    hlive =>
      have hget' := hget
      rw [poolGet_of_active h.active] at hget'
      have hnew : LiveBlock.Flagged r'.spmp
          ⟨⟨b.aligned alignment, spmpNeeded size, id, p.cfg.encrypt⟩, i, false⟩ ↔
            (p.cfg.encrypt ≠ 0 → p = .fresh id p.cfg) := by
        refine flagged_cut_iff hinv.active (hinv.live _ (by rw [hlive]; simp)) (h.free id p hget')
          hsite.lt hsite.free ((pools_set hget' hpools id).trans (if_pos rfl)) hcfg rfl ?_
        rw [hblocks, hsite.entry_taken, hsite.block]
        rfl
      have hold : ∀ l ∈ r.live, l.Flagged r'.spmp := by
        intro l hl
        have hheld' : l.Held r'.spmp := hinv.live l (hlive ▸ List.mem_append_left _ hl)
        apply (hall l hl).set_of_entry h.active hinv.active (h.live l hl) hheld' hget' hpools hcfg
        intro _ hlt huse
        rw [hblocks, hsite.entry_inUse hlt huse]
      have hfirst : SpmpCall.FirstUse r.spmp (.alloc id size alignment) ↔
          (p.cfg.encrypt ≠ 0 → p = .fresh id p.cfg) := by
        refine ⟨fun hfirst hne => hfirst p hget hne hserves, fun hfresh p' hp' hne _ => ?_⟩
        rw [hget] at hp'
        cases hp'
        exact hfresh hne
      rw [hfirst, ← hnew]
      unfold EncryptionRun.AllFlagged
      rw [hlive]
      constructor
      · intro hflagged
        exact hflagged _ (List.mem_append_right _ List.mem_cons_self)
      · intro hflagged l hl
        rcases List.mem_append.mp hl with hl | hl
        · exact hold l hl
        · rw [List.mem_singleton.mp hl]
          exact hflagged
  | short id size alignment p q i b lead trail hget hsite hshort hslots hcfg hactive hblocks hpools
      hlive =>
      refine iff_of_true (fun l hl => ?_) fun p' hp' _ hserves => ?_
      · rw [poolGet_of_active h.active] at hget
        apply (hall l (hlive ▸ hl)).set_of_entry h.active hinv.active (h.live l (hlive ▸ hl))
          (hinv.live l hl) hget hpools hcfg
        intro _ hlt _
        rw [hblocks, entry_append_left hlt]
      · rw [hget] at hp'
        cases hp'
        exact absurd hserves hshort
  | free a p q j hget hj hcfg hactive hblocks hpools hlive =>
      refine iff_of_true (fun l hl => ?_) trivial
      rw [poolGet_of_active h.active] at hget
      have hl' := hl
      rw [hlive] at hl'
      obtain ⟨hmem, hne⟩ := List.mem_filter.mp hl'
      apply (hall l hmem).set_of_entry h.active hinv.active (h.live l hmem)
        (hinv.live l hl) hget hpools hcfg
      intro hid _ huse
      have hslot : l.slot ≠ j := fun hslot => of_decide_eq_true hne ⟨hid, hslot⟩
      rw [hblocks, entry_free hslot huse]
  | encrypt addr size id p j hget hj hcontains hpools hlive =>
      refine iff_of_true (fun l hl => ?_) trivial
      refine (hall l (hlive ▸ hl)).set h.active hinv.active (h.live l (hlive ▸ hl)) (hinv.live l hl)
        hget hpools rfl fun _ _ hflag => ?_
      rw [entry_reflag p j l.slot true hj]
      split
      · rfl
      · exact hflag
  | decrypt addr size id p j hget hj hcontains hpools hlive =>
      refine iff_of_true (fun l' hl' => ?_) trivial
      have hmap := hl'
      rw [hlive] at hmap
      obtain ⟨l, hl, rfl⟩ := List.mem_map.mp hmap
      refine ((hall l hl).decrypt addr).set h.active hinv.active (h.live l hl)
        (hinv.live _ hl') hget hpools rfl fun hid hdec hflag => ?_
      rw [entry_reflag p j _ false hj, if_neg]
      · exact hflag
      · -- the block that loses its flag contains the address, and so has been decrypted
        intro hslot
        obtain ⟨-, -, haddr, hsize, -⟩ := (h.live l hl).of_get hid hget
        have hslot : l.slot = j := hslot
        obtain ⟨-, hlow, hhigh⟩ := SpmpBlock.inUse_of_contains hcontains
        rw [← hslot, haddr] at hlow hhigh
        rw [hsize] at hhigh
        unfold LiveBlock.decrypt at hdec
        simp [hlow, hhigh] at hdec

end Invariant

/-- **The live blocks of pools with encryption are flagged**, as their allocations say, after every
call of a run if and only if every allocation that such a pool serves is the first one from it. -/
theorem live_blocks_flagged_iff (calls : List SpmpCall) :
    Throughout EncryptionRun.step (fun r call => (r.step call).AllFlagged) .init calls ↔
      Throughout EncryptionRun.step (fun r call => call.FirstUse r.spmp) .init calls := by
  apply throughout_iff (B := fun _ _ => True) (I := fun r => EncryptionInv r ∧ r.AllFlagged)
  · exact throughout_of_forall fun _ _ => trivial
  · exact ⟨encryptionInv_init, fun l hl => absurd hl List.not_mem_nil⟩
  · intro r call hr _
    exact allFlagged_step_iff hr.1 hr.2 call
  · intro r call hr _ hflagged
    exact ⟨hr.1.step call, hflagged⟩

/-- Two allocations from a page with encryption. -/
def encryptedTwice : List SpmpCall :=
  [.poolCreate ⟨.general, 4096, 0, 0, 1⟩, .alloc 0 64 16, .alloc 0 64 16]

theorem encryptedTwice_not_flagged :
    ¬ ∀ calls : List SpmpCall, (calls.foldl EncryptionRun.step .init).AllFlagged := by
  intro hall
  have hlast : ¬ LiveBlock.Flagged (encryptedTwice.foldl EncryptionRun.step .init).spmp
      ⟨⟨0x100000040, 64, 0, 1⟩, 1, false⟩ := by decide
  exact hlast (hall encryptedTwice _ (by decide))

end BradVector
