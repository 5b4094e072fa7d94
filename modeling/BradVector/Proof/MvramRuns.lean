import BradVector.HypercoreAtlas
import BradVector.Library.Commands
import Mathlib.Data.List.Basic

/-!
# Allocations of on-chip memory

The allocator hands out what lies behind the last allocation. It adds the size to the next address,
and the capacity to the base, and compares the two sums as 64-bit numbers. The ranges it returns are
disjoint and in memory as long as no request makes the first of the sums wrap behind the other's
back.
-/

namespace BradVector

open CSem

structure HcRequest where
  size : Size
  contextId : Nat
  deriving DecidableEq, Repr

/-- The state after a request. -/
def HcState.serve (s : HcState) (r : HcRequest) : HcState :=
  (hcMvramAlloc s r.size r.contextId).2.1

/-- The ranges that the requests return. -/
def HcState.ranges : HcState → List HcRequest → List HcMvramAlloc
  | _, [] => []
  | s, r :: rs => (hcMvramAlloc s r.size r.contextId).2.2.toList ++ (s.serve r).ranges rs

/-- The end of a range, as a true integer. -/
def HcMvramAlloc.endAddr (a : HcMvramAlloc) : Nat := a.addr.toNat + a.size.toNat

/-- The end of on-chip memory, as a true integer. -/
def HcState.mvramEnd (s : HcState) : Nat := s.mvramBase.toNat + s.sku.mvramBytes.toNat

/-- There is room for the request behind the last allocation. -/
def HcState.Fits (s : HcState) (r : HcRequest) : Prop :=
  s.mvramNextAddr.toNat + r.size.toNat ≤ s.mvramEnd

/-- The ranges returned are disjoint and in memory, and what does not fit is refused. -/
structure RangesSafe (s : HcState) (rs : List HcRequest) : Prop where
  disjoint : (s.ranges rs).Pairwise fun a b => a.endAddr ≤ b.addr.toNat ∨ b.endAddr ≤ a.addr.toNat
  inside : ∀ a ∈ s.ranges rs, s.mvramBase.toNat ≤ a.addr.toNat ∧ a.endAddr ≤ s.mvramEnd
  refused : Throughout HcState.serve
    (fun t r => ¬ t.Fits r → (hcMvramAlloc t r.size r.contextId).1 ≠ 0 ∧ t.serve r = t) s rs

/-- What the allocator looks at of a request before it computes with it. -/
def HcRequest.Wellformed (r : HcRequest) : Prop := r.size ≠ 0 ∧ r.contextId < hcMaxContexts

/-- The next address plus the size stays below `2 ^ 64`, or memory itself goes on beyond that and
the next address has not gone round yet; once it has, the request is for more than the limit, gone
round as well, has left. -/
def HcState.Unwrapped (s : HcState) (r : HcRequest) : Prop :=
  (s.mvramBase.toNat ≤ s.mvramNextAddr.toNat ∧
      (2 ^ 64 ≤ s.mvramEnd ∨ s.mvramNextAddr.toNat + r.size.toNat < 2 ^ 64)) ∨
    (s.mvramNextAddr.toNat < s.mvramBase.toNat ∧
      s.mvramNextAddr.toNat + r.size.toNat < 2 ^ 64 ∧
      s.mvramEnd < s.mvramNextAddr.toNat + r.size.toNat + 2 ^ 64)

/-- The next address without its wraparound. -/
def HcState.front (s : HcState) : Nat :=
  if s.mvramNextAddr.toNat < s.mvramBase.toNat then s.mvramNextAddr.toNat + 2 ^ 64
  else s.mvramNextAddr.toNat

/-- All that has been handed out is in memory. -/
structure HcState.Inv (s : HcState) : Prop where
  initialized : s.initialized = true
  front_le : s.front ≤ s.mvramEnd

/-- The comparison of the two sums. -/
def HcState.Accepts (s : HcState) (r : HcRequest) : Prop :=
  r.Wellformed ∧ (s.mvramNextAddr.toNat + r.size.toNat) % 2 ^ 64 ≤ s.mvramEnd % 2 ^ 64

section Alloc

variable {s : HcState} {r : HcRequest}

theorem accepts_iff :
    s.Accepts r ↔ r.Wellformed ∧ s.mvramNextAddr + r.size ≤ s.mvramBase + s.sku.mvramBytes := by
  unfold HcState.Accepts HcState.mvramEnd
  rw [BitVec.le_def, BitVec.toNat_add, BitVec.toNat_add]

theorem hcMvramAlloc_of_refused (hinit : s.initialized = true) (h : ¬ s.Accepts r) :
    ∃ ret, ret ≠ 0 ∧ hcMvramAlloc s r.size r.contextId = (ret, s, none) := by
  unfold hcMvramAlloc
  rw [hinit, if_neg (by simp)]
  by_cases hsize : r.size = 0
  · rw [if_pos hsize]
    exact ⟨_, by decide, rfl⟩
  · rw [if_neg hsize]
    by_cases hcontext : hcMaxContexts ≤ r.contextId
    · rw [if_pos hcontext]
      exact ⟨_, by decide, rfl⟩
    · have hlimit : s.mvramBase + s.sku.mvramBytes < s.mvramNextAddr + r.size := by
        by_contra hle
        exact h (accepts_iff.mpr ⟨⟨hsize, Nat.lt_of_not_le hcontext⟩, BitVec.not_lt.mp hle⟩)
      rw [if_neg hcontext]
      dsimp only
      rw [if_pos hlimit]
      exact ⟨_, by decide, rfl⟩

theorem hcMvramAlloc_of_accepts (hinit : s.initialized = true) (h : s.Accepts r) :
    (hcMvramAlloc s r.size r.contextId).2.2 = some ⟨s.mvramNextAddr, r.size, r.contextId, false⟩ ∧
      (s.serve r).initialized = true ∧ (s.serve r).mvramBase = s.mvramBase ∧
      (s.serve r).sku = s.sku ∧ (s.serve r).mvramNextAddr = s.mvramNextAddr + r.size := by
  obtain ⟨⟨hsize, hcontext⟩, hle⟩ := accepts_iff.mp h
  unfold HcState.serve hcMvramAlloc
  rw [if_neg (by simp [hinit]), if_neg hsize, if_neg (Nat.not_le.mpr hcontext)]
  dsimp only
  rw [if_neg (BitVec.not_lt.mpr hle)]
  exact ⟨rfl, hinit, rfl, rfl, rfl⟩

theorem serve_of_refused (hinit : s.initialized = true) (h : ¬ s.Accepts r) : s.serve r = s := by
  obtain ⟨ret, _, hret⟩ := hcMvramAlloc_of_refused hinit h
  unfold HcState.serve
  rw [hret]

/-- A request that the allocator accepts without a wraparound behind its back fits, and the one it
accepts otherwise leaves memory. -/
theorem unwrapped_iff (hs : s.Inv) (h : s.Accepts r) :
    s.Unwrapped r ↔ s.mvramBase.toNat ≤ s.mvramNextAddr.toNat ∧ s.Fits r := by
  obtain ⟨⟨hsize, _⟩, hle⟩ := h
  have hfront := hs.front_le
  have hbytes := s.sku.mvramBytes.isLt
  have hsizeLt := r.size.isLt
  have hbase := s.mvramBase.isLt
  have hnext := s.mvramNextAddr.isLt
  have hsizePos : 0 < r.size.toNat := by
    rw [Nat.pos_iff_ne_zero]
    exact fun hzero => hsize (BitVec.eq_of_toNat_eq hzero)
  unfold HcState.Unwrapped HcState.Fits
  unfold HcState.front at hfront
  unfold HcState.mvramEnd at *
  split at hfront <;> omega

/-- A request that the allocator refuses has not gone round behind its back. -/
theorem unwrapped_of_refused (hs : s.Inv) (hr : r.Wellformed) (h : ¬ s.Accepts r) :
    s.Unwrapped r := by
  have hlt : s.mvramEnd % 2 ^ 64 < (s.mvramNextAddr.toNat + r.size.toNat) % 2 ^ 64 := by
    by_contra hle
    exact h ⟨hr, Nat.not_lt.mp hle⟩
  have hfront := hs.front_le
  have hbytes := s.sku.mvramBytes.isLt
  have hsize := r.size.isLt
  have hbase := s.mvramBase.isLt
  have hnext := s.mvramNextAddr.isLt
  unfold HcState.Unwrapped
  unfold HcState.front at hfront
  unfold HcState.mvramEnd at *
  split at hfront <;> omega

theorem serve_base (s : HcState) (r : HcRequest) :
    (s.serve r).mvramBase = s.mvramBase ∧ (s.serve r).mvramEnd = s.mvramEnd := by
  unfold HcState.serve HcState.mvramEnd hcMvramAlloc
  dsimp only
  split_ifs <;> exact ⟨rfl, rfl⟩

/-- What a request is given starts where the last allocation ends. -/
theorem serve_of_unwrapped (hs : s.Inv) (haccepts : s.Accepts r) (h : s.Unwrapped r) :
    ∃ a, (hcMvramAlloc s r.size r.contextId).2.2 = some a ∧ s.mvramBase.toNat ≤ a.addr.toNat ∧
      a.addr.toNat = s.front ∧ a.endAddr = (s.serve r).front ∧ (s.serve r).front ≤ s.mvramEnd ∧
      (s.serve r).initialized = true := by
  obtain ⟨hin, hfits⟩ := (unwrapped_iff hs haccepts).mp h
  obtain ⟨halloc, hinit, hbase, _, hnext⟩ := hcMvramAlloc_of_accepts hs.initialized haccepts
  have hbaseLt := s.mvramBase.isLt
  have hnextLt := s.mvramNextAddr.isLt
  have hbytes := s.sku.mvramBytes.isLt
  have hfront : (s.serve r).front = s.mvramNextAddr.toNat + r.size.toNat := by
    unfold HcState.Fits HcState.mvramEnd at hfits
    unfold HcState.front
    rw [hbase, hnext, BitVec.toNat_add]
    split <;> omega
  refine ⟨_, halloc, hin, ?_, hfront.symm, hfront.trans_le hfits, hinit⟩
  unfold HcState.front
  rw [if_neg (Nat.not_lt.mpr hin)]

/-- Every well-formed request keeps the sums apart. -/
def HcState.AllUnwrapped (s : HcState) (rs : List HcRequest) : Prop :=
  Throughout HcState.serve (fun t r => r.Wellformed → t.Unwrapped r) s rs

theorem HcState.Inv.serve (hs : s.Inv) (h : r.Wellformed → s.Unwrapped r) : (s.serve r).Inv := by
  by_cases haccepts : s.Accepts r
  · obtain ⟨_, _, _, _, _, hle, hinit⟩ := serve_of_unwrapped hs haccepts (h haccepts.1)
    exact ⟨hinit, by rwa [(serve_base s r).2]⟩
  · rw [serve_of_refused hs.initialized haccepts]
    exact hs

end Alloc

section Runs

variable {s : HcState} {r : HcRequest} {rs : List HcRequest}

/-- All ranges lie behind what had been handed out before. -/
theorem ranges_behind (hs : s.Inv) (h : s.AllUnwrapped rs) :
    ∀ a ∈ s.ranges rs,
      s.front ≤ a.addr.toNat ∧ s.mvramBase.toNat ≤ a.addr.toNat ∧ a.endAddr ≤ s.mvramEnd := by
  induction rs generalizing s with
  | nil => exact nofun
  | cons r rs ih =>
      intro a ha
      have hrest := ih (hs.serve h.1) h.2
      rw [(serve_base s r).1, (serve_base s r).2] at hrest
      unfold HcState.ranges at ha
      by_cases haccepts : s.Accepts r
      · obtain ⟨first, halloc, hin, hstart, hend, hle, _⟩ :=
          serve_of_unwrapped hs haccepts (h.1 haccepts.1)
        rw [halloc] at ha
        obtain rfl | ha := List.mem_cons.mp ha
        · exact ⟨hstart.ge, hin, hend.trans_le hle⟩
        · obtain ⟨hbehind, hbase, hinside⟩ := hrest a ha
          refine ⟨le_trans ?_ hbehind, hbase, hinside⟩
          rw [← hstart, ← hend]
          exact Nat.le_add_right _ _
      · obtain ⟨ret, _, hret⟩ := hcMvramAlloc_of_refused hs.initialized haccepts
        rw [serve_of_refused hs.initialized haccepts] at ha hrest
        rw [hret] at ha
        exact hrest a ha

theorem RangesSafe.of_allUnwrapped (hs : s.Inv) (h : s.AllUnwrapped rs) : RangesSafe s rs where
  disjoint := by
    induction rs generalizing s with
    | nil => exact .nil
    | cons r rs ih =>
        have hrest := ih (hs.serve h.1) h.2
        unfold HcState.ranges
        by_cases haccepts : s.Accepts r
        · obtain ⟨first, halloc, _, _, hend, _⟩ := serve_of_unwrapped hs haccepts (h.1 haccepts.1)
          rw [halloc]
          refine List.Pairwise.cons ?_ hrest
          intro a ha
          left
          rw [hend]
          exact (ranges_behind (hs.serve h.1) h.2 a ha).1
        · obtain ⟨ret, _, hret⟩ := hcMvramAlloc_of_refused hs.initialized haccepts
          rw [hret]
          exact hrest
  inside := fun a ha => (ranges_behind hs h a ha).2
  refused := by
    apply h.imp hs
    intro t r ht hunwrapped
    refine ⟨?_, ht.serve hunwrapped⟩
    intro hfits
    have haccepts : ¬ t.Accepts r := by
      intro haccepts
      exact hfits ((unwrapped_iff ht haccepts).mp (hunwrapped haccepts.1)).2
    obtain ⟨ret, hne, hret⟩ := hcMvramAlloc_of_refused ht.initialized haccepts
    exact ⟨by rw [hret]; exact hne, serve_of_refused ht.initialized haccepts⟩

/-- A run is safe if its first request is and the others are after it. -/
theorem RangesSafe.tail (h : RangesSafe s (r :: rs)) : RangesSafe (s.serve r) rs where
  disjoint := by
    have hall := h.disjoint
    unfold HcState.ranges at hall
    exact (List.pairwise_append.mp hall).2.1
  inside := by
    intro a ha
    rw [(serve_base s r).1, (serve_base s r).2]
    apply h.inside
    unfold HcState.ranges
    exact List.mem_append_right _ ha
  refused := h.refused.2

theorem RangesSafe.unwrapped (hs : s.Inv) (h : RangesSafe s (r :: rs)) (hr : r.Wellformed) :
    s.Unwrapped r := by
  by_cases haccepts : s.Accepts r
  · rw [unwrapped_iff hs haccepts]
    have halloc := (hcMvramAlloc_of_accepts hs.initialized haccepts).1
    apply h.inside ⟨s.mvramNextAddr, r.size, r.contextId, false⟩
    unfold HcState.ranges
    rw [halloc]
    exact List.mem_cons_self
  · exact unwrapped_of_refused hs hr haccepts

theorem rangesSafe_iff_allUnwrapped (hs : s.Inv) : RangesSafe s rs ↔ s.AllUnwrapped rs := by
  constructor
  · intro h
    induction rs generalizing s with
    | nil => trivial
    | cons r rs ih =>
        have hfirst : r.Wellformed → s.Unwrapped r := h.unwrapped hs
        exact ⟨hfirst, ih (hs.serve hfirst) h.tail⟩
  · exact RangesSafe.of_allUnwrapped hs

end Runs

theorem hcInit_inv {s : HcState} {tier : Word} {mvramBase : Size}
    (h : (hcInit s tier mvramBase).1 = 0) : (hcInit s tier mvramBase).2.Inv := by
  revert h
  unfold hcInit
  split_ifs
  · exact nofun
  · exact nofun
  · cases getSkuForTier tier with
    | none => exact nofun
    | some cfg =>
        intro _
        refine ⟨rfl, ?_⟩
        unfold HcState.front HcState.mvramEnd
        rw [if_neg (Nat.lt_irrefl _)]
        exact Nat.le_add_right _ _

/-- **Ranges of on-chip memory.** After an initialisation the ranges that any requests return are
disjoint and in memory, and what does not fit is refused, exactly if no request wraps behind the
limit. -/
theorem mvram_ranges_safe_iff (s : HcState) (tier : Word) (mvramBase : Size) (rs : List HcRequest)
    (hinit : (hcInit s tier mvramBase).1 = 0) :
    RangesSafe (hcInit s tier mvramBase).2 rs ↔ (hcInit s tier mvramBase).2.AllUnwrapped rs :=
  rangesSafe_iff_allUnwrapped (hcInit_inv hinit)

theorem novaRanges_safe_iff :
    RangesSafe (hcInit .zero hc100 0x10000000).2 [⟨4096, 1⟩, ⟨64, 0⟩] ↔
      (hcInit .zero hc100 0x10000000).2.AllUnwrapped [⟨4096, 1⟩, ⟨64, 0⟩] :=
  mvram_ranges_safe_iff .zero hc100 0x10000000 _ rfl

/-- A request for all but the last 64 bytes of the address space is granted, and the next one gets
the first one's bytes. -/
theorem hugeRequest_not_safe :
    ¬ ∀ (s : HcState) (tier : Word) (mvramBase : Size) (rs : List HcRequest),
      (hcInit s tier mvramBase).1 = 0 → (∀ r ∈ rs, r.size ≠ 0) →
        RangesSafe (hcInit s tier mvramBase).2 rs := by
  intro h
  have hsafe := h .zero hc100 0x10000000 [⟨64, 0⟩, ⟨-64, 0⟩, ⟨64, 0⟩] rfl (by decide)
  have hranges : (hcInit .zero hc100 0x10000000).2.ranges [⟨64, 0⟩, ⟨-64, 0⟩, ⟨64, 0⟩] =
      [⟨0x10000000, 64, 0, false⟩, ⟨0x10000040, -64, 0, false⟩, ⟨0x10000000, 64, 0, false⟩] := by
    decide
  have hdisjoint := hsafe.disjoint
  rw [hranges] at hdisjoint
  revert hdisjoint
  unfold HcMvramAlloc.endAddr
  decide

end BradVector
