import BradVector.Spmp
import BradVector.Library.Tables
import Mathlib.Data.List.GetD

/-!
# Block tables

The blocks of a pool tile its range: every address of the range lies in exactly one of them, and no
other address in any. Coalescing merges a freed block with its free neighbours. The loop visits the
entries of the table in an order that has nothing to do with their addresses; that it merges all
there is to merge rests on the freed block being the only one that can have free neighbours.
-/

namespace BradVector

open CSem

namespace SpmpBlock

variable (b : SpmpBlock)

def lo : Nat := b.addr.toNat

def hi : Nat := b.addr.toNat + b.size.toNat

/-- 1 if the block holds the address. -/
def holds (x : Nat) (b : SpmpBlock) : Nat := if b.lo ≤ x ∧ x < b.hi then 1 else 0

/-- The bytes of the block that are allocated. -/
def liveSize : Nat := if b.inUse then b.size.toNat else 0

@[simp]
theorem holds_tombstone (x : Nat) : holds x tombstone = 0 :=
  if_neg fun h => Nat.not_lt_of_le h.1 h.2

@[simp]
theorem liveSize_tombstone : liveSize tombstone = 0 := rfl

theorem lo_le_hi : b.lo ≤ b.hi := Nat.le_add_right _ _

theorem holds_eq_one {b : SpmpBlock} {x : Nat} (h : b.lo ≤ x ∧ x < b.hi) : holds x b = 1 := if_pos h

theorem endAddr_toNat {b : SpmpBlock} (h : b.hi < 2 ^ 64) : b.endAddr.toNat = b.hi := by
  rw [endAddr, BitVec.toNat_add]
  exact Nat.mod_eq_of_lt h

end SpmpBlock

/-- The entry with index `i`; there is a tombstone behind the table. -/
def entry (T : List SpmpBlock) (i : Nat) : SpmpBlock := T.getD i .tombstone

/-- The blocks of the table tile the `S` addresses from `B` on, and the entries without bytes are
tombstones. -/
structure Tiles (B S : Nat) (T : List SpmpBlock) : Prop where
  cover : ∀ x, total (SpmpBlock.holds x) T = if B ≤ x ∧ x < B + S then 1 else 0
  sizes : total (fun b => b.size.toNat) T = S
  dead : ∀ b ∈ T, b.size = 0 → b = .tombstone

/-- No block reaches the last address, and no free one begins at the first. -/
structure Bounded (T : List SpmpBlock) : Prop where
  hi_lt : ∀ i, (entry T i).hi < 2 ^ 64
  lo_pos : ∀ i, (entry T i).inUse = false → 0 < (entry T i).lo

section Entries

variable {T : List SpmpBlock} {i j : Nat} {b : SpmpBlock}

theorem entry_of_lt (h : i < T.length) : entry T i = T[i] := by
  rw [entry, List.getD_eq_getElem _ _ h]

theorem entry_of_le (h : T.length ≤ i) : entry T i = .tombstone := by
  rw [entry, List.getD_eq_default _ _ h]

theorem lt_of_free (h : (entry T i).inUse = false) : i < T.length := by
  by_contra hle
  rw [entry_of_le (Nat.not_lt.mp hle)] at h
  cases h

theorem entry_set : entry (T.set i b) j = if j = i ∧ i < T.length then b else entry T j := getD_set

theorem entry_mem (h : i < T.length) : entry T i ∈ T := entry_of_lt h ▸ List.getElem_mem h

end Entries

namespace Tiles

variable {B S : Nat} {T : List SpmpBlock} (hT : Tiles B S T) {i j : Nat} {b : SpmpBlock}

include hT

theorem holds_le (x : Nat) (hb : b ∈ T) : b.holds x ≤ if B ≤ x ∧ x < B + S then 1 else 0 :=
  hT.cover x ▸ le_total hb

/-- A block lies in the range. -/
theorem in_range (hb : b ∈ T) (hsize : b.size ≠ 0) : B ≤ b.lo ∧ b.hi ≤ B + S := by
  have hpos : 0 < b.size.toNat := Nat.pos_of_ne_zero fun h => hsize (BitVec.eq_of_toNat_eq h)
  have hends : b.lo < b.hi := Nat.lt_add_of_pos_right hpos
  have hfirst := hT.holds_le b.lo hb
  have hlast := hT.holds_le (b.hi - 1) hb
  rw [SpmpBlock.holds_eq_one ⟨Nat.le_refl _, hends⟩] at hfirst
  rw [SpmpBlock.holds_eq_one ⟨by omega, by omega⟩] at hlast
  split at hfirst <;> split at hlast <;> omega

/-- Two blocks are apart. -/
theorem apart (hi : i < T.length) (hj : j < T.length) (hij : i ≠ j) :
    T[i].hi ≤ T[j].lo ∨ T[j].hi ≤ T[i].lo ∨ T[i].hi = T[i].lo ∨ T[j].hi = T[j].lo := by
  by_contra hmeet
  push Not at hmeet
  obtain ⟨hij', hji', hi', hj'⟩ := hmeet
  have hli := T[i].lo_le_hi
  have hlj := T[j].lo_le_hi
  set x := max T[i].lo T[j].lo with hx
  have hone : SpmpBlock.holds x T[i] = 1 := SpmpBlock.holds_eq_one (by omega)
  have htwo : SpmpBlock.holds x T[j] = 1 := SpmpBlock.holds_eq_one (by omega)
  have hsum : SpmpBlock.holds x T[i] + SpmpBlock.holds x T[j] ≤ total (SpmpBlock.holds x) T := by
    rcases Nat.lt_or_gt_of_ne hij with hlt | hlt
    · exact add_le_total hlt hj
    · rw [Nat.add_comm]
      exact add_le_total hlt hi
  rw [hT.cover x] at hsum
  split at hsum <;> omega

theorem free_pos (hfree : (entry T i).inUse = false) :
    (entry T i).size ≠ 0 ∧ (entry T i).lo < (entry T i).hi := by
  have hlt := lt_of_free hfree
  have hsize : (entry T i).size ≠ 0 := by
    intro h
    rw [hT.dead _ (entry_mem hlt) h] at hfree
    cases hfree
  refine ⟨hsize, Nat.lt_add_of_pos_right (Nat.pos_of_ne_zero fun h => hsize ?_)⟩
  exact BitVec.eq_of_toNat_eq h

theorem free_range (hfree : (entry T i).inUse = false) :
    B ≤ (entry T i).lo ∧ (entry T i).hi ≤ B + S :=
  hT.in_range (entry_mem (lt_of_free hfree)) (hT.free_pos hfree).1

theorem bounded (hB : 0 < B) (hS : B + S < 2 ^ 64) : Bounded T := by
  refine ⟨fun i => ?_, fun i hfree => hB.trans_le (hT.free_range hfree).1⟩
  rcases Nat.lt_or_ge i T.length with hlt | hle
  · by_cases hsize : (entry T i).size = 0
    · rw [hT.dead _ (entry_mem hlt) hsize]
      decide
    · exact (hT.in_range (entry_mem hlt) hsize).2.trans_lt hS
  · rw [entry_of_le hle]
    decide

theorem free_apart (hi : (entry T i).inUse = false) (hj : (entry T j).inUse = false) (hij : i ≠ j) :
    (entry T i).hi ≤ (entry T j).lo ∨ (entry T j).hi ≤ (entry T i).lo := by
  have hposi := (hT.free_pos hi).2
  have hposj := (hT.free_pos hj).2
  have hap := hT.apart (lt_of_free hi) (lt_of_free hj) hij
  rw [entry_of_lt (lt_of_free hi)] at hposi ⊢
  rw [entry_of_lt (lt_of_free hj)] at hposj ⊢
  omega

end Tiles

/-! ### One merge -/

/-- Two free entries of which the first ends where the second begins. -/
def Touch (T : List SpmpBlock) (u v : Nat) : Prop :=
  u ≠ v ∧ (entry T u).inUse = false ∧ (entry T v).inUse = false ∧ (entry T u).hi = (entry T v).lo

instance (T : List SpmpBlock) (u v : Nat) : Decidable (Touch T u v) :=
  inferInstanceAs (Decidable (_ ∧ _ ∧ _ ∧ _))

/-- The table with entry `q` merged into entry `p`. -/
def joined (T : List SpmpBlock) (p q : Nat) : List SpmpBlock :=
  (T.set p { entry T p with size := (entry T p).size + (entry T q).size }).set q .tombstone

/-- What merging keeps: the tiling, the allocated bytes, and the entries in use. It adds dead slots
to them. -/
structure Coalesced (B S : Nat) (T T' : List SpmpBlock) : Prop where
  tiles : Tiles B S T'
  length : T'.length = T.length
  live : total SpmpBlock.liveSize T' = total SpmpBlock.liveSize T
  inUse : ∀ k, (entry T k).inUse = true → entry T' k = entry T k
  back : ∀ k, (entry T' k).inUse = true → entry T' k = .tombstone ∨ entry T' k = entry T k

theorem Coalesced.refl {B S : Nat} {T : List SpmpBlock} (hT : Tiles B S T) : Coalesced B S T T :=
  ⟨hT, rfl, rfl, fun _ _ => rfl, fun _ _ => .inr rfl⟩

theorem Coalesced.trans {B S : Nat} {T T' T'' : List SpmpBlock} (h : Coalesced B S T T')
    (h' : Coalesced B S T' T'') : Coalesced B S T T'' where
  tiles := h'.tiles
  length := h'.length.trans h.length
  live := h'.live.trans h.live
  inUse k hk := by
    have hk' := h.inUse k hk
    exact (h'.inUse k (by rw [hk', hk])).trans hk'
  back k hk := by
    rcases h'.back k hk with hdead | hsame
    · exact .inl hdead
    · rw [hsame] at hk ⊢
      exact h.back k hk

section Merge

variable {B S : Nat} {T : List SpmpBlock} {p q u v : Nat}

theorem total_joined {w : SpmpBlock → Nat} (htouch : Touch T p q) :
    total w (joined T p q) + (w (entry T p) + w (entry T q)) =
      total w T + (w { entry T p with size := (entry T p).size + (entry T q).size } +
        w .tombstone) := by
  obtain ⟨hne, hp, hq, -⟩ := htouch
  have hp := lt_of_free hp
  have hq := lt_of_free hq
  have hfirst := total_set (w := w) (l := T) (i := p)
    (a := { entry T p with size := (entry T p).size + (entry T q).size }) hp
  set T₁ := T.set p { entry T p with size := (entry T p).size + (entry T q).size } with hT₁
  have hq₁ : q < T₁.length := by rwa [hT₁, List.length_set]
  have hkeep : T₁[q] = T[q] := List.getElem_set_ne hne _
  have hsecond := total_set (w := w) (l := T₁) (i := q) (a := .tombstone) hq₁
  rw [hkeep, ← entry_of_lt hq] at hsecond
  rw [← entry_of_lt hp] at hfirst
  rw [joined, ← hT₁]
  omega

/-- The entries after a merge. The merged block begins where the first one did and ends where the
second one did. -/
theorem entry_joined (hlt : (entry T q).hi < 2 ^ 64) (htouch : Touch T p q) :
    ∃ a : SpmpBlock, a = { entry T p with size := (entry T p).size + (entry T q).size } ∧
      a.inUse = false ∧ a.lo = (entry T p).lo ∧ a.hi = (entry T q).hi ∧
      ∀ k, entry (joined T p q) k =
        if k = q then .tombstone else if k = p then a else entry T k := by
  obtain ⟨hne, hp, hq, hhi⟩ := htouch
  have hplt := lt_of_free hp
  have hqlt := lt_of_free hq
  refine ⟨_, rfl, hp, rfl, ?_, fun k => ?_⟩
  · simp only [SpmpBlock.hi, SpmpBlock.lo] at hhi hlt ⊢
    rw [BitVec.toNat_add, Nat.mod_eq_of_lt] <;> omega
  · rw [joined, entry_set, entry_set, List.length_set]
    simp [hplt, hqlt]

/-- **A merge** of two free blocks keeps the tiling. -/
theorem coalesced_joined (hT : Tiles B S T) (hS : B + S < 2 ^ 64) (htouch : Touch T p q) :
    Coalesced B S T (joined T p q) := by
  obtain ⟨a, ha, hfree, hlo, hhi, hentry⟩ :=
    entry_joined ((hT.free_range htouch.2.2.1).2.trans_lt hS) htouch
  have htotal := fun w => total_joined (w := w) htouch
  rw [← ha] at htotal
  obtain ⟨hne, hp, hq, hmeet⟩ := htouch
  have hppos := (hT.free_pos hp).2
  have hqpos := (hT.free_pos hq).2
  refine ⟨⟨fun x => ?_, ?_, fun b hb hzero => ?_⟩, ?_, ?_, fun k hk => ?_, fun k hk => ?_⟩
  · have hsplit : a.holds x = (entry T p).holds x + (entry T q).holds x := by
      simp only [SpmpBlock.holds, hlo, hhi, hmeet]
      split_ifs <;> omega
    have hx := htotal (SpmpBlock.holds x)
    rw [SpmpBlock.holds_tombstone] at hx
    rw [← hT.cover x]
    omega
  · have hsize : a.size.toNat = (entry T p).size.toNat + (entry T q).size.toNat := by
      simp only [SpmpBlock.hi, SpmpBlock.lo] at hlo hhi hmeet
      omega
    have hx := htotal fun b => b.size.toNat
    have hdead : SpmpBlock.tombstone.size.toNat = 0 := rfl
    have hsizes := hT.sizes
    omega
  · obtain ⟨k, hk, rfl⟩ := List.getElem_of_mem hb
    rw [← entry_of_lt hk, hentry] at hzero ⊢
    split_ifs at hzero ⊢
    · rfl
    · simp only [SpmpBlock.hi, SpmpBlock.lo] at hlo hhi hppos hqpos hmeet
      rw [hzero] at hhi
      change _ + 0 = _ at hhi
      omega
    · have hlt : k < T.length := by simpa [joined] using hk
      exact hT.dead _ (entry_mem hlt) hzero
  · rw [joined, List.length_set, List.length_set]
  · have hx := htotal SpmpBlock.liveSize
    simpa [SpmpBlock.liveSize, hp, hq, hfree, SpmpBlock.tombstone] using hx
  · have hkq : k ≠ q := by
      rintro rfl
      rw [hq] at hk
      cases hk
    have hkp : k ≠ p := by
      rintro rfl
      rw [hp] at hk
      cases hk
    rw [hentry, if_neg hkq, if_neg hkp]
  · rw [hentry] at hk ⊢
    split_ifs at hk ⊢
    · exact .inl rfl
    · rw [hfree] at hk
      cases hk
    · exact .inr rfl

/-- The neighbours after a merge. -/
theorem touch_joined_iff (hT : Tiles B S T) (hS : B + S < 2 ^ 64) (htouch : Touch T p q) :
    Touch (joined T p q) u v ↔ contract (Touch T) p q u v := by
  obtain ⟨a, -, hfree, hlo, hhi, hentry⟩ :=
    entry_joined ((hT.free_range htouch.2.2.1).2.trans_lt hS) htouch
  obtain ⟨hne, hp, hq, hmeet⟩ := htouch
  have hppos := (hT.free_pos hp).2
  have hqpos := (hT.free_pos hq).2
  have htomb : SpmpBlock.tombstone.inUse = true := rfl
  unfold contract
  by_cases huq : u = q
  · simp [Touch, hentry, huq, htomb]
  by_cases hvq : v = q
  · simp [Touch, hentry, hvq, htomb]
  by_cases hup : u = p
  · by_cases hvp : v = p
    · simp [Touch, hup, hvp]
    · simp [Touch, hentry, hvq, hup, hvp, hne, hfree, hq, hhi, Ne.symm hvq, Ne.symm hvp]
  · by_cases hvp : v = p
    · simp [Touch, hentry, huq, hup, hvp, hne, hfree, hp, hlo]
    · simp [Touch, hentry, huq, hvq, hup, hvp]

end Merge

/-! ### Coalescing -/

section Coalesce

variable {B S : Nat} {T : List SpmpBlock} {i j : Nat}

/-- One round of the inner loop, on an entry that is free or has been merged away. -/
theorem mergeAt_eq (hT : Bounded T)
    (hi : (entry T i).inUse = false ∨ entry T i = .tombstone) :
    mergeAt i T j =
      if Touch T i j then joined T i j else if Touch T j i then joined T j i else T := by
  change (if j = i then T
    else if (entry T j).inUse = true then T
    else if (entry T i).endAddr = (entry T j).addr then joined T i j
    else if (entry T j).endAddr = (entry T i).addr then joined T j i else T) = _
  by_cases hji : j = i
  · rw [if_pos hji, if_neg fun h => h.1 hji.symm, if_neg fun h => h.1 hji]
  rw [if_neg hji]
  by_cases hj : (entry T j).inUse = true
  · rw [if_pos hj, if_neg, if_neg]
    · rintro ⟨-, hfree, -⟩
      rw [hj] at hfree
      cases hfree
    · rintro ⟨-, -, hfree, -⟩
      rw [hj] at hfree
      cases hfree
  rw [if_neg hj]
  rw [Bool.not_eq_true] at hj
  have hjpos := hT.lo_pos j hj
  have hjend : (entry T j).endAddr.toNat = (entry T j).hi := SpmpBlock.endAddr_toNat (hT.hi_lt j)
  have hjends := (entry T j).lo_le_hi
  rcases hi with hi | hi
  · have hiend : (entry T i).endAddr.toNat = (entry T i).hi := SpmpBlock.endAddr_toNat (hT.hi_lt i)
    have hforward : (entry T i).endAddr = (entry T j).addr ↔ Touch T i j := by
      rw [← BitVec.toNat_inj, hiend]
      exact ⟨fun h => ⟨Ne.symm hji, hi, hj, h⟩, fun h => h.2.2.2⟩
    have hback : (entry T j).endAddr = (entry T i).addr ↔ Touch T j i := by
      rw [← BitVec.toNat_inj, hjend]
      exact ⟨fun h => ⟨hji, hj, hi, h⟩, fun h => h.2.2.2⟩
    exact if_congr hforward rfl (if_congr hback rfl rfl)
  · have hlive : (entry T i).inUse = true := by rw [hi]; rfl
    have hforward : (entry T i).endAddr ≠ (entry T j).addr := by
      rw [hi]
      intro h
      have hzero : 0 = (entry T j).lo := congrArg BitVec.toNat h
      omega
    have hback : (entry T j).endAddr ≠ (entry T i).addr := by
      rw [hi]
      intro h
      have hzero := congrArg BitVec.toNat h
      rw [hjend] at hzero
      change (entry T j).hi = 0 at hzero
      omega
    rw [if_neg hforward, if_neg hback, if_neg, if_neg]
    · rintro ⟨-, -, hfree, -⟩
      rw [hlive] at hfree
      cases hfree
    · rintro ⟨-, hfree, -⟩
      rw [hlive] at hfree
      cases hfree

/-- What the inner loop of round `i` has done after `k` comparisons. -/
structure RowInv (B S : Nat) (T : List SpmpBlock) (i k : Nat) (T' : List SpmpBlock) : Prop where
  coalesced : Coalesced B S T T'
  self : (entry T' i).inUse = false ∨ entry T' i = .tombstone
  stage : Stage (Touch T') (i + 1) ∨
    Stage (Touch T') i ∧ ∀ j < k, ¬ Touch T' i j ∧ ¬ Touch T' j i

theorem RowInv.merge {k p q : Nat} {T' : List SpmpBlock} (h : RowInv B S T i k T')
    (hS : B + S < 2 ^ 64) (htouch : Touch T' p q) (hpq : p = i ∨ q = i) :
    RowInv B S T i (k + 1) (joined T' p q) := by
  have hT := h.coalesced.tiles
  have hstage : Stage (Touch T') i := by
    rcases h.stage with hdone | ⟨hstage, -⟩
    · exact hdone.of_succ
    · exact hstage
  refine ⟨h.coalesced.trans (coalesced_joined hT hS htouch), ?_, .inl ?_⟩
  · obtain ⟨a, -, hfree, -, -, hentry⟩ :=
      entry_joined ((hT.free_range htouch.2.2.1).2.trans_lt hS) htouch
    rw [hentry]
    rcases hpq with rfl | rfl
    · rw [if_neg htouch.1, if_pos rfl]
      exact .inl hfree
    · rw [if_pos rfl]
      exact .inr rfl
  · have hiff : Touch (joined T' p q) = contract (Touch T') p q := by
      funext u v
      exact propext (touch_joined_iff hT hS htouch)
    rw [hiff]
    exact hstage.contract htouch hpq

theorem RowInv.step {k : Nat} {T' : List SpmpBlock} (h : RowInv B S T i k T') (hB : 0 < B)
    (hS : B + S < 2 ^ 64) : RowInv B S T i (k + 1) (mergeAt i T' k) := by
  rw [mergeAt_eq (h.coalesced.tiles.bounded hB hS) h.self]
  split_ifs with hforward hback
  · exact h.merge hS hforward (.inl rfl)
  · exact h.merge hS hback (.inr rfl)
  · refine ⟨h.coalesced, h.self, h.stage.imp_right fun ⟨hstage, hnone⟩ => ⟨hstage, fun j hj => ?_⟩⟩
    rcases Nat.lt_succ_iff_lt_or_eq.mp hj with hlt | rfl
    · exact hnone j hlt
    · exact ⟨hforward, hback⟩

/-- **One round of the outer loop.** -/
theorem coalesceRow_stage (hT : Tiles B S T) (hB : 0 < B) (hS : B + S < 2 ^ 64)
    (hstage : Stage (Touch T) i) :
    Coalesced B S T (coalesceRow T.length T i) ∧
      Stage (Touch (coalesceRow T.length T i)) (i + 1) := by
  unfold coalesceRow
  by_cases hi : (T.getD i .tombstone).inUse = true
  · rw [if_pos hi]
    refine ⟨.refl hT, hstage.skip (fun v h => ?_) fun u h => ?_⟩
    · have hfree := h.2.1
      rw [entry, hi] at hfree
      cases hfree
    · have hfree := h.2.2.1
      rw [entry, hi] at hfree
      cases hfree
  rw [if_neg hi]
  rw [Bool.not_eq_true] at hi
  have hloop : ∀ k, RowInv B S T i k ((List.range k).foldl (mergeAt i) T) := by
    intro k
    induction k with
    | zero =>
        exact ⟨.refl hT, .inl hi, .inr ⟨hstage, fun j hj => absurd hj (Nat.not_lt_zero j)⟩⟩
    | succ k ih =>
        rw [List.range_succ, List.foldl_append]
        exact ih.step hB hS
  have hrow := hloop T.length
  refine ⟨hrow.coalesced, hrow.stage.elim id fun ⟨hstage, hnone⟩ => ?_⟩
  refine hstage.skip (fun v h => ?_) fun u h => ?_
  · exact (hnone v (hrow.coalesced.length ▸ lt_of_free h.2.2.1)).1 h
  · exact (hnone u (hrow.coalesced.length ▸ lt_of_free h.2.1)).2 h

/-- **Coalescing merges all there is to merge**, where at most one free block has free
neighbours. -/
theorem poolCoalesce_done (hT : Tiles B S T) (hB : 0 < B) (hS : B + S < 2 ^ 64)
    (hstage : Stage (Touch T) 0) :
    Coalesced B S T (poolCoalesce T) ∧ ∀ u v, ¬ Touch (poolCoalesce T) u v := by
  have hloop : ∀ k, Coalesced B S T ((List.range k).foldl (coalesceRow T.length) T) ∧
      Stage (Touch ((List.range k).foldl (coalesceRow T.length) T)) k := by
    intro k
    induction k with
    | zero => exact ⟨.refl hT, hstage⟩
    | succ k ih =>
        obtain ⟨hcoal, hstage⟩ := ih
        rw [List.range_succ, List.foldl_append]
        have hrow := coalesceRow_stage hcoal.tiles hB hS hstage
        rw [hcoal.length] at hrow
        exact ⟨hcoal.trans hrow.1, hrow.2⟩
  obtain ⟨hcoal, hstage⟩ := hloop T.length
  refine ⟨hcoal, hstage.done fun u v h => ?_⟩
  rw [← hcoal.length]
  exact ⟨lt_of_free h.2.1, lt_of_free h.2.2.1⟩

end Coalesce

end BradVector
