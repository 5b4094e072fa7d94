import BradVector.Proof.FreeSets

/-!
# Coalescing any table

One pass of `pool_coalesce` merges all adjacent free blocks, however many there are. Of two blocks
that are merged the lower one survives, so that an entry keeps the address it begins at until it is
merged away. In its own round it is therefore merged into the block that ends there, if it has not
been by then, and later rounds only lengthen blocks up to ends that other blocks had.
-/

namespace BradVector

open CSem

/-- The blocks of a table are disjoint, not empty, at 4 GiB or above and end below `2 ^ 64`.
Tombstones are exempt. -/
structure BlocksApart (T : List SpmpBlock) : Prop where
  size_ne : ∀ b ∈ T, b ≠ .tombstone → b.size ≠ 0
  base_le : ∀ b ∈ T, b ≠ .tombstone → 2 ^ 32 ≤ b.lo
  hi_lt : ∀ b ∈ T, b ≠ .tombstone → b.hi < 2 ^ 64
  apart : ∀ i j, i ≠ j → entry T i ≠ .tombstone → entry T j ≠ .tombstone →
    (entry T i).hi ≤ (entry T j).lo ∨ (entry T j).hi ≤ (entry T i).lo

/-- The live blocks are the same, in the same entries. -/
def SameLive (T T' : List SpmpBlock) : Prop :=
  ∀ i b, b.inUse = true → b ≠ .tombstone → (entry T' i = b ↔ entry T i = b)

/-- No free block ends where the entry begins, if that is free. -/
def LeftDone (T : List SpmpBlock) (k : Nat) : Prop := ∀ m, ¬ Touch T m k

section Merge

variable {T T' T'' : List SpmpBlock} {p q i j k m : Nat}

theorem BlocksApart.bounded (hT : BlocksApart T) : Bounded T := by
  rw [bounded_iff]
  intro b hb
  by_cases hdead : b = .tombstone
  · subst hdead
    decide
  · refine ⟨hT.hi_lt b hb hdead, fun _ => ?_⟩
    have hbase := hT.base_le b hb hdead
    omega

theorem SameLive.refl (T : List SpmpBlock) : SameLive T T := fun _ _ _ _ => Iff.rfl

theorem SameLive.trans (h : SameLive T T') (h' : SameLive T' T'') : SameLive T T'' :=
  fun i b huse hb => (h' i b huse hb).trans (h i b huse hb)

theorem SameLive.joined (hT : Bounded T) (htouch : Touch T p q) : SameLive T (joined T p q) := by
  obtain ⟨a, -, hfree, -, -, hentry⟩ := entry_joined (hT.hi_lt q) htouch
  obtain ⟨-, hp, hq, -⟩ := htouch
  intro i b huse hb
  rw [hentry]
  split_ifs with hiq hip
  · subst hiq
    constructor
    · exact fun h => absurd h.symm hb
    · rintro rfl
      rw [hq] at huse
      cases huse
  · subst hip
    constructor
    · rintro rfl
      rw [hfree] at huse
      cases huse
    · rintro rfl
      rw [hp] at huse
      cases huse
  · exact Iff.rfl

/-- What touches after a merge: the merged block ends where the second one did and begins where the
first one did, and everything else is as before. -/
theorem touch_of_joined (hT : Bounded T) (htouch : Touch T p q) (h : Touch (joined T p q) m k) :
    m ≠ q ∧ k ≠ q ∧ (Touch T m k ∨ m = p ∧ Touch T q k) := by
  obtain ⟨a, -, -, hlo, hhi, hentry⟩ := entry_joined (hT.hi_lt q) htouch
  obtain ⟨-, hp, hq, -⟩ := htouch
  obtain ⟨hmk, hm, hk, hmeet⟩ := h
  rw [hentry] at hm hk
  rw [hentry, hentry] at hmeet
  have hmq : m ≠ q := by
    rintro rfl
    rw [if_pos rfl] at hm
    cases hm
  have hkq : k ≠ q := by
    rintro rfl
    rw [if_pos rfl] at hk
    cases hk
  rw [if_neg hmq] at hm hmeet
  rw [if_neg hkq] at hk hmeet
  refine ⟨hmq, hkq, ?_⟩
  by_cases hmp : m = p
  · have hkp : k ≠ p := fun hkp => hmk (hmp.trans hkp.symm)
    rw [if_neg hkp] at hk hmeet
    rw [if_pos hmp, hhi] at hmeet
    exact .inr ⟨hmp, Ne.symm hkq, hq, hk, hmeet⟩
  · rw [if_neg hmp] at hm hmeet
    by_cases hkp : k = p
    · rw [if_pos hkp, hlo] at hmeet
      subst hkp
      exact .inl ⟨hmk, hm, hp, hmeet⟩
    · rw [if_neg hkp] at hk hmeet
      exact .inl ⟨hmk, hm, hk, hmeet⟩

/-- **A merge** gives no block a new neighbour below. -/
theorem LeftDone.joined (hT : Bounded T) (htouch : Touch T p q) (hk : LeftDone T k) :
    LeftDone (joined T p q) k := by
  intro m h
  obtain ⟨-, -, hold | ⟨-, hold⟩⟩ := touch_of_joined hT htouch h
  · exact hk m hold
  · exact hk q hold

end Merge

/-! ### The pass -/

/-- What the first `i` rounds of `pool_coalesce` have made of the table. -/
structure Coalescing (T : List SpmpBlock) (i : Nat) (T' : List SpmpBlock) : Prop where
  free : FreeKept T T'
  live : SameLive T T'
  length : T'.length = T.length
  left : ∀ k < i, LeftDone T' k

/-- And what the first `j` comparisons of round `i` have. -/
structure CoalescingRow (T : List SpmpBlock) (i j : Nat) (T' : List SpmpBlock) : Prop
    extends Coalescing T i T' where
  self : (entry T' i).inUse = false ∨ entry T' i = .tombstone
  below : ∀ m < j, ¬ Touch T' m i

section Pass

variable {T T' : List SpmpBlock} {p q i j : Nat}

theorem Coalescing.joined (h : Coalescing T i T') (htouch : Touch T' p q) :
    Coalescing T i (joined T' p q) where
  free := h.free.trans (h.free.bounded.joined htouch)
  live := h.live.trans (.joined h.free.bounded htouch)
  length := by rw [BradVector.joined, List.length_set, List.length_set, h.length]
  left k hk := (h.left k hk).joined h.free.bounded htouch

/-- **One comparison.** -/
theorem CoalescingRow.step (h : CoalescingRow T i j T') :
    CoalescingRow T i (j + 1) (mergeAt i T' j) := by
  have hT := h.free.bounded
  rw [mergeAt_eq hT h.self]
  split_ifs with hforward hback
  · obtain ⟨a, -, hfree, -, -, hentry⟩ := entry_joined (hT.hi_lt j) hforward
    refine ⟨h.toCoalescing.joined hforward, .inl ?_, fun m hm htouch => ?_⟩
    · rw [hentry, if_neg hforward.1, if_pos rfl]
      exact hfree
    · obtain ⟨hmj, -, hold | ⟨hmi, -⟩⟩ := touch_of_joined hT hforward htouch
      · exact h.below m (by omega) hold
      · exact htouch.1 hmi
  · obtain ⟨a, -, -, -, -, hentry⟩ := entry_joined (hT.hi_lt i) hback
    refine ⟨h.toCoalescing.joined hback, .inr ?_, fun m _ htouch => ?_⟩
    · rw [hentry, if_pos rfl]
    · exact (touch_of_joined hT hback htouch).2.1 rfl
  · refine ⟨h.toCoalescing, h.self, fun m hm => ?_⟩
    rcases Nat.lt_succ_iff_lt_or_eq.mp hm with hlt | rfl
    · exact h.below m hlt
    · exact hback

/-- **One round.** The entry it is about has no neighbour below when it ends. -/
theorem Coalescing.row (h : Coalescing T i T') :
    Coalescing T (i + 1) (coalesceRow T.length T' i) := by
  unfold coalesceRow
  by_cases huse : (T'.getD i .tombstone).inUse = true
  · rw [if_pos huse]
    refine ⟨h.free, h.live, h.length, fun k hk => ?_⟩
    rcases Nat.lt_succ_iff_lt_or_eq.mp hk with hlt | rfl
    · exact h.left k hlt
    · intro m htouch
      have hfree := htouch.2.2.1
      rw [entry, huse] at hfree
      cases hfree
  rw [if_neg huse]
  rw [Bool.not_eq_true] at huse
  have hloop : ∀ j, CoalescingRow T i j ((List.range j).foldl (mergeAt i) T') := by
    intro j
    induction j with
    | zero => exact ⟨h, .inl huse, fun m hm => absurd hm (Nat.not_lt_zero m)⟩
    | succ j ih =>
        rw [List.range_succ, List.foldl_append]
        exact ih.step
  have hrow := hloop T.length
  refine ⟨hrow.free, hrow.live, hrow.length, fun k hk => ?_⟩
  rcases Nat.lt_succ_iff_lt_or_eq.mp hk with hlt | rfl
  · exact hrow.left k hlt
  · intro m htouch
    have hm := lt_of_free htouch.2.1
    rw [hrow.length] at hm
    exact hrow.below m hm htouch

theorem Bounded.coalescing (hT : Bounded T) :
    Coalescing T T.length (BradVector.poolCoalesce T) := by
  have hloop : ∀ i, Coalescing T i ((List.range i).foldl (BradVector.coalesceRow T.length) T) := by
    intro i
    induction i with
    | zero => exact ⟨⟨hT, fun _ => rfl⟩, .refl T, rfl, fun k hk => absurd hk (Nat.not_lt_zero k)⟩
    | succ i ih =>
        rw [List.range_succ, List.foldl_append]
        exact ih.row
  exact hloop T.length

end Pass

/-- **Coalescing** leaves the live blocks and the free addresses as they are and no two free blocks
that touch. -/
theorem poolCoalesce_complete {T : List SpmpBlock} (hT : BlocksApart T) :
    SameLive T (poolCoalesce T) ∧ freeSet (poolCoalesce T) = freeSet T ∧
      ∀ u v, ¬ Touch (poolCoalesce T) u v := by
  have hpass := hT.bounded.coalescing
  refine ⟨hpass.live, freeSet_congr hpass.free.free, fun u v htouch => ?_⟩
  have hv := lt_of_free htouch.2.2.1
  rw [hpass.length] at hv
  exact hpass.left v hv u htouch

/-- Four free blocks in a row, the table being out of order, with a live one behind them. -/
def shuffledTable : List SpmpBlock :=
  [⟨0x100000200, 0x100, 0, false, false⟩, ⟨0x100000000, 0x100, 0, false, false⟩, .tombstone,
    ⟨0x100000400, 0x100, 0, true, false⟩, ⟨0x100000300, 0x100, 0, false, false⟩,
    ⟨0x100000100, 0x100, 0, false, false⟩]

theorem shuffledTable_apart : BlocksApart shuffledTable := by
  have hpairs : ∀ i j : Fin 6, i ≠ j → entry shuffledTable i ≠ .tombstone →
      entry shuffledTable j ≠ .tombstone →
      (entry shuffledTable i).hi ≤ (entry shuffledTable j).lo ∨
        (entry shuffledTable j).hi ≤ (entry shuffledTable i).lo := by decide
  refine ⟨by decide, by decide, by decide, fun i j hij hi hj => ?_⟩
  have hlt (k : Nat) (hk : entry shuffledTable k ≠ .tombstone) : k < 6 := by
    by_contra hle
    exact hk (entry_of_le (Nat.not_lt.mp hle))
  exact hpairs ⟨i, hlt i hi⟩ ⟨j, hlt j hj⟩ (fun h => hij (Fin.mk.inj h)) hi hj

theorem poolCoalesce_complete_shuffled :
    SameLive shuffledTable (poolCoalesce shuffledTable) ∧
      freeSet (poolCoalesce shuffledTable) = freeSet shuffledTable ∧
      ∀ u v, ¬ Touch (poolCoalesce shuffledTable) u v :=
  poolCoalesce_complete shuffledTable_apart

end BradVector
