import Mathlib.Data.List.Sort
import Mathlib.Data.List.Nodup

/-!
# Stable sorting

Sorting by a key leaves elements with the same key in their order. In a list without duplicates an
element then has its place behind those with a smaller key and those of the same key that stood
before it.
-/

namespace CSem

variable {α β : Type} [LinearOrder β]

/-- The list in the order of a key, smallest first, as a stable sort leaves it. -/
def sortedBy (key : α → β) (l : List α) : List α := l.insertionSort fun a b => key a ≤ key b

/-- And largest first. -/
def sortedByDesc (key : α → β) (l : List α) : List α := l.insertionSort fun a b => key b ≤ key a

section

variable {key : α → β} {l : List α}

theorem sortedBy_perm (key : α → β) (l : List α) : (sortedBy key l).Perm l :=
  List.perm_insertionSort _ l

theorem sortedByDesc_perm (key : α → β) (l : List α) : (sortedByDesc key l).Perm l :=
  List.perm_insertionSort _ l

end

section

variable [DecidableEq α] (key : α → β) (l : List α)

/-- `b` comes behind `a` in the order of the key. -/
def Behind (a b : α) : Prop := key a < key b ∨ key a = key b ∧ l.idxOf a < l.idxOf b

instance (a b : α) : Decidable (Behind key l a b) := inferInstanceAs (Decidable (_ ∨ _))

variable {key l} {a b : α}

theorem Behind.asymm (h : Behind key l a b) : ¬ Behind key l b a := by
  rcases h with hlt | ⟨heq, hidx⟩
  · rintro (hlt' | ⟨heq', -⟩)
    · exact lt_asymm hlt hlt'
    · exact hlt.ne heq'.symm
  · rintro (hlt' | ⟨-, hidx'⟩)
    · exact hlt'.ne heq.symm
    · exact Nat.lt_asymm hidx hidx'

theorem pairwise_idxOf_lt (hl : l.Nodup) : l.Pairwise fun a b => l.idxOf a < l.idxOf b := by
  rw [List.pairwise_iff_getElem]
  intro i j hi hj hij
  rw [hl.idxOf_getElem, hl.idxOf_getElem]
  exact hij

theorem pair_sublist_of_idxOf_lt (hb : b ∈ l) (h : l.idxOf a < l.idxOf b) : [a, b].Sublist l := by
  have hblt : l.idxOf b < l.length := List.idxOf_lt_length_iff.mpr hb
  have hatake : a ∈ l.take (l.idxOf b) := by
    rw [List.mem_take_iff_getElem]
    exact ⟨l.idxOf a, by omega, List.getElem_idxOf (by omega)⟩
  have hbdrop : b ∈ l.drop (l.idxOf b) := by
    rw [List.drop_eq_getElem_cons hblt, List.getElem_idxOf]
    exact List.mem_cons_self
  rw [← List.take_append_drop (l.idxOf b) l]
  exact (List.singleton_sublist.mpr hatake).append (List.singleton_sublist.mpr hbdrop)

/-- **A stable sort** puts every element behind those before it. -/
theorem pairwise_sortedBy (hl : l.Nodup) : (sortedBy key l).Pairwise (Behind key l) := by
  have hsorted : (sortedBy key l).Nodup := (sortedBy_perm key l).nodup_iff.mpr hl
  have htotal : Std.Total fun a b : α => key a ≤ key b := ⟨fun a b => le_total _ _⟩
  have htrans : IsTrans α fun a b => key a ≤ key b := ⟨fun _ _ _ => le_trans⟩
  apply List.pairwise_of_forall_sublist
  intro a b hab
  have hle : key a ≤ key b := by
    have hkeys : (sortedBy key l).Pairwise fun a b => key a ≤ key b :=
      List.pairwise_insertionSort (fun a b => key a ≤ key b) l
    exact hkeys.forall_sublist hab
  rcases hle.lt_or_eq with hlt | heq
  · exact .inl hlt
  refine .inr ⟨heq, ?_⟩
  have hidx := (pairwise_idxOf_lt hsorted).forall_sublist hab
  by_contra hge
  have hmem (c : α) (hc : c ∈ [a, b]) : c ∈ l := (sortedBy_perm key l).mem_iff.mp (hab.subset hc)
  have hne : l.idxOf a ≠ l.idxOf b := by
    intro h
    rw [(List.idxOf_inj (hmem a (by simp))).mp h] at hidx
    exact Nat.lt_irrefl _ hidx
  have hba : [b, a].Sublist l := pair_sublist_of_idxOf_lt (hmem a (by simp)) (by omega)
  have hswapped : [b, a].Sublist (sortedBy key l) :=
    List.pair_sublist_insertionSort (r := fun a b => key a ≤ key b) heq.ge hba
  exact Nat.lt_asymm hidx ((pairwise_idxOf_lt hsorted).forall_sublist hswapped)

/-- **An element is among the first `k`** unless enough others are behind it. -/
theorem mem_take_sortedBy_iff (hl : l.Nodup) (ha : a ∈ l) (k : Nat) :
    a ∈ (sortedBy key l).take k ↔ l.length ≤ k + l.countP (Behind key l a ·) := by
  have hperm := sortedBy_perm key l
  have hpairs : (sortedBy key l).Pairwise (Behind key l) := pairwise_sortedBy hl
  have hnodup : (sortedBy key l).Nodup := hperm.nodup_iff.mpr hl
  obtain ⟨before, after, hsplit⟩ := List.append_of_mem (hperm.mem_iff.mpr ha)
  have hlength := hperm.length_eq
  rw [hsplit] at hpairs hnodup hlength
  have hcount : l.countP (Behind key l a ·) = after.length := by
    rw [← hperm.countP_eq, hsplit, List.countP_append, List.countP_cons]
    rw [List.pairwise_append, List.pairwise_cons] at hpairs
    obtain ⟨-, ⟨hafter, -⟩, hbefore⟩ := hpairs
    have hnone : before.countP (Behind key l a ·) = 0 := by
      rw [List.countP_eq_zero]
      intro b hb
      rw [decide_eq_true_eq]
      exact (hbefore b hb a List.mem_cons_self).asymm
    have hall : after.countP (Behind key l a ·) = after.length := by
      rw [List.countP_eq_length]
      intro b hb
      exact decide_eq_true (hafter b hb)
    have hself : ¬ Behind key l a a := fun h => h.asymm h
    rw [hnone, hall, if_neg (by simpa using hself)]
    omega
  rw [List.length_append, List.length_cons] at hlength
  rw [hcount, hsplit, List.take_append, List.mem_append]
  have hout : a ∉ before := by
    intro h
    exact (List.disjoint_of_nodup_append hnodup) h List.mem_cons_self
  constructor
  · rintro (h | h)
    · exact absurd (List.mem_of_mem_take h) hout
    · by_contra hlt
      rw [show k - before.length = 0 by omega] at h
      cases h
  · intro h
    right
    obtain ⟨j, hj⟩ : ∃ j, k - before.length = j + 1 := ⟨k - before.length - 1, by omega⟩
    rw [hj, List.take_succ_cons]
    exact List.mem_cons_self

end

end CSem
