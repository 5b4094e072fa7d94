import BradVector.Spmp
import Mathlib.Data.List.Induction
import Mathlib.Tactic.SplitIfs

/-!
# Mappings

The mappings along a run of `spmp_map` and `spmp_unmap` calls. Two things come between them and
their purpose. The ends of the intervals are compared in 64-bit arithmetic, where the end of an
interval that reaches past the last address is a small number. And a mapping that is unmapped keeps
its entry in the table, so that the 257th mapping fails however few of the others are left.
-/

namespace BradVector

open CSem

inductive SpmpMapOp where
  | map (addr size : Size)
  | unmap (addr size : Size)
  deriving DecidableEq, Repr

namespace SpmpMapEntry

/-- The mapping and the `size` integers from `addr` on have one in common. -/
def Overlaps (m : SpmpMapEntry) (addr size : Size) : Prop :=
  ∃ x : Nat, (m.addr.toNat ≤ x ∧ x < m.addr.toNat + m.size.toNat) ∧
    addr.toNat ≤ x ∧ x < addr.toNat + size.toNat

/-- They overlap, and neither end is past the last address; or so far past it that what remains of
it after wrapping is still behind the start of the other. -/
def Seen (m : SpmpMapEntry) (addr size : Size) : Prop :=
  m.Overlaps addr size ∧
    (m.addr.toNat + m.size.toNat < 2 ^ 64 ∨ addr.toNat + 2 ^ 64 < m.addr.toNat + m.size.toNat) ∧
    (addr.toNat + size.toNat < 2 ^ 64 ∨ m.addr.toNat + 2 ^ 64 < addr.toNat + size.toNat)

end SpmpMapEntry

namespace Spmp

def activeMaps (s : Spmp) : List SpmpMapEntry := s.maps.filter (·.active)

def mapStep (s : Spmp) : SpmpMapOp → Spmp
  | .map addr size => (spmpMap s addr size).2.1
  | .unmap addr size => (spmpUnmap s addr size).2

/-- The state after the calls. -/
def mapAll (ops : List SpmpMapOp) : Spmp := ops.foldl mapStep spmpInit

def MapsDisjoint (s : Spmp) : Prop :=
  s.activeMaps.Pairwise fun m n => ¬ m.Overlaps n.addr n.size

/-- The call succeeds if it is due to. -/
def Maps (s : Spmp) (addr size : Size) : Prop :=
  addr ≠ 0 → size ≠ 0 → (∀ m ∈ s.activeMaps, ¬ m.Overlaps addr size) →
    s.activeMaps.length < spmpMaxMaps → (spmpMap s addr size).1 = 0

/-- If the interval overlaps an active mapping then the table is full, or one of the overlaps is
seen; and if it overlaps none, and fewer than 256 mappings are active, then the table is not
full. -/
def Copes (s : Spmp) (addr size : Size) : Prop :=
  addr ≠ 0 → size ≠ 0 →
    ((∃ m ∈ s.activeMaps, m.Overlaps addr size) →
      spmpMaxMaps ≤ s.maps.length ∨ ∃ m ∈ s.activeMaps, m.Seen addr size) ∧
    ((∀ m ∈ s.activeMaps, ¬ m.Overlaps addr size) → s.activeMaps.length < spmpMaxMaps →
      s.maps.length < spmpMaxMaps)

/-- In every state reached on the way the active mappings are disjoint, and every mapping that is
due to succeed does, also where the table holds entries that have been unmapped. -/
structure MapsHold (ops : List SpmpMapOp) : Prop where
  disjoint : ∀ before, before <+: ops → (mapAll before).MapsDisjoint
  succeeds : ∀ before addr size, before ++ [.map addr size] <+: ops → (mapAll before).Maps addr size

end Spmp

section Maps

variable {s : Spmp} {m : SpmpMapEntry} {addr size : Size} {ops : List SpmpMapOp}

theorem overlaps_iff_lt (hm : m.size ≠ 0) (hsize : size ≠ 0) : m.Overlaps addr size ↔
    m.addr.toNat < addr.toNat + size.toNat ∧ addr.toNat < m.addr.toNat + m.size.toNat := by
  have hmpos : 0 < m.size.toNat := Nat.pos_of_ne_zero fun h => hm (BitVec.eq_of_toNat_eq h)
  have hpos : 0 < size.toNat := Nat.pos_of_ne_zero fun h => hsize (BitVec.eq_of_toNat_eq h)
  refine ⟨fun ⟨x, hx⟩ => by omega, fun ⟨hma, ham⟩ => ?_⟩
  exact ⟨max m.addr.toNat addr.toNat, by omega⟩

/-- **The test of `map_find`.** -/
theorem meets_iff_seen (hm : m.size ≠ 0) (hsize : size ≠ 0) :
    m.meets addr size = true ↔ m.active = true ∧ m.Seen addr size := by
  have hmend := m.size.isLt
  have hend := size.isLt
  have haddr := addr.isLt
  have hmaddr := m.addr.isLt
  rw [SpmpMapEntry.meets, SpmpMapEntry.Seen, overlaps_iff_lt hm hsize, Bool.and_eq_true,
    Bool.and_eq_true, decide_eq_true_eq, decide_eq_true_eq, BitVec.lt_def, BitVec.lt_def,
    BitVec.toNat_add, BitVec.toNat_add, and_assoc]
  refine and_congr_right fun _ => ?_
  omega

theorem mapFind_isSome : (mapFind s.maps addr size).isSome ↔
    ∃ m ∈ s.maps, m.meets addr size = true := by
  rw [mapFind, List.findIdx?_isSome, List.any_eq_true]

/-- The states in which the calls are made. -/
structure MapsInv (s : Spmp) : Prop where
  initialized : s.initialized = true
  sizes : ∀ m ∈ s.maps, m.size ≠ 0

theorem MapsInv.find (hs : MapsInv s) (hsize : size ≠ 0) : (mapFind s.maps addr size).isSome ↔
    ∃ m ∈ s.activeMaps, m.Seen addr size := by
  rw [mapFind_isSome]
  refine ⟨fun ⟨m, hm, hmeets⟩ => ?_, fun ⟨m, hm, hseen⟩ => ?_⟩
  · obtain ⟨hactive, hseen⟩ := (meets_iff_seen (hs.sizes m hm) hsize).mp hmeets
    exact ⟨m, List.mem_filter.mpr ⟨hm, hactive⟩, hseen⟩
  · obtain ⟨hmem, hactive⟩ := List.mem_filter.mp hm
    exact ⟨m, hmem, (meets_iff_seen (hs.sizes m hmem) hsize).mpr ⟨hactive, hseen⟩⟩

/-- What `spmp_map` does. -/
theorem spmpMap_cases (hs : MapsInv s) (addr size : Size) :
    ((addr = 0 ∨ size = 0 ∨ (∃ m ∈ s.activeMaps, m.Seen addr size) ∨
        spmpMaxMaps ≤ s.maps.length) ∧
      (spmpMap s addr size).1 ≠ 0 ∧ (spmpMap s addr size).2.1 = s) ∨
    (addr ≠ 0 ∧ size ≠ 0 ∧ (∀ m ∈ s.activeMaps, ¬ m.Seen addr size) ∧
      s.maps.length < spmpMaxMaps ∧ (spmpMap s addr size).1 = 0 ∧
      (spmpMap s addr size).2.1.initialized = true ∧
      (spmpMap s addr size).2.1.maps = s.maps ++ [⟨addr, size, s.maps.length, true⟩]) := by
  unfold spmpMap
  rw [if_neg (not_not_intro hs.initialized)]
  by_cases hzero : addr = 0 ∨ size = 0
  · rw [if_pos hzero]
    exact .inl ⟨hzero.imp_right .inl, (by decide : -einval ≠ 0), rfl⟩
  rw [if_neg hzero]
  obtain ⟨haddr, hsize⟩ := not_or.mp hzero
  by_cases hfind : (mapFind s.maps addr size).isSome
  · rw [if_pos hfind]
    exact .inl ⟨.inr (.inr (.inl ((hs.find hsize).mp hfind))), (by decide : -eexist ≠ 0), rfl⟩
  rw [if_neg hfind]
  by_cases hfull : spmpMaxMaps ≤ s.maps.length
  · rw [if_pos hfull]
    exact .inl ⟨.inr (.inr (.inr hfull)), (by decide : -enospc ≠ 0), rfl⟩
  · rw [if_neg hfull]
    refine .inr ⟨haddr, hsize, fun m hm hseen => ?_, Nat.lt_of_not_le hfull, rfl, hs.initialized,
      rfl⟩
    exact hfind ((hs.find hsize).mpr ⟨m, hm, hseen⟩)

/-- What `spmp_unmap` does: it deactivates an entry, or nothing. -/
theorem spmpUnmap_cases (s : Spmp) (addr size : Size) :
    (spmpUnmap s addr size).2.initialized = s.initialized ∧
      ((spmpUnmap s addr size).2.maps = s.maps ∨
        ∃ i, (spmpUnmap s addr size).2.maps =
          s.maps.modify i fun m => { m with active := false }) := by
  unfold spmpUnmap
  split
  · exact ⟨rfl, .inl rfl⟩
  split
  · exact ⟨rfl, .inl rfl⟩
  cases mapFind s.maps addr size with
  | none => exact ⟨rfl, .inl rfl⟩
  | some i => exact ⟨rfl, .inr ⟨i, rfl⟩⟩

/-- Deactivating entries only shortens the list of the active ones. -/
theorem filter_modify_sublist (maps : List SpmpMapEntry) (i : Nat) :
    List.Sublist ((maps.modify i fun m => { m with active := false }).filter (·.active))
      (maps.filter (·.active)) := by
  induction maps generalizing i with
  | nil => simp
  | cons m maps ih =>
      cases i with
      | zero =>
          rw [List.modify_zero_cons, List.filter_cons_of_neg Bool.false_ne_true]
          exact (List.sublist_cons_self m maps).filter _
      | succ i =>
          rw [List.modify_succ_cons, List.filter_cons, List.filter_cons]
          split
          · exact (ih i).cons_cons m
          · exact ih i

theorem mem_modify_size {maps : List SpmpMapEntry} {i : Nat} (h : ∀ m ∈ maps, m.size ≠ 0)
    (hm : m ∈ maps.modify i fun m => { m with active := false }) : m.size ≠ 0 := by
  induction maps generalizing i with
  | nil => simp at hm
  | cons m' maps ih =>
      cases i with
      | zero =>
          rw [List.modify_zero_cons] at hm
          rcases List.mem_cons.mp hm with rfl | hm
          · exact h m' List.mem_cons_self
          · exact h m (List.mem_cons_of_mem _ hm)
      | succ i =>
          rw [List.modify_succ_cons] at hm
          rcases List.mem_cons.mp hm with rfl | hm
          · exact h m List.mem_cons_self
          · exact ih (fun m hm => h m (List.mem_cons_of_mem _ hm)) hm

theorem MapsInv.step (hs : MapsInv s) (op : SpmpMapOp) : MapsInv (s.mapStep op) := by
  cases op with
  | map addr size =>
      rcases spmpMap_cases hs addr size with ⟨-, -, heq⟩ | ⟨-, hsize, -, -, -, hinit, hmaps⟩
      · rw [Spmp.mapStep, heq]
        exact hs
      · refine ⟨hinit, fun m hm => ?_⟩
        rw [Spmp.mapStep, hmaps] at hm
        rcases List.mem_append.mp hm with hold | hnew
        · exact hs.sizes m hold
        · rw [List.mem_singleton.mp hnew]
          exact hsize
  | unmap addr size =>
      obtain ⟨hinit, hmaps⟩ := spmpUnmap_cases s addr size
      refine ⟨hinit.trans hs.initialized, fun m hm => ?_⟩
      rw [Spmp.mapStep] at hm
      rcases hmaps with heq | ⟨i, heq⟩
      · exact hs.sizes m (heq ▸ hm)
      · exact mem_modify_size hs.sizes (heq ▸ hm)

theorem mapsInv_mapAll (ops : List SpmpMapOp) : MapsInv (Spmp.mapAll ops) := by
  induction ops using List.reverseRecOn with
  | nil => exact ⟨rfl, fun m hm => absurd hm List.not_mem_nil⟩
  | append_singleton ops op ih =>
      rw [Spmp.mapAll, List.foldl_append]
      exact ih.step op

/-- Unmapping keeps the mappings disjoint. -/
theorem disjoint_unmap (h : s.MapsDisjoint) (addr size : Size) :
    (s.mapStep (.unmap addr size)).MapsDisjoint := by
  unfold Spmp.MapsDisjoint Spmp.activeMaps at h ⊢
  rw [Spmp.mapStep]
  rcases (spmpUnmap_cases s addr size).2 with heq | ⟨i, heq⟩
  · rw [heq]
    exact h
  · rw [heq]
    exact h.sublist (filter_modify_sublist s.maps i)

/-- **One mapping.** It does what it must exactly where the table copes with it. -/
theorem maps_iff_copes (hs : MapsInv s) (hdisjoint : s.MapsDisjoint) (addr size : Size) :
    s.Maps addr size ∧ (s.mapStep (.map addr size)).MapsDisjoint ↔ s.Copes addr size := by
  have hnew : ∀ s' : Spmp, s'.maps = s.maps ++ [⟨addr, size, s.maps.length, true⟩] →
      (s'.MapsDisjoint ↔ ∀ m ∈ s.activeMaps, ¬ m.Overlaps addr size) := by
    intro s' hmaps
    unfold Spmp.MapsDisjoint
    rw [Spmp.activeMaps, hmaps, List.filter_append, List.filter_cons_of_pos rfl, List.filter_nil,
      List.pairwise_append]
    refine ⟨fun h m hm => h.2.2 m hm _ List.mem_cons_self, fun h => ?_⟩
    refine ⟨hdisjoint, List.pairwise_singleton _ _, fun m hm n hn => ?_⟩
    rw [List.mem_singleton.mp hn]
    exact h m hm
  rcases spmpMap_cases hs addr size with
    ⟨hwhy, hret, heq⟩ | ⟨haddr, hsize, hunseen, hroom, hret, -, hmaps⟩
  · refine ⟨fun ⟨hmap, _⟩ haddr hsize => ⟨fun ⟨m, hm, hover⟩ => ?_, fun hnone hfew => ?_⟩,
      fun hcopes => ⟨fun haddr hsize hnone hfew => ?_, ?_⟩⟩
    · rcases hwhy with hzero | hzero | hseen | hfull
      · exact absurd hzero haddr
      · exact absurd hzero hsize
      · exact .inr hseen
      · exact .inl hfull
    · exact absurd (hmap haddr hsize hnone hfew) hret
    · have hroom := (hcopes haddr hsize).2 hnone hfew
      rcases hwhy with hzero | hzero | ⟨m, hm, hseen⟩ | hfull
      · exact absurd hzero haddr
      · exact absurd hzero hsize
      · exact absurd hseen.1 (hnone m hm)
      · omega
    · rw [Spmp.mapStep, heq]
      exact hdisjoint
  · rw [Spmp.mapStep, hnew _ hmaps]
    refine ⟨fun ⟨_, hnone⟩ _ _ => ⟨fun ⟨m, hm, hover⟩ => absurd hover (hnone m hm), fun _ _ =>
      hroom⟩, fun hcopes => ⟨fun _ _ _ _ => hret, fun m hm hover => ?_⟩⟩
    rcases (hcopes haddr hsize).1 ⟨m, hm, hover⟩ with hfull | ⟨n, hn, hseen⟩
    · omega
    · exact hunseen n hn hseen

/-- **Mappings.** Along any run of `spmp_map` and `spmp_unmap` calls the active mappings stay
disjoint, and mappings that are due to succeed do, if and only if the table copes with every one of
them. -/
theorem mapsHold_iff (ops : List SpmpMapOp) :
    Spmp.MapsHold ops ↔ ∀ before addr size, before ++ [.map addr size] <+: ops →
      (Spmp.mapAll before).Copes addr size := by
  have hstep : ∀ before op, Spmp.mapAll (before ++ [op]) = (Spmp.mapAll before).mapStep op :=
    fun before op => List.foldl_append
  refine ⟨fun hhold before addr size hpre => ?_, fun hcopes => ?_⟩
  · have hdisjoint := hhold.disjoint before ((List.prefix_append _ _).trans hpre)
    refine (maps_iff_copes (mapsInv_mapAll before) hdisjoint addr size).mp ?_
    exact ⟨hhold.succeeds before addr size hpre, hstep _ _ ▸ hhold.disjoint _ hpre⟩
  · have hdisjoint : ∀ before, before <+: ops → (Spmp.mapAll before).MapsDisjoint := by
      intro before
      induction before using List.reverseRecOn with
      | nil => exact fun _ => List.Pairwise.nil
      | append_singleton before op ih =>
          intro hpre
          have hbefore := ih ((List.prefix_append _ _).trans hpre)
          rw [hstep]
          cases op with
          | map addr size =>
              exact ((maps_iff_copes (mapsInv_mapAll before) hbefore addr size).mpr
                (hcopes before addr size hpre)).2
          | unmap addr size => exact disjoint_unmap hbefore addr size
    refine ⟨hdisjoint, fun before addr size hpre => ?_⟩
    have hbefore := hdisjoint before ((List.prefix_append _ _).trans hpre)
    exact ((maps_iff_copes (mapsInv_mapAll before) hbefore addr size).mpr
      (hcopes before addr size hpre)).1

end Maps

/-- The last page of the address space. -/
def lastPage : List SpmpMapOp :=
  [.map 0xfffffffffffff000 0x1000, .map 0xfffffffffffff000 0x1000]

/-- It is mapped twice. -/
theorem not_mapsHold_lastPage : ¬ Spmp.MapsHold lastPage := by
  intro hhold
  have hdisjoint := hhold.disjoint lastPage (List.prefix_refl _)
  have hmaps : (Spmp.mapAll lastPage).activeMaps =
      [⟨0xfffffffffffff000, 0x1000, 0, true⟩, ⟨0xfffffffffffff000, 0x1000, 1, true⟩] := by decide
  unfold Spmp.MapsDisjoint at hdisjoint
  rw [hmaps] at hdisjoint
  refine List.rel_of_pairwise_cons hdisjoint List.mem_cons_self ⟨0xfffffffffffff000, ?_, ?_⟩ <;>
    decide

end BradVector
