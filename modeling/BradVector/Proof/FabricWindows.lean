import BradVector.Fabric
import Mathlib.Data.List.Induction

/-!
# The windows of the nodes

`fabric_register_node` makes its inclusive limits exclusive in 64-bit arithmetic before it compares
windows. The limit of a window that reaches the last address becomes 0, and such a window overlaps
nothing in the eyes of the test.
-/

namespace BradVector

open CSem

/-- The address lies in the window. -/
def FabricNodeInfo.Contains (info : FabricNodeInfo) (a : Nat) : Prop :=
  info.addressBase.toNat ≤ a ∧ a ≤ info.addressLimit.toNat

/-- The two windows share an address. -/
def FabricNodeInfo.Meets (m n : FabricNodeInfo) : Prop := ∃ a, m.Contains a ∧ n.Contains a

def FabricNodeInfo.WellFormed (info : FabricNodeInfo) : Prop :=
  info.addressBase.toNat ≤ info.addressLimit.toNat

/-- The window ends with the last address there is. -/
def FabricNodeInfo.ReachesTop (info : FabricNodeInfo) : Prop := info.addressLimit.toNat = 2 ^ 64 - 1

namespace Fabric

/-- The state after the nodes have been offered for registration one after the other. -/
def registerAll (infos : List FabricNodeInfo) : Fabric :=
  infos.foldl (fun f info => (fabricRegisterNode f info).2) fabricInit

def WindowsDisjoint (f : Fabric) : Prop := f.nodes.Pairwise fun m n => ¬ m.info.Meets n.info

/-- A registration that would overlap a window fails and changes nothing. -/
def Rejects (f : Fabric) (info : FabricNodeInfo) : Prop :=
  (∃ n ∈ f.nodes, n.info.Meets info) →
    (fabricRegisterNode f info).1 < 0 ∧ (fabricRegisterNode f info).2 = f

/-- The table is full, or a window that shares addresses with registered ones ends before the last
address, and so does one of those it shares addresses with. -/
def Notices (f : Fabric) (info : FabricNodeInfo) : Prop :=
  f.numNodes = fabricMaxNodes ∨ ((∃ n ∈ f.nodes, n.info.Meets info) →
    ¬ info.ReachesTop ∧ ∃ n ∈ f.nodes, n.info.Meets info ∧ ¬ n.info.ReachesTop)

/-- In every state reached on the way the windows are disjoint, and every registration that would
overlap one is rejected. -/
structure WindowsHold (infos : List FabricNodeInfo) : Prop where
  disjoint : ∀ before, before <+: infos → (registerAll before).WindowsDisjoint
  rejects : ∀ before info, before ++ [info] <+: infos → (registerAll before).Rejects info

end Fabric

section Windows

variable {f : Fabric} {info m n : FabricNodeInfo} {infos : List FabricNodeInfo}

theorem meets_iff (hm : m.WellFormed) (hn : n.WellFormed) :
    m.Meets n ↔ m.addressBase.toNat ≤ n.addressLimit.toNat ∧
      n.addressBase.toNat ≤ m.addressLimit.toNat := by
  unfold FabricNodeInfo.WellFormed at hm hn
  refine ⟨?_, fun ⟨hmn, hnm⟩ => ?_⟩
  · rintro ⟨a, ⟨hma, ham⟩, hna, han⟩
    omega
  · exact ⟨max m.addressBase.toNat n.addressBase.toNat,
      ⟨le_max_left _ _, max_le hm hnm⟩, le_max_right _ _, max_le hmn hn⟩

theorem limit_add_one_toNat (x : Size) :
    (x + 1).toNat = if x.toNat = 2 ^ 64 - 1 then 0 else x.toNat + 1 := by
  have hx := x.isLt
  rw [BitVec.toNat_add, show (1 : Size).toNat = 1 from rfl]
  split <;> omega

/-- **The test of `fabric_register_node`.** It sees an overlap where neither window reaches the
top. -/
theorem overlaps_iff {node : FabricNode} (hreg : node.registered = true)
    (hn : node.info.WellFormed) (hinfo : info.WellFormed) :
    node.overlaps info = true ↔
      node.info.Meets info ∧ ¬ node.info.ReachesTop ∧ ¬ info.ReachesTop := by
  rw [meets_iff hn hinfo]
  simp only [FabricNode.overlaps, hreg, Bool.true_and, Bool.and_eq_true, decide_eq_true_eq,
    BitVec.lt_def, limit_add_one_toNat, FabricNodeInfo.ReachesTop]
  split <;> split <;> omega

/-- What a registration does. -/
theorem fabricRegisterNode_cases (hinit : f.initialized = true) (info : FabricNodeInfo) :
    (f.numNodes = fabricMaxNodes ∧ fabricRegisterNode f info = (-enospc, f)) ∨
      (f.numNodes < fabricMaxNodes ∧ (∃ n ∈ f.nodes, n.overlaps info = true) ∧
        fabricRegisterNode f info = (-eaddrinuse, f)) ∨
      (f.numNodes < fabricMaxNodes ∧ (∀ n ∈ f.nodes, ¬ n.overlaps info = true) ∧
        (fabricRegisterNode f info).1 = 0 ∧
        (fabricRegisterNode f info).2.initialized = true ∧
        (fabricRegisterNode f info).2.nodes =
          f.nodes ++ [⟨{ info with id := f.numNodes }, true, Ptr.null, 0⟩]) := by
  unfold fabricRegisterNode
  rw [if_neg (not_not_intro hinit)]
  by_cases hfull : fabricMaxNodes ≤ f.numNodes
  · rw [dif_pos hfull]
    exact .inl ⟨Nat.le_antisymm f.nodes_le hfull, rfl⟩
  rw [dif_neg hfull]
  by_cases hany : (f.nodes.any fun n => n.overlaps info) = true
  · rw [if_pos hany]
    exact .inr (.inl ⟨Nat.lt_of_not_le hfull, List.any_eq_true.mp hany, rfl⟩)
  · rw [if_neg hany]
    refine .inr (.inr ⟨Nat.lt_of_not_le hfull, fun n hn hov => hany ?_, rfl, hinit, rfl⟩)
    exact List.any_eq_true.mpr ⟨n, hn, hov⟩

/-- The nodes are registered, with windows that are not empty. -/
structure NodesWellFormed (f : Fabric) : Prop where
  initialized : f.initialized = true
  nodes : ∀ n ∈ f.nodes, n.registered = true ∧ n.info.WellFormed

theorem NodesWellFormed.register (hf : NodesWellFormed f) (hinfo : info.WellFormed) :
    NodesWellFormed (fabricRegisterNode f info).2 := by
  rcases fabricRegisterNode_cases hf.initialized info with
    ⟨-, heq⟩ | ⟨-, -, heq⟩ | ⟨-, -, -, hinit, hnodes⟩
  · exact heq ▸ hf
  · exact heq ▸ hf
  · refine ⟨hinit, fun n hn => ?_⟩
    rw [hnodes] at hn
    rcases List.mem_append.mp hn with hold | hnew
    · exact hf.nodes n hold
    · rw [List.mem_singleton.mp hnew]
      exact ⟨rfl, hinfo⟩

theorem nodesWellFormed_registerAll (h : ∀ info ∈ infos, info.WellFormed) :
    NodesWellFormed (Fabric.registerAll infos) := by
  induction infos using List.reverseRecOn with
  | nil => exact ⟨rfl, fun n hn => absurd hn List.not_mem_nil⟩
  | append_singleton infos info ih =>
      rw [Fabric.registerAll, List.foldl_append]
      refine (ih fun i hi => h i (List.mem_append_left _ hi)).register ?_
      exact h info (List.mem_append_right _ List.mem_cons_self)

/-- **One registration.** It rejects what it must exactly where it notices it. -/
theorem rejects_iff_notices (hf : NodesWellFormed f) (hinfo : info.WellFormed) :
    f.Rejects info ↔ f.Notices info := by
  have hov : ∀ n ∈ f.nodes, n.overlaps info = true ↔
      n.info.Meets info ∧ ¬ n.info.ReachesTop ∧ ¬ info.ReachesTop := fun n hn =>
    overlaps_iff (hf.nodes n hn).1 (hf.nodes n hn).2 hinfo
  rcases fabricRegisterNode_cases hf.initialized info with
    ⟨hfull, heq⟩ | ⟨-, ⟨n, hn, hoverlap⟩, heq⟩ | ⟨hroom, hnone, hret, -, -⟩
  · refine iff_of_true (fun _ => ?_) (.inl hfull)
    rw [heq]
    exact ⟨(by decide : -enospc < 0), rfl⟩
  · obtain ⟨hmeets, htop, hinfotop⟩ := (hov n hn).mp hoverlap
    refine iff_of_true (fun _ => ?_) (.inr fun _ => ⟨hinfotop, n, hn, hmeets, htop⟩)
    rw [heq]
    exact ⟨(by decide : -eaddrinuse < 0), rfl⟩
  · refine ⟨fun hrejects => .inr fun hmeets => ?_, fun hnotices hmeets => ?_⟩
    · have hneg := (hrejects hmeets).1
      rw [hret] at hneg
      exact absurd hneg (lt_irrefl 0)
    · rcases hnotices with hfull | hnotices
      · exact absurd hfull hroom.ne
      · obtain ⟨hinfotop, n, hn, hmeets, htop⟩ := hnotices hmeets
        exact absurd ((hov n hn).mpr ⟨hmeets, htop, hinfotop⟩) (hnone n hn)

theorem Fabric.WindowsDisjoint.register (hf : NodesWellFormed f) (hinfo : info.WellFormed)
    (h : f.WindowsDisjoint) (hnotices : f.Notices info) :
    (fabricRegisterNode f info).2.WindowsDisjoint := by
  have hrejects := (rejects_iff_notices hf hinfo).mpr hnotices
  rcases fabricRegisterNode_cases hf.initialized info with
    ⟨-, heq⟩ | ⟨-, -, heq⟩ | ⟨-, -, hret, -, hnodes⟩
  · exact heq ▸ h
  · exact heq ▸ h
  · rw [Fabric.WindowsDisjoint, hnodes]
    refine List.pairwise_append.mpr ⟨h, List.pairwise_singleton _ _, fun m hm n hn hmeets => ?_⟩
    rw [List.mem_singleton.mp hn] at hmeets
    have hneg := (hrejects ⟨m, hm, hmeets⟩).1
    rw [hret] at hneg
    exact absurd hneg (lt_irrefl 0)

/-- **Disjoint windows.** Over any registrations of nonempty windows, the windows stay disjoint and
every overlapping registration is rejected if and only if every one of them is noticed. -/
theorem windowsHold_iff (h : ∀ info ∈ infos, info.WellFormed) :
    Fabric.WindowsHold infos ↔ ∀ before info, before ++ [info] <+: infos →
      (Fabric.registerAll before).Notices info := by
  have hwf : ∀ before, before <+: infos → NodesWellFormed (Fabric.registerAll before) :=
    fun before hbefore => nodesWellFormed_registerAll fun i hi => h i (hbefore.subset hi)
  have hinfo : ∀ before info, before ++ [info] <+: infos →
      before <+: infos ∧ info.WellFormed := fun before info hpre =>
    ⟨(List.prefix_append _ _).trans hpre,
      h info (hpre.subset (List.mem_append_right _ List.mem_cons_self))⟩
  refine ⟨fun hhold before info hpre => ?_, fun hnotices => ⟨fun before => ?_, ?_⟩⟩
  · obtain ⟨hbefore, hi⟩ := hinfo before info hpre
    exact (rejects_iff_notices (hwf before hbefore) hi).mp (hhold.rejects before info hpre)
  · induction before using List.reverseRecOn with
    | nil => exact fun _ => List.Pairwise.nil
    | append_singleton before info ih =>
        intro hpre
        obtain ⟨hbefore, hi⟩ := hinfo before info hpre
        rw [Fabric.registerAll, List.foldl_append]
        exact (ih hbefore).register (hwf before hbefore) hi (hnotices before info hpre)
  · intro before info hpre
    obtain ⟨hbefore, hi⟩ := hinfo before info hpre
    exact (rejects_iff_notices (hwf before hbefore) hi).mpr (hnotices before info hpre)

end Windows

/-- Two windows side by side, and one across both that is turned away. -/
theorem windowsHold_iff_across : Fabric.WindowsHold
    [⟨0, .cpu, 0, 4095, 1, 1⟩, ⟨0, .mem, 4096, 8191, 1, 1⟩, ⟨0, .io, 4000, 5000, 1, 1⟩] ↔
      ∀ before info, before ++ [info] <+:
        [⟨0, .cpu, 0, 4095, 1, 1⟩, ⟨0, .mem, 4096, 8191, 1, 1⟩, ⟨0, .io, 4000, 5000, 1, 1⟩] →
        (Fabric.registerAll before).Notices info := by
  refine windowsHold_iff fun info hinfo => ?_
  simp only [List.mem_cons, List.not_mem_nil, or_false] at hinfo
  unfold FabricNodeInfo.WellFormed
  rcases hinfo with rfl | rfl | rfl <;> decide

/-- A window of all addresses. -/
def everything : FabricNodeInfo := ⟨0, .mem, 0, 0xffffffffffffffff, 1, 1⟩

theorem not_windowsHold_everything : ¬ Fabric.WindowsHold [everything, everything] := by
  intro hhold
  have hdisjoint : ([⟨everything, true, .null, 0⟩,
      ⟨{ everything with id := 1 }, true, .null, 0⟩] : List FabricNode).Pairwise
        fun m n => ¬ m.info.Meets n.info := hhold.disjoint _ (List.prefix_refl _)
  refine List.rel_of_pairwise_cons hdisjoint List.mem_cons_self ⟨0, ?_, ?_⟩ <;>
    exact ⟨Nat.le_refl 0, Nat.zero_le _⟩

end BradVector
