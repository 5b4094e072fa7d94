import BradVector.Bradcore
import BradVector.Library.Commands
import Mathlib.Data.List.Basic
import Mathlib.Data.List.Range

/-!
# Places in the core table

A row of the core table has as many places as a cluster has Phoenix cores, and the indices of a
cluster run through its Phoenix and its Falcon cores. The initialisation already goes through all of
them, so it leaves the first row whatever the SKU, and the places behind a row are those of the next
cluster.
-/

namespace BradVector

open CSem

/-- A call of the driver after the initialisation. -/
inductive CoreCall where
  | init (type : BradCoreType) (cluster coreInCluster : Word)
  | start (cluster core : Word)
  | halt (cluster core : Word)
  | setFreq (cluster core freqMhz : Word)
  | setVolt (cluster core voltMv : Word)
  | setPowerState (cluster core state : Word)
  deriving DecidableEq, Repr

def BcState.perform (s : BcState) : CoreCall → BcResult
  | .init type cluster core => bradCoreInit s type cluster core
  | .start cluster core => bradCoreStart s cluster core
  | .halt cluster core => bradCoreHalt s cluster core
  | .setFreq cluster core freqMhz => bradCoreSetFreq s cluster core freqMhz
  | .setVolt cluster core voltMv => bradCoreSetVolt s cluster core voltMv
  | .setPowerState cluster core state => bradCoreSetPowerState s cluster core state

def BcState.after (s : BcState) (call : CoreCall) : BcState := (s.perform call).state

/-- A place of the table as it is declared. -/
def InTable (place : Nat × Nat) : Prop :=
  place.1 < bradCoreMaxClusters ∧ place.2 < bradCorePhxPerCluster

/-- A cluster and a core of it that the checks of the operations admit. -/
def BcState.Admits (s : BcState) (place : Nat × Nat) : Prop :=
  place.1 < s.activeClusters.toNat ∧ place.2 < bradCorePhxPerCluster + bradCoreFalPerCluster

/-- All accesses are to places of the table, and a call changes no core but the one it is for. -/
structure CoresSafe (s : BcState) (sku : Word) (calls : List CoreCall) : Prop where
  init_inTable : ∀ place ∈ (bradSocInit s sku).touched, InTable place
  inTable : Throughout BcState.after (fun t call => ∀ place ∈ (t.perform call).touched,
    InTable place) (bradSocInit s sku).state calls
  separate : Throughout BcState.after
    (fun t call => ∀ place, t.Admits place → place ∉ (t.perform call).touched →
      ∀ f, (t.after call).core place.1 place.2 f = t.core place.1 place.2 f)
    (bradSocInit s sku).state calls

section Init

variable {cfg : BradCoreSkuCfg} {l : SocLoop} {c i : Nat}

theorem touched_subset_socCluster (cfg : BradCoreSkuCfg) (l : SocLoop) (c : Nat) :
    l.touched ⊆ (socCluster cfg l c).touched := by
  unfold socCluster
  split
  · intro place hplace
    simp only [List.mem_append]
    exact .inl (.inl (.inl hplace))
  · exact fun _ h => h

theorem touched_subset_foldl (cfg : BradCoreSkuCfg) (l : SocLoop) (cs : List Nat) :
    l.touched ⊆ (cs.foldl (socCluster cfg) l).touched := by
  induction cs generalizing l with
  | nil => exact fun _ h => h
  | cons c cs ih => exact List.Subset.trans (touched_subset_socCluster cfg l c) (ih _)

/-- The loops of one round go through all indices of a cluster. -/
theorem mem_touched_socCluster (h : 0 < l.totalP ∨ 0 < l.totalF)
    (hi : i < bradCorePhxPerCluster + bradCoreFalPerCluster) :
    (c, i) ∈ (socCluster cfg l c).touched := by
  unfold socCluster
  rw [if_pos h]
  dsimp only
  generalize (if bradCorePhxPerCluster < l.totalP then bradCorePhxPerCluster else l.totalP) = np
  generalize (if bradCoreFalPerCluster < l.totalF then bradCoreFalPerCluster else l.totalF) = nf
  simp only [List.mem_append, List.mem_map, List.mem_range, List.mem_range'_1, Prod.mk.injEq,
    true_and, exists_eq_right]
  by_cases hp : i < np
  · exact .inl (.inl (.inr hp))
  · by_cases hf : i < np + nf
    · exact .inl (.inr ⟨i - np, by omega, by omega⟩)
    · exact .inr ⟨by omega, by omega⟩

end Init

/-- The initialisation touches every index of the first cluster. -/
theorem mem_touched_bradSocInit {s : BcState} {sku : Word} (h : (bradSocInit s sku).ret = 0)
    {i : Nat}
    (hi : i < bradCorePhxPerCluster + bradCoreFalPerCluster) :
    (0, i) ∈ (bradSocInit s sku).touched := by
  revert h
  unfold bradSocInit
  split
  · exact nofun
  · cases hcfg : getSkuCfg sku with
    | none => exact nofun
    | some cfg =>
        intro _
        have hcores : ∀ cfg ∈ skuConfigs, 0 < cfg.phoenixCount ∨ 0 < cfg.falconCount := by decide
        have hsome := hcores cfg (List.mem_of_find?_eq_some hcfg)
        apply touched_subset_foldl cfg _ [1, 2, 3]
        exact mem_touched_socCluster hsome hi

/-- **No SKU stays in the core table.** Whatever calls follow, the initialisation of every SKU
leaves it. -/
theorem not_coresSafe (s : BcState) (sku : Word) (calls : List CoreCall)
    (h : (bradSocInit s sku).ret = 0) : ¬ CoresSafe s sku calls := by
  intro hsafe
  have hplace : (0, bradCorePhxPerCluster) ∈ (bradSocInit s sku).touched :=
    mem_touched_bradSocInit h (by decide)
  exact Nat.lt_irrefl _ (hsafe.init_inTable _ hplace).2

theorem smallSku_not_coresSafe : ¬ CoresSafe ⟨fun _ => 0⟩ 0 [.start 0 0] :=
  not_coresSafe ⟨fun _ => 0⟩ 0 [.start 0 0] rfl

/-- On the smallest SKU the fourth Falcon core is set up behind the first row. -/
theorem fourthFalcon_not_inTable :
    ¬ ∀ (s : BcState) (sku : Word) (calls : List CoreCall), (bradSocInit s sku).ret = 0 →
      CoresSafe s sku calls := by
  intro h
  have hsafe := h ⟨fun _ => 0⟩ 0 [] rfl
  have hplace : (0, 4) ∈ (bradSocInit ⟨fun _ => 0⟩ 0).touched := by decide
  exact absurd (hsafe.init_inTable _ hplace) (by unfold InTable; decide)

end BradVector
