import BradVector.Isa
import Mathlib.Logic.Function.Basic

/-!
# The BradCore driver

The initialisation and the operations on cores of `bradcore.c`, over the words of `bc_state`. A core
is addressed as the C code addresses it, by its row and its place in the row, so what lies behind a
row is the next one, and behind the last row the rest of the structure. Functions return the C
code's status with the state they leave and the places of the core table they touch.
-/

namespace BradVector

open CSem

def bradCoreMaxClusters : Nat := 4
def bradCorePhxPerCluster : Nat := 4
def bradCoreFalPerCluster : Nat := 4

/-- `enum brad_core_type`. -/
inductive BradCoreType where
  | phoenix
  | falcon
  | sentinel
  deriving DecidableEq, Repr

def BradCoreType.toWord : BradCoreType → Word
  | phoenix => 0
  | falcon => 1
  | sentinel => 2

def bradPstateBalanced : Word := 1
def bradPstateEfficient : Word := 2
def bradPstateOff : Word := 4

/-- `struct brad_core_sku_cfg`, as far as the functions here read it. -/
structure BradCoreSkuCfg where
  sku : Word
  phoenixCount : Nat
  falconCount : Nat
  freqMaxMhz : Word
  freqFalconMhz : Word
  deriving DecidableEq, Repr

/-- The last of `enum brad_core_sku`. -/
def bradCoreW816 : Word := 10

/-- `sku_configs`. -/
def skuConfigs : List BradCoreSkuCfg :=
  [⟨0, 1, 4, 2400, 1800⟩,
    ⟨1, 2, 4, 2800, 1900⟩,
    ⟨2, 4, 4, 3200, 2000⟩,
    ⟨3, 6, 4, 3600, 2000⟩,
    ⟨4, 4, 8, 3800, 2200⟩,
    ⟨5, 8, 4, 4000, 2200⟩,
    ⟨6, 8, 8, 4200, 2400⟩,
    ⟨7, 6, 0, 5000, 0⟩,
    ⟨8, 8, 0, 5200, 0⟩,
    ⟨9, 8, 8, 4000, 2600⟩,
    ⟨bradCoreW816, 8, 16, 3800, 2600⟩]

/-- `get_sku_cfg`. -/
def getSkuCfg (sku : Word) : Option BradCoreSkuCfg := skuConfigs.find? fun cfg => cfg.sku = sku

/-! ### The state -/

/-- The words of `struct core_state`. -/
inductive CoreField where
  | type
  | freqMhz
  | voltMv
  | pState
  | initialized
  | running
  | cyclesLow
  | cyclesHigh
  deriving DecidableEq, Repr

def CoreField.offset : CoreField → Nat
  | type => 0
  | freqMhz => 1
  | voltMv => 2
  | pState => 3
  | initialized => 4
  | running => 5
  | cyclesLow => 6
  | cyclesHigh => 7

/-- The words of `struct cluster_state`. -/
inductive ClusterField where
  | numPhoenix
  | numFalcon
  | l2SizeKb
  | l2WayMask
  | snoopEnabled
  | initialized
  deriving DecidableEq, Repr

def ClusterField.offset : ClusterField → Nat
  | numPhoenix => 0
  | numFalcon => 1
  | l2SizeKb => 2
  | l2WayMask => 3
  | snoopEnabled => 4
  | initialized => 5

/-- `bc_state` and what lies behind it, word by word. -/
structure BcState where
  words : Nat → Word

namespace BcState

def skuWord : Nat := 0
def initializedWord : Nat := 1

/-- The word of `cores[cluster][core]`: a row has `BRAD_CORE_PHX_PER_CLUSTER` entries of eight
words. -/
def coreWord (cluster core : Nat) (f : CoreField) : Nat :=
  2 + 8 * (bradCorePhxPerCluster * cluster + core) + f.offset

def clusterWord (cluster : Nat) (f : ClusterField) : Nat := 130 + 6 * cluster + f.offset

def activeClustersWord : Nat := 154
def freqCurrentWord : Nat := 155
def pStateWord : Nat := 156
def tempCWord : Nat := 157

/-- `sizeof(bc_state)`, in words. -/
def size : Nat := 158

def put (s : BcState) (w : Nat) (v : Word) : BcState := ⟨Function.update s.words w v⟩

def core (s : BcState) (cluster core : Nat) (f : CoreField) : Word :=
  s.words (coreWord cluster core f)

def setCore (s : BcState) (cluster core : Nat) (f : CoreField) (v : Word) : BcState :=
  s.put (coreWord cluster core f) v

def cluster (s : BcState) (cluster : Nat) (f : ClusterField) : Word :=
  s.words (clusterWord cluster f)

def setCluster (s : BcState) (cluster : Nat) (f : ClusterField) (v : Word) : BcState :=
  s.put (clusterWord cluster f) v

def activeClusters (s : BcState) : Word := s.words activeClustersWord

end BcState

/-- The status of a call, the state it leaves, and the rows and places of the core table it
touches. -/
structure BcResult where
  ret : Int
  state : BcState
  touched : List (Nat × Nat)

/-! ### Initialisation -/

/-- The loop of `brad_soc_init` over the clusters. -/
structure SocLoop where
  state : BcState
  totalP : Nat
  totalF : Nat
  touched : List (Nat × Nat)

/-- A core as the initialisation leaves it. -/
def BcState.initCore (s : BcState) (cluster core : Nat) (type : BradCoreType)
    (freqMhz voltMv pState : Word) : BcState :=
  ((((s.setCore cluster core .type type.toWord).setCore cluster core .freqMhz freqMhz).setCore
    cluster core .voltMv voltMv).setCore cluster core .pState pState).setCore cluster core
      .initialized 1

/-- One round of the loop. -/
def socCluster (cfg : BradCoreSkuCfg) (l : SocLoop) (c : Nat) : SocLoop :=
  if 0 < l.totalP ∨ 0 < l.totalF then
    let np := if bradCorePhxPerCluster < l.totalP then bradCorePhxPerCluster else l.totalP
    let nf := if bradCoreFalPerCluster < l.totalF then bradCoreFalPerCluster else l.totalF
    let s := l.state.setCluster c .numPhoenix (BitVec.ofNat 32 np)
    let s := s.setCluster c .numFalcon (BitVec.ofNat 32 nf)
    let s := s.setCluster c .l2SizeKb 512
    let s := s.setCluster c .l2WayMask 0xFF
    let s := s.setCluster c .snoopEnabled 1
    let s := s.setCluster c .initialized 1
    let s := (List.range np).foldl
      (fun s i => s.initCore c i .phoenix cfg.freqMaxMhz 950 bradPstateBalanced) s
    let s := (List.range nf).foldl
      (fun s i => s.initCore c (np + i) .falcon cfg.freqFalconMhz 700 bradPstateEfficient) s
    let others := List.range' (np + nf) (bradCorePhxPerCluster + bradCoreFalPerCluster - (np + nf))
    let s := others.foldl (fun s i => s.setCore c i .initialized 0) s
    { state := s.put BcState.activeClustersWord (s.activeClusters + 1)
      totalP := l.totalP - np
      totalF := l.totalF - nf
      touched :=
        l.touched ++ ((List.range np).map fun i => (c, i)) ++
          ((List.range nf).map fun i => (c, np + i)) ++ others.map fun i => (c, i) }
  else l

def bradSocInit (s : BcState) (sku : Word) : BcResult :=
  if bradCoreW816 < sku then ⟨-einval, s, []⟩
  else
    match getSkuCfg sku with
    | none => ⟨-einval, s, []⟩
    | some cfg =>
        let s : BcState := ⟨fun w => if w < BcState.size then 0 else s.words w⟩
        let s := s.put BcState.skuWord sku
        let s := s.put BcState.freqCurrentWord cfg.freqMaxMhz
        let s := s.put BcState.pStateWord bradPstateBalanced
        let s := s.put BcState.tempCWord 35
        let s := s.put BcState.activeClustersWord 0
        let l := (List.range bradCoreMaxClusters).foldl (socCluster cfg)
          ⟨s, cfg.phoenixCount, cfg.falconCount, []⟩
        ⟨0, l.state.put BcState.initializedWord 1, l.touched⟩

/-! ### Operations on cores -/

/-- `cluster_has_core`. -/
def clusterHasCore (s : BcState) (cluster coreId : Word) (type : BradCoreType) : Bool :=
  if s.activeClusters ≤ cluster then false
  else
    match getSkuCfg (s.words BcState.skuWord) with
    | none => false
    | some _ =>
        match type with
        | .phoenix => coreId < s.cluster cluster.toNat .numPhoenix
        | _ => coreId < s.cluster cluster.toNat .numFalcon

def bradCoreInit (s : BcState) (type : BradCoreType) (cluster coreInCluster : Word) : BcResult :=
  if s.words BcState.initializedWord = 0 then ⟨-enodev, s, []⟩
  else if s.activeClusters ≤ cluster then ⟨-einval, s, []⟩
  else if ¬ clusterHasCore s cluster coreInCluster type then ⟨-einval, s, []⟩
  else
    let idx :=
      if type = .falcon then coreInCluster + s.cluster cluster.toNat .numPhoenix else coreInCluster
    let c := cluster.toNat
    let i := idx.toNat
    let s := s.setCore c i .initialized 1
    let s := s.setCore c i .running 0
    let s := (s.setCore c i .cyclesLow 0).setCore c i .cyclesHigh 0
    let s := s.setCore c i .pState
      (if type = .phoenix then bradPstateBalanced else bradPstateEfficient)
    ⟨0, s, [(c, i)]⟩

/-- What the operations share: their checks, that of the argument among them, and the one field they
write, in some only of an initialised core. -/
def bradCoreUpdate (s : BcState) (cluster core : Word) (accepted onlyInitialized : Bool)
    (f : CoreField) (v : Word) : BcResult :=
  let c := cluster.toNat
  let i := core.toNat
  if s.words BcState.initializedWord = 0 then ⟨-enodev, s, []⟩
  else if s.activeClusters ≤ cluster then ⟨-einval, s, []⟩
  else if bradCorePhxPerCluster + bradCoreFalPerCluster ≤ i then ⟨-einval, s, []⟩
  else if ¬ accepted then ⟨-einval, s, []⟩
  else if onlyInitialized ∧ s.core c i .initialized = 0 then ⟨-enodev, s, [(c, i)]⟩
  else ⟨0, s.setCore c i f v, [(c, i)]⟩

def bradCoreStart (s : BcState) (cluster core : Word) : BcResult :=
  bradCoreUpdate s cluster core true true .running 1

def bradCoreHalt (s : BcState) (cluster core : Word) : BcResult :=
  bradCoreUpdate s cluster core true true .running 0

def bradCoreSetFreq (s : BcState) (cluster core freqMhz : Word) : BcResult :=
  bradCoreUpdate s cluster core (100 ≤ freqMhz ∧ freqMhz ≤ 5000) false .freqMhz freqMhz

def bradCoreSetVolt (s : BcState) (cluster core voltMv : Word) : BcResult :=
  bradCoreUpdate s cluster core (500 ≤ voltMv ∧ voltMv ≤ 1500) false .voltMv voltMv

def bradCoreSetPowerState (s : BcState) (cluster core state : Word) : BcResult :=
  bradCoreUpdate s cluster core (state ≤ bradPstateOff) false .pState state

end BradVector
