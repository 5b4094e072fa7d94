import BradVector.Isa

/-!
# The HyperCore driver

The initialisation and the allocator of on-chip memory of `hypercore_atlas.c`. Functions return the
C code's status, zero on success and a negated error number otherwise, with the state they leave.
-/

namespace BradVector

open CSem

def hcMaxContexts : Nat := 256

def hc100 : Word := 0
def hc300 : Word := 1
def hc500 : Word := 2
def hcElite : Word := 3

inductive HcPState where
  | p0Turbo
  | p1Balanced
  | p2Efficient
  | p3Retention
  | p4Off
  deriving DecidableEq, Repr

/-- `struct hc_sku_cfg`, as far as the functions here read it. -/
structure HcSkuCfg where
  tierId : Word
  mvramBytes : Size
  aceFreqMhz : Word
  deriving DecidableEq, Repr

/-- `hc_sku_configs`. -/
def hcSkuConfigs : List HcSkuCfg :=
  [⟨hc100, 128 * 1024 * 1024, 1600⟩,
    ⟨hc300, 256 * 1024 * 1024, 2000⟩,
    ⟨hc500, 450 * 1024 * 1024, 2400⟩,
    ⟨hcElite, 950 * 1024 * 1024, 2800⟩]

structure HcMvramAlloc where
  addr : Size
  size : Size
  contextId : Nat
  pinned : Bool
  deriving DecidableEq, Repr

structure HcAucContext where
  mvramUsed : Size
  active : Bool
  deriving DecidableEq, Repr

/-- `hc_state`. -/
structure HcState where
  tier : Word
  mvramBase : Size
  initialized : Bool
  pState : HcPState
  sku : HcSkuCfg
  contexts : Nat → HcAucContext
  mvramAllocTotal : Size
  aceClkMhz : Word
  tempC : Word
  mvramNextAddr : Size

/-- `hc_state` before the first call. -/
def HcState.zero : HcState where
  tier := 0
  mvramBase := 0
  initialized := false
  pState := .p0Turbo
  sku := ⟨0, 0, 0⟩
  contexts := fun _ => ⟨0, false⟩
  mvramAllocTotal := 0
  aceClkMhz := 0
  tempC := 0
  mvramNextAddr := 0

/-- `get_sku_for_tier`. -/
def getSkuForTier (tier : Word) : Option HcSkuCfg := hcSkuConfigs.find? fun cfg => cfg.tierId = tier

def hcInit (s : HcState) (tier : Word) (mvramBase : Size) : Int × HcState :=
  if hcElite < tier then (-einval, s)
  else if mvramBase = 0 then (-einval, s)
  else
    match getSkuForTier tier with
    | none => (-einval, s)
    | some cfg =>
        (0,
          { tier
            mvramBase
            initialized := true
            pState := .p1Balanced
            sku := cfg
            contexts := fun _ => ⟨0, false⟩
            mvramAllocTotal := 0
            aceClkMhz := cfg.aceFreqMhz
            tempC := 32
            mvramNextAddr := mvramBase })

/-- `hc_mvram_alloc`, with the allocation it fills in. -/
def hcMvramAlloc (s : HcState) (size : Size) (contextId : Nat) :
    Int × HcState × Option HcMvramAlloc :=
  if ¬ s.initialized then (-enodev, s, none)
  else if size = 0 then (-einval, s, none)
  else if hcMaxContexts ≤ contextId then (-einval, s, none)
  else
    let next := s.mvramNextAddr + size
    let limit := s.mvramBase + s.sku.mvramBytes
    if limit < next then (-enomem, s, none)
    else
      let context := s.contexts contextId
      (0,
        { s with
          mvramNextAddr := next
          mvramAllocTotal := s.mvramAllocTotal + size
          contexts := fun i =>
            if i = contextId ∧ 0 < contextId ∧ context.active then
              { context with mvramUsed := context.mvramUsed + size }
            else s.contexts i },
        some ⟨s.mvramNextAddr, size, contextId, false⟩)

end BradVector
