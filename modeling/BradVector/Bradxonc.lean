import BradVector.Isa
import BradVector.Library.Counters
import BradVector.Library.Polling

/-!
# The system controllers

The energy counter of the power unit, and the clock selectors and the phase-locked loops of the
clock unit, from `bradxonc.c`.
-/

namespace BradVector

open CSem

/-! ### The power unit -/

def pmuBase : Size := 0x100A0000
def pmuEnergy : Size := 0x0028

def pmuReg (off : Size) : Size := pmuBase + off

/-- `pmu_read_energy` from the read `t` on, with the read that comes after it. -/
def pmuReadEnergy (m : Registers) (t : Nat) : Size × Nat :=
  let lo := m t (pmuReg pmuEnergy)
  let hi := m (t + 1) (pmuReg (pmuEnergy + 4))
  (joinWords hi lo, t + 2)

/-! ### The clock unit -/

/-- The registers `CRU_CLK_SEL` and `CRU_CLK_DIV`. -/
structure Cru where
  clkSel : Word
  clkDiv : Word
  deriving DecidableEq, Repr

/-- `cru_set_clk_source`. -/
def cruSetClkSource (cru : Cru) (domain : Nat) (pllId : Int) : Int × Cru :=
  let sel := cru.clkSel
  let sel := sel &&& ~~~((0x7 : Word) <<< (domain * 3))
  let sel := sel ||| (BitVec.ofInt 32 pllId &&& 0x7) <<< (domain * 3)
  (0, { cru with clkSel := sel })

/-- `cru_set_clk_divider`. -/
def cruSetClkDivider (cru : Cru) (domain : Nat) (divider : Word) : Int × Cru :=
  let divider := if divider < 1 then 1 else divider
  let divReg := cru.clkDiv
  let divReg := divReg &&& ~~~((0xFF : Word) <<< (domain * 4))
  let divReg := divReg ||| (divider &&& 0xFF) <<< (domain * 4)
  (0, { cru with clkDiv := divReg })

/-- The counter of `cru_wait_pll_lock`. -/
def cruPllTimeout (timeoutUs : Size) : Word :=
  (if 0xFFFFFFFF < timeoutUs then 0xFFFFFFFF else timeoutUs).setWidth 32

/-- `cru_wait_pll_lock`, with the number of polls. Poll `k` reads the word `status k`. -/
def cruWaitPllLock (status : Nat → Word) (pllId : Int) (timeoutUs : Size) : Int × Nat :=
  let p :=
    poll (fun k => status k &&& (1 : Word) <<< BitVec.ofInt 32 pllId ≠ 0) (cruPllTimeout timeoutUs)
  (if p.seen then 0 else -1, p.polls)

end BradVector
