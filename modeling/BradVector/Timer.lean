import BradVector.Isa
import BradVector.Library.Counters
import BradVector.Library.Machine

/-!
# The timer

`timer.c`: its registers are those of the run, and each volatile access reads the next moment of it.
-/

namespace BradVector

open CSem

def timerBase : Size := 0x10020000
def timerFreq : Size := timerBase + 0x0000
def timerCntLo : Size := timerBase + 0x0004
def timerCntHi : Size := timerBase + 0x0008

/-- The static variable of `timer.c`, and `TIMER_CTRL`. -/
structure Timer where
  tmrFreqHz : Word
  ctrl : Word
  deriving DecidableEq, Repr

/-- `timer_init` at the read `t`. -/
def timerInit (m : Registers) (t : Nat) : Timer where
  tmrFreqHz := if m t timerFreq = 0 then 50000000 else m t timerFreq
  ctrl := 1

/-- `timer_get_cycles` from the read `t` on, with the read that comes after it. -/
def timerGetCycles (m : Registers) (t : Nat) : Size × Nat :=
  let lo := m t timerCntLo
  let hi := m (t + 1) timerCntHi
  if m (t + 2) timerCntLo < lo then
    let hi := m (t + 3) timerCntHi
    let lo := m (t + 4) timerCntLo
    (joinWords hi lo, t + 5)
  else (joinWords hi lo, t + 3)

/-- `tmr_freq_hz / 1000000UL`. -/
def Timer.ticksPerUs (tmr : Timer) : Size := tmr.tmrFreqHz.setWidth 64 / 1000000

/-- `timer_get_us`; `none` is the division by zero. -/
def timerGetUs (tmr : Timer) (m : Registers) (t : Nat) : Option Size × Nat :=
  let cycles := timerGetCycles m t
  (if tmr.ticksPerUs = 0 then none else some (cycles.1 / tmr.ticksPerUs), cycles.2)

/-- The condition of the loop of `timer_delay_us`, which goes on or leaves with the next read. -/
def timerDelayTest (m : Registers) (target : Size) (t : Nat) : Except Nat Nat :=
  let cycles := timerGetCycles m t
  if cycles.1 < target then .ok cycles.2 else .error cycles.2

/-- `timer_delay_us`, called at the read `t`, returns, and `u` is the next read. -/
def TimerDelayUs (tmr : Timer) (m : Registers) (us : Size) (t u : Nat) : Prop :=
  let start := timerGetCycles m t
  let target := start.1 + us * tmr.ticksPerUs
  Machine.EndsWith (timerDelayTest m target) start.2 u

end BradVector
