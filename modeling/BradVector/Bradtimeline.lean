import BradVector.Bvrt

/-!
# The tracer

`bradtimeline.c`: a run loop of its own around `bvrt_step`, which records an event and counts the
opcode for every instruction it retires. `events` is the used part of the array of events.
-/

namespace BradVector

open CSem

def bvtlMaxEvents : Nat := 65536

structure BvtlEvent where
  cycle : Nat
  pc : Word
  op : Byte
  activeLanes : Byte

structure Bvtl where
  dev : Device
  events : List BvtlEvent
  insns : Nat
  traps : Nat
  opHist : Byte → Nat

def bvtlCreate (dev : Device) : Bvtl where
  dev := dev
  events := []
  insns := 0
  traps := 0
  opHist := fun _ => 0

def popcount32 (x : Word) : Nat := (List.range 32).countP x.getLsbD

/-- The opcode byte an event is recorded with. -/
def Bvtl.eventOp (tl : Bvtl) (pc : Word) : Byte :=
  if pc.toNat < tl.dev.img.ninsn then insnField 56 (tl.dev.img.insn pc.toNat) else 0xFF

/-- The record of an instruction that was at `pc`, if there is room for another event. -/
def Bvtl.record (tl : Bvtl) (pc : Word) (activeLanes : Byte) : Bvtl :=
  if tl.events.length < bvtlMaxEvents then
    let op := tl.eventOp pc
    { tl with
      events := tl.events ++ [⟨tl.insns, pc, op, activeLanes⟩]
      opHist := Function.update tl.opHist op (tl.opHist op + 1) }
  else tl

def bvtlRetire (F : HostMath) (tl : Bvtl) : Except Access (BvStatus × Bvtl) :=
  let w := tl.dev.warp
  if w.active = 0 then .ok (.halt, tl)
  else do
    let (st, dev) ← bvrtStep F tl.dev
    let tl := { tl with dev, insns := tl.insns + 1 }
    let tl := tl.record w.pc (BitVec.ofNat 8 (popcount32 w.active))
    if st = .trap ∨ st = .oob then return (st, { tl with traps := tl.traps + 1 })
    else return (st, tl)

/-- The loop of `bvtl_run`, with `fuel` iterations left. -/
def bvtlRunLoop (F : HostMath) (maxInsns : Nat) : Nat → Bvtl → Except Access (BvStatus × Bvtl)
  | fuel + 1, tl =>
      if tl.insns < maxInsns then
        match bvtlRetire F tl with
        | .ok (.ok, tl) => bvtlRunLoop F maxInsns fuel tl
        | r => r
      else .ok (.timeout, tl)
  | 0, tl => .ok (.timeout, tl)

/-- `bvtl_run`. Every iteration but the last retires one instruction, so the budget bounds them. -/
def bvtlRun (F : HostMath) (tl : Bvtl) (maxInsns : Nat) : Except Access (BvStatus × Bvtl) :=
  bvtlRunLoop F maxInsns (maxInsns - tl.insns) tl

end BradVector
