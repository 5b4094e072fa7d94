import BradVector.Bvrt

/-!
# The debugger

`bradgdb.c` and the debugging entry points of a `bradlib` session. `breaks` is the used part of the
array of breakpoints. The echo of instructions while single-stepping is left out.
-/

namespace BradVector

open CSem

def bradgdbMaxBreak : Nat := 64

/-- `struct bradgdb_break`; `enabled` is a C truth value. -/
structure BradgdbBreak where
  pc : Word
  enabled : Int
  hit : Nat
  deriving DecidableEq, Repr

structure Bradgdb where
  dev : Device
  breaks : List BradgdbBreak
  steps : Nat

def bradgdbAttach (dev : Device) : Bradgdb where
  dev := dev
  breaks := []
  steps := 0

/-- The index of the breakpoint at `pc`, which is added unless it is there or the table is full. -/
def bradgdbAddBreak (g : Bradgdb) (pc : Word) : Option (Nat × Bradgdb) :=
  if bradgdbMaxBreak ≤ g.breaks.length then none
  else
    match g.breaks.findIdx? fun b => b.pc = pc with
    | some i => some (i, g)
    | none => some (g.breaks.length, { g with breaks := g.breaks ++ [⟨pc, 1, 0⟩] })

def bradgdbEnableBreak (g : Bradgdb) (id : Nat) (enabled : Int) : Bradgdb :=
  { g with breaks := g.breaks.modify id fun b => { b with enabled } }

def atBreakpoint (breaks : List BradgdbBreak) (pc : Word) : Option Nat :=
  breaks.findIdx? fun b => b.enabled ≠ 0 ∧ b.pc = pc

def bradgdbStep (F : HostMath) (g : Bradgdb) : Except Access (BvStatus × Bradgdb) := do
  let (st, dev) ← bvrtStep F g.dev
  return (st, { g with dev, steps := if st = .ok then g.steps + 1 else g.steps })

/-- What `bradgdb_continue` returns, if it does so within `fuel` iterations of its loop. -/
def bradgdbContinue (F : HostMath) : Nat → Bradgdb → Option (Except Access (BvStatus × Bradgdb))
  | 0, _ => none
  | fuel + 1, g =>
      let w := g.dev.warp
      if w.active = 0 then some (.ok (.halt, g))
      else
        match atBreakpoint g.breaks w.pc with
        | some bp =>
            some (.ok (.ok,
              { g with breaks := g.breaks.modify bp fun b => { b with hit := b.hit + 1 } }))
        | none =>
            match bradgdbStep F g with
            | .ok (.ok, g) => bradgdbContinue F fuel g
            | r => some r

/-- `bradlib_breakpoint` of a session whose debugger is attached. -/
def bradlibBreakpoint (g : Bradgdb) (pc : Word) : Option (Nat × Bradgdb) :=
  (bradgdbAddBreak g pc).map fun r => (r.1, bradgdbEnableBreak r.2 r.1 1)

end BradVector
