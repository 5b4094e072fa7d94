import BradVector.Isa
import Mathlib.Data.List.FinRange
import Mathlib.Data.Rat.Defs
import Mathlib.Logic.Function.Basic

/-!
# The power governor

The profiles and the declared workloads of `eroe.c`. A load factor is a number; the comparisons of
`float` with 0 and 1 are those of numbers.
-/

namespace BradVector

open CSem

def eroeMaxWorkloads : Nat := 32

/-- `sizeof(w->name)`. -/
def eroeNameSize : Nat := 32

/-- `enum eroe_profile`, which the code compares as a number. -/
def eroeProfileIdle : Word := 4
def eroeProfileBattery : Word := 5
def eroeProfileCustom : Word := 6

structure EroePowerBudget where
  cpuPct : Word
  gpuPct : Word
  npuPct : Word
  memPct : Word
  deriving DecidableEq, Repr

/-- `struct workload_entry`, with the name up to its terminator. -/
structure WorkloadEntry where
  name : List Byte
  unit : Word
  loadFactor : ℚ
  active : Bool
  deriving DecidableEq, Repr

/-- A slot after `memset`. -/
def WorkloadEntry.zero : WorkloadEntry := ⟨[], 0, 0, false⟩

/-- `eroe_state`, as far as the functions here read it. -/
structure Eroe where
  activeProfile : Word
  baseBudget : EroePowerBudget
  effBudget : EroePowerBudget
  workloads : Fin eroeMaxWorkloads → WorkloadEntry
  numWorkloads : Nat
  initialized : Bool

/-- `default_budgets`. -/
def eroeDefaultBudgets : List EroePowerBudget :=
  [⟨80, 10, 10, 60⟩, ⟨30, 70, 20, 90⟩, ⟨10, 10, 80, 70⟩, ⟨10, 30, 0, 40⟩, ⟨5, 0, 0, 10⟩,
    ⟨30, 20, 20, 30⟩, ⟨25, 25, 25, 50⟩]

/-- `preset`. -/
def eroePreset (p : Word) : EroePowerBudget :=
  let i := if p ≤ eroeProfileBattery then p else eroeProfileCustom
  eroeDefaultBudgets.getD i.toNat ⟨0, 0, 0, 0⟩

def eroeInit : Eroe where
  activeProfile := eroeProfileIdle
  baseBudget := eroePreset eroeProfileIdle
  effBudget := eroePreset eroeProfileIdle
  workloads _ := .zero
  numWorkloads := 0
  initialized := true

def eroeSetProfile (e : Eroe) (profile : Word) : Int × Eroe :=
  if ¬ e.initialized then (-enodev, e)
  else if eroeProfileCustom < profile then (-einval, e)
  else
    (0, { e with
      activeProfile := profile
      baseBudget := eroePreset profile
      workloads := fun _ => .zero
      numWorkloads := 0
      effBudget := eroePreset profile })

/-- `eroe_set_custom_profile`, with the budget of the configuration, or a null pointer. -/
def eroeSetCustomProfile (e : Eroe) (cfg : Option EroePowerBudget) : Int × Eroe :=
  if ¬ e.initialized then (-enodev, e)
  else
    match cfg with
    | none => (-einval, e)
    | some budget =>
        (0, { e with
          activeProfile := eroeProfileCustom
          baseBudget := budget
          workloads := fun _ => .zero
          numWorkloads := 0
          effBudget := budget })

/-- The slot that the loop of `eroe_declare_workload` ends with: the active one with the name, or
else the first that is not active. -/
def findWorkloadSlot (workloads : Fin eroeMaxWorkloads → WorkloadEntry) (name : List Byte) :
    List (Fin eroeMaxWorkloads) → Option (Fin eroeMaxWorkloads) → Option (Fin eroeMaxWorkloads)
  | [], slot => slot
  | i :: rest, slot =>
      if (workloads i).active && (workloads i).name = name then some i
      else
        findWorkloadSlot workloads name rest
          (if ¬ (workloads i).active ∧ slot = none then some i else slot)

/-- The entries in use. -/
def countActive (workloads : Fin eroeMaxWorkloads → WorkloadEntry) : Nat :=
  (List.finRange eroeMaxWorkloads).countP fun i => (workloads i).active

/-- The entry that a declaration writes. -/
def WorkloadEntry.declared (name : List Byte) (unit : Word) (loadFactor : ℚ) : WorkloadEntry :=
  ⟨name.take (eroeNameSize - 1), unit, loadFactor, 0 < loadFactor⟩

def eroeDeclareWorkload (e : Eroe) (name : Option (List Byte)) (unit : Word) (loadFactor : ℚ) :
    Int × Eroe :=
  if ¬ e.initialized then (-enodev, e)
  else
    match name with
    | none => (-einval, e)
    | some name =>
        if loadFactor < 0 ∨ 1 < loadFactor then (-einval, e)
        else
          match findWorkloadSlot e.workloads name (List.finRange eroeMaxWorkloads) none with
          | none => (-enospc, e)
          | some slot =>
              let w := WorkloadEntry.declared name unit loadFactor
              let workloads := Function.update e.workloads slot w
              if w.active then (0, { e with workloads, numWorkloads := countActive workloads })
              else (0, { e with workloads })

end BradVector
