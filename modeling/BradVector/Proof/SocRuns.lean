import BradVector.Library.Interleaving
import BradVector.Proof.CoreTermination

/-!
# The cores of a chip

The cores share the memory and take their steps in turn. A step reads and writes no more than the
words it fetches, loads and stores, so that cores which keep out of each other's stores run as if
they were alone, whatever the order of their steps.
-/

namespace BradVector.CoreEmu

open CSem CSem.Machine

/-! ### What a step touches -/

/-- The word the step loads or stores. -/
def Emu.accessing (memSize : Nat) (s : Emu) : Option Word :=
  s.executing.bind fun (pc, d) => (s.effect memSize pc d).access

/-- The word the step may fetch. -/
def Emu.fetching (memSize : Nat) (s : Emu) : Option Word :=
  if s.core.running ∧ s.branches memSize = false ∧ ¬ memSize < (s.core.pc + 4).toNat then
    some s.core.pc
  else none

/-- The bytes of a word at `a`, if there is one. -/
def wordBytes (a : Option Word) : Set Nat := {x | ∃ w, a = some w ∧ w.toNat ≤ x ∧ x < w.toNat + 4}

/-- The word the step stores. -/
def Emu.stored (memSize : Nat) (s : Emu) : Option Word :=
  s.executing.bind fun (pc, d) => if d.opcode = .stw then (s.effect memSize pc d).access else none

def Emu.touches (memSize : Nat) (s : Emu) : Set Nat :=
  wordBytes (s.accessing memSize) ∪ wordBytes (s.fetching memSize)

def Emu.writes (memSize : Nat) (s : Emu) : Set Nat := wordBytes (s.stored memSize)

section Step

variable {memSize : Nat} {s : Emu} {mem mem' : Nat → Byte}

theorem wordBytes_none : wordBytes none = ∅ := by
  ext x
  simp [wordBytes]

theorem mem_wordBytes {w : Word} {x : Nat} :
    x ∈ wordBytes (some w) ↔ w.toNat ≤ x ∧ x < w.toNat + 4 := by
  simp [wordBytes]

theorem wordAt_of_eqOn {w : Word} (h : Set.EqOn mem' mem (wordBytes (some w))) :
    wordAt mem' w.toNat = wordAt mem w.toNat := by
  apply wordAt_congr
  intro i hi
  exact h (mem_wordBytes.mpr ⟨by omega, by omega⟩)

theorem fetch_congr (core : CoreState)
    (h : ¬ memSize < (core.pc + 4).toNat → wordAt mem' core.pc.toNat = wordAt mem core.pc.toNat) :
    fetch core mem' memSize = fetch core mem memSize := by
  unfold fetch
  by_cases hfault : memSize < (core.pc + 4).toNat
  · simp only [hfault, if_true]
  · simp only [hfault, if_false, h hfault]

theorem fetchStage_congr (core : CoreState)
    (h : ¬ memSize < (core.pc + 4).toNat → wordAt mem' core.pc.toNat = wordAt mem core.pc.toNat) :
    (fetchStage ⟨core, mem'⟩ memSize).core = (fetchStage ⟨core, mem⟩ memSize).core := by
  have hinto : fetchInto ⟨core, mem'⟩ memSize = fetchInto ⟨core, mem⟩ memSize := by
    unfold fetchInto
    dsimp only
    rw [fetch_congr core h]
  rw [fetchStage_eq, fetchStage_eq, hinto]

/-- What an execution does in two memories that agree on the word it accesses. -/
structure SameExecution (store : Option Word) (mem' : Nat → Byte) (e e' : Executed) : Prop where
  core : e'.core = e.core
  taken : e'.taken = e.taken
  written : Set.EqOn e'.mem e.mem (wordBytes store)
  frame : ∀ x ∉ wordBytes store, e'.mem x = mem' x

theorem execute_mem_congr (core : CoreState) (d : BradInsn) (insnPc : Word)
    (h : Set.EqOn mem' mem (wordBytes (execute core d mem memSize insnPc).access)) :
    SameExecution (if d.opcode = .stw then (execute core d mem memSize insnPc).access
      else none) mem' (execute core d mem memSize insnPc) (execute core d mem' memSize insnPc) := by
  by_cases hstw : d.opcode = .stw
  · rw [if_pos hstw, execute_stw hstw, execute_stw hstw]
    by_cases hfault : memSize < (dataAddr core d + 4).toNat
    · rw [if_pos hfault, if_pos hfault]
      exact ⟨rfl, rfl, by rw [wordBytes_none]; exact Set.eqOn_empty _ _, fun _ _ => rfl⟩
    · rw [if_neg hfault, if_neg hfault]
      refine ⟨rfl, rfl, fun x hx => ?_, fun x hx => ?_⟩
      · obtain ⟨hlo, hhi⟩ := mem_wordBytes.mp hx
        dsimp only
        unfold writeBytes
        rw [toLE_length, if_pos ⟨hlo, hhi⟩, if_pos ⟨hlo, hhi⟩]
      · rw [mem_wordBytes] at hx
        exact writeBytes_of_disjoint (by rw [toLE_length]; omega)
  rw [if_neg hstw]
  have hmem : ∀ m, (execute core d m memSize insnPc).mem = m := fun m =>
    execute_mem_of_ne_stw core d m memSize insnPc hstw
  have hsame : (execute core d mem' memSize insnPc).core =
      (execute core d mem memSize insnPc).core ∧
      (execute core d mem' memSize insnPc).taken = (execute core d mem memSize insnPc).taken := by
    by_cases hldw : d.opcode = .ldw
    · rw [execute_ldw hldw] at h
      rw [execute_ldw hldw, execute_ldw hldw]
      by_cases hfault : memSize < (dataAddr core d + 4).toNat
      · rw [if_pos hfault, if_pos hfault]
        exact ⟨rfl, rfl⟩
      · rw [if_neg hfault] at h
        rw [if_neg hfault, if_neg hfault, wordAt_of_eqOn h]
        exact ⟨rfl, rfl⟩
    · clear h hmem
      unfold execute
      dsimp only
      cases hop : d.opcode with
      | ldw => exact absurd hop hldw
      | stw => exact absurd hop hstw
      | add | sub | mul | and | or | xor | shl | shr | bz | bnz =>
          dsimp only
          split_ifs <;> exact ⟨rfl, rfl⟩
      | addi | jmp | call | ret => exact ⟨rfl, rfl⟩
  refine ⟨hsame.1, hsame.2, by rw [wordBytes_none]; exact Set.eqOn_empty _ _, fun x _ => ?_⟩
  rw [hmem]

/-- Which pipeline runs does not depend on the memory. -/
theorem coreEmuStep_runs (memSize : Nat) (core : CoreState) (hrunning : core.running = true) :
    ∃ retires flushes,
      (∀ mem, coreEmuStep ⟨core, mem⟩ memSize = runPipeline retires flushes ⟨core, mem⟩ memSize) ∧
        ∀ core d mem insnPc, flushes (execute core d mem memSize insnPc) =
          (execute core d mem memSize insnPc).taken := by
  cases hmodel : core.model with
  | phoenix =>
      refine ⟨false, fun e => e.ret = 0 && e.taken, fun mem => ?_, fun core d mem insnPc => ?_⟩
      · simp [coreEmuStep, hrunning, hmodel, runPhoenixPipeline]
      · cases htaken : (execute core d mem memSize insnPc).taken with
        | false => simp [htaken]
        | true => simp [htaken, execute_ret_of_taken core d mem memSize insnPc htaken]
  | falcon =>
      refine ⟨true, fun e => e.taken, fun mem => ?_, fun _ _ _ _ => rfl⟩
      simp [coreEmuStep, hrunning, hmodel, runFalconPipeline]
  | kestrel =>
      refine ⟨false, fun e => e.taken, fun mem => ?_, fun _ _ _ _ => rfl⟩
      simp [coreEmuStep, hrunning, hmodel, runKestrelPipeline]
  | falconLite =>
      refine ⟨true, fun e => e.taken, fun mem => ?_, fun _ _ _ _ => rfl⟩
      simp [coreEmuStep, hrunning, hmodel, runFalconLitePipeline]

/-- What a step does in two memories that agree on what it touches. -/
structure SameStep (writes : Set Nat) (mem' : Nat → Byte) (t t' : Emu) : Prop where
  core : t'.core = t.core
  written : Set.EqOn t'.mem t.mem writes
  frame : ∀ x ∉ writes, t'.mem x = mem' x

theorem SameStep.of_stopped (h : s.core.running = false) :
    SameStep (s.writes memSize) mem' (coreEmuStep s memSize)
      (coreEmuStep ⟨s.core, mem'⟩ memSize) := by
  have hidle : s.executing = none := if_neg (by simp [h])
  have hstored : s.stored memSize = none := by
    rw [Emu.stored, hidle]
    rfl
  have hstopped : coreEmuStep ⟨s.core, mem'⟩ memSize = ⟨s.core, mem'⟩ := coreEmuStep_of_stopped h
  rw [hstopped, coreEmuStep_of_stopped h, Emu.writes, hstored, wordBytes_none]
  exact ⟨rfl, Set.eqOn_empty _ _, fun _ _ => rfl⟩

/-- The fetch behind an instruction that does not branch. -/
theorem SameExecution.fetchStage {core : CoreState} {d : BradInsn} {pc : Word} {store : Option Word}
    (retires : Bool) (hsame : SameExecution store mem' (execute core d mem memSize pc)
      (execute core d mem' memSize pc))
    (hframe : ∀ x ∉ wordBytes store, (execute core d mem memSize pc).mem x = mem x)
    (htaken : (execute core d mem memSize pc).taken = false)
    (hfetch : ¬ memSize < (core.pc + 4).toNat → Set.EqOn mem' mem (wordBytes (some core.pc))) :
    SameStep (wordBytes store) mem'
      (fetchStage ⟨(execute core d mem memSize pc).core.leave retires,
        (execute core d mem memSize pc).mem⟩ memSize)
      (fetchStage ⟨(execute core d mem' memSize pc).core.leave retires,
        (execute core d mem' memSize pc).mem⟩ memSize) := by
  obtain ⟨hcore, -, hwritten, hframe'⟩ := hsame
  obtain ⟨pipeline, hleave⟩ := leave_frame (execute core d mem memSize pc).core retires
  have hpc : ((execute core d mem memSize pc).core.leave retires).pc = core.pc := by
    rw [hleave]
    exact execute_pc_of_not_taken core d mem memSize pc htaken
  refine ⟨?_, hwritten, hframe'⟩
  rw [hcore]
  refine fetchStage_congr _ fun hpasses => ?_
  rw [hpc] at hpasses ⊢
  refine wordAt_of_eqOn fun x hx => ?_
  by_cases hstore : x ∈ wordBytes store
  · exact hwritten hstore
  · rw [hframe' x hstore, hframe x hstore, hfetch hpasses hx]

/-- A step touches nothing but what `touches` says. -/
theorem coreEmuStep_congr (h : Set.EqOn mem' s.mem (s.touches memSize)) :
    SameStep (s.writes memSize) mem' (coreEmuStep s memSize)
      (coreEmuStep ⟨s.core, mem'⟩ memSize) := by
  cases hrunning : s.core.running with
  | false => exact SameStep.of_stopped hrunning
  | true =>
      obtain ⟨retires, flushes, hruns, hflushes⟩ := coreEmuStep_runs memSize s.core hrunning
      have haccess : Set.EqOn mem' s.mem (wordBytes (s.accessing memSize)) :=
        h.mono Set.subset_union_left
      have hfetch : s.branches memSize = false → ¬ memSize < (s.core.pc + 4).toNat →
          Set.EqOn mem' s.mem (wordBytes (some s.core.pc)) := by
        intro hline hpasses
        have hfetching : s.fetching memSize = some s.core.pc := if_pos ⟨hrunning, hline, hpasses⟩
        exact hfetching ▸ h.mono Set.subset_union_right
      cases hexecuting : (advancePipeline s.core.pipeline).executing with
      | none =>
          have hidle : s.executing = none := (Emu.executing_of_running hrunning).trans hexecuting
          have hstored : s.stored memSize = none := by
            rw [Emu.stored, hidle]
            rfl
          have hline : s.branches memSize = false := by
            rw [Emu.branches, hidle]
            rfl
          have hstep : ∀ m, coreEmuStep ⟨s.core, m⟩ memSize = fetchStage ⟨s.advanced, m⟩ memSize :=
            fun m => (hruns m).trans (runPipeline_of_idle retires flushes hexecuting)
          rw [hstep mem', show coreEmuStep s memSize = _ from hstep s.mem, Emu.writes, hstored,
            wordBytes_none]
          have hword := fun hpasses => wordAt_of_eqOn (hfetch hline hpasses)
          exact ⟨fetchStage_congr s.advanced hword, Set.eqOn_empty _ _, fun _ _ => rfl⟩
      | some found =>
          obtain ⟨pc, d⟩ := found
          have hbusy : s.executing = some (pc, d) :=
            (Emu.executing_of_running hrunning).trans hexecuting
          have hstored : s.stored memSize =
              if d.opcode = .stw then (s.effect memSize pc d).access else none := by
            rw [Emu.stored, hbusy]
            rfl
          have haccessing : s.accessing memSize = (s.effect memSize pc d).access := by
            rw [Emu.accessing, hbusy]
            rfl
          rw [haccessing] at haccess
          have hsame := execute_mem_congr s.advanced d pc haccess
          have hself := execute_mem_congr s.advanced d pc
            (Set.eqOn_refl s.mem (wordBytes (s.effect memSize pc d).access))
          rw [Emu.writes, hstored]
          cases hbranch : (s.effect memSize pc d).taken with
          | true =>
              have hstep : ∀ m, (execute s.advanced d m memSize pc).taken = true →
                  coreEmuStep ⟨s.core, m⟩ memSize =
                    ⟨((execute s.advanced d m memSize pc).core.leave retires).flush,
                      (execute s.advanced d m memSize pc).mem⟩ := fun m htaken =>
                (hruns m).trans (runPipeline_of_flush retires flushes hexecuting rfl
                  ((hflushes _ _ _ _).trans htaken))
              rw [hstep mem' (hsame.taken.trans hbranch),
                show coreEmuStep s memSize = _ from hstep s.mem hbranch]
              exact ⟨congrArg (fun core => (core.leave retires).flush) hsame.core, hsame.written,
                hsame.frame⟩
          | false =>
              have hstep : ∀ m, (execute s.advanced d m memSize pc).taken = false →
                  coreEmuStep ⟨s.core, m⟩ memSize =
                    fetchStage ⟨(execute s.advanced d m memSize pc).core.leave retires,
                      (execute s.advanced d m memSize pc).mem⟩ memSize := fun m htaken =>
                (hruns m).trans (runPipeline_of_not_flush retires flushes hexecuting rfl
                  ((hflushes _ _ _ _).trans htaken))
              have hline : s.branches memSize = false := (branches_of_executing hbusy).trans hbranch
              rw [hstep mem' (hsame.taken.trans hbranch),
                show coreEmuStep s memSize = _ from hstep s.mem hbranch]
              exact hsame.fetchStage retires hself.frame hbranch (hfetch hline)

end Step

/-! ### Processes -/

/-- The step as that of a process. -/
def coreProcess (memSize : Nat) (core : CoreState) (mem : Nat → Byte) : CoreState × (Nat → Byte) :=
  ((coreEmuStep ⟨core, mem⟩ memSize).core, (coreEmuStep ⟨core, mem⟩ memSize).mem)

theorem alone_coreProcess (memSize n : Nat) (s : Emu) :
    alone (coreProcess memSize) n (s.core, s.mem) = ((s.run memSize n).core,
      (s.run memSize n).mem) := by
  induction n with
  | zero => rfl
  | succ n ih =>
      rw [alone_succ, ih, run_succ]
      rfl

/-- A core that stops touches nothing afterwards. -/
theorem Emu.run_within {memSize m : Nat} {s : Emu} {A W : Set Nat}
    (hstop : (s.run memSize m).core.running = false)
    (h : ∀ n < m, (s.run memSize n).touches memSize ⊆ A ∧ (s.run memSize n).writes memSize ⊆ W)
    (n : Nat) :
    (s.run memSize n).touches memSize ⊆ A ∧ (s.run memSize n).writes memSize ⊆ W := by
  by_cases hn : n < m
  · exact h n hn
  · have hstopped : (s.run memSize n).core.running = false := by
      induction n, Nat.le_of_not_lt hn using Nat.le_induction with
      | base => exact hstop
      | succ n hle ih => rw [run_succ, coreEmuStep_of_stopped (ih (by omega)), ih (by omega)]
    have hidle : (s.run memSize n).executing = none := if_neg (by simp [hstopped])
    have hfetching : (s.run memSize n).fetching memSize = none := if_neg (by simp [hstopped])
    rw [Emu.touches, Emu.writes, Emu.accessing, Emu.stored, hfetching, hidle]
    simp [wordBytes_none]

theorem coreEmuStep_within {memSize : Nat} {s : Emu} {A W : Set Nat} (hA : s.touches memSize ⊆ A)
    (hW : s.writes memSize ⊆ W) (hsub : W ⊆ A) :
    StepWithin (coreProcess memSize) A W (s.core, s.mem) where
  state mem h := (coreEmuStep_congr (h.mono hA)).core
  written mem h := by
    obtain ⟨-, hwritten, hframe⟩ := coreEmuStep_congr (h.mono hA)
    obtain ⟨-, -, hself⟩ := coreEmuStep_congr (Set.eqOn_refl s.mem (s.touches memSize))
    intro x hx
    by_cases hstore : x ∈ s.writes memSize
    · exact hwritten hstore
    · exact (hframe x hstore).trans ((h (hsub hx)).trans (hself x hstore).symm)
  frame mem h x hx := (coreEmuStep_congr (h.mono hA)).frame x fun hstore => hx (hW hstore)

/-! ### The rounds of the chip -/

/-- The pairs of loop counters of a round, in their order. -/
def SocEmu.schedule (soc : SocEmu) : List (Nat × Nat) :=
  (List.range soc.numClusters.toNat).flatMap fun c =>
    (List.range soc.total.toNat).map fun i => (c, i)

/-- The cores the chip has. -/
def SocEmu.Has (soc : SocEmu) (k : Nat × Nat) : Prop :=
  k.1 < soc.numClusters.toNat ∧ k.2 < soc.total.toNat

/-- Core `k` on its own. -/
def SocEmu.only (soc : SocEmu) (k : Nat × Nat) : Emu := ⟨soc.cores k.1 k.2, soc.memory⟩

/-- On its own, every core stays in its region of the memory, and no other core accesses what it
stores. -/
structure SocEmu.Isolated (soc : SocEmu) (A W : Nat × Nat → Set Nat) : Prop where
  sub : ∀ k, soc.Has k → W k ⊆ A k
  inMemory : ∀ k, soc.Has k → ∀ x ∈ A k, x < soc.memSize
  apart : ∀ k, soc.Has k → ∀ l, soc.Has l → k ≠ l → ∀ x ∈ W k, x ∉ A l
  touches : ∀ k, soc.Has k → ∀ n, ((soc.only k).run soc.memSize n).touches soc.memSize ⊆ A k
  writes : ∀ k, soc.Has k → ∀ n, ((soc.only k).run soc.memSize n).writes soc.memSize ⊆ W k

/-- Each core has taken `n` steps of its own. -/
structure SocEmu.AfterRounds (soc : SocEmu) (A W : Nat × Nat → Set Nat) (n : Nat) (soc' : SocEmu) :
    Prop where
  cores : ∀ k, soc.Has k → soc'.cores k.1 k.2 = ((soc.only k).run soc.memSize n).core
  accessed : ∀ k, soc.Has k → Set.EqOn soc'.memory ((soc.only k).run soc.memSize n).mem (A k)
  others : ∀ x, (∀ k, soc.Has k → x ∉ W k) → soc'.memory x = soc.memory x

section Rounds

variable {soc soc' : SocEmu} {A W : Nat × Nat → Set Nat}

/-- The states of the cores and the memory. -/
def SocEmu.world (soc : SocEmu) : World (Nat × Nat) CoreState Nat Byte :=
  (fun k => soc.cores k.1 k.2, soc.memory)

theorem mem_schedule {k : Nat × Nat} : k ∈ soc.schedule ↔ soc.Has k := by
  unfold SocEmu.schedule SocEmu.Has
  rw [List.mem_flatMap]
  constructor
  · rintro ⟨c, hc, hk⟩
    obtain ⟨i, hi, rfl⟩ := List.mem_map.mp hk
    exact ⟨List.mem_range.mp hc, List.mem_range.mp hi⟩
  · rintro ⟨hc, hi⟩
    exact ⟨k.1, List.mem_range.mpr hc, List.mem_map.mpr ⟨k.2, List.mem_range.mpr hi, rfl⟩⟩

theorem count_schedule {k : Nat × Nat} (h : soc.Has k) : soc.schedule.count k = 1 := by
  have hnodup : soc.schedule.Nodup := by
    refine List.nodup_flatMap.mpr ⟨fun c _ => ?_, ?_⟩
    · exact List.nodup_range.map fun i j hij => (Prod.mk.inj hij).2
    · refine List.nodup_range.imp fun {c c'} hne k hk hk' => ?_
      obtain ⟨i, -, rfl⟩ := List.mem_map.mp hk
      obtain ⟨i', -, heq⟩ := List.mem_map.mp hk'
      exact hne (Prod.mk.inj heq).1.symm
  exact List.count_eq_one_of_mem hnodup (mem_schedule.mpr h)

/-- Everything but the states of the cores and the memory is the same. -/
structure SocEmu.SameShape (soc soc' : SocEmu) : Prop where
  memSize : soc'.memSize = soc.memSize
  numClusters : soc'.numClusters = soc.numClusters
  total : soc'.total = soc.total
  totalCycles : soc'.totalCycles = soc.totalCycles

theorem runAllCore_spec (c i : Nat) (p : Bool × SocEmu) :
    (runAllCore c i p).2.world = stepOf (coreProcess p.2.memSize) p.2.world (c, i) ∧
      p.2.SameShape (runAllCore c i p).2 := by
  unfold runAllCore
  cases hrunning : (p.2.cores c i).running with
  | false =>
      have hstopped : coreEmuStep ⟨p.2.cores c i, p.2.memory⟩ p.2.memSize =
          ⟨p.2.cores c i, p.2.memory⟩ :=
        coreEmuStep_of_stopped hrunning
      have hupdate : Function.update p.2.world.1 (c, i) (p.2.cores c i) = p.2.world.1 :=
        Function.update_eq_self (c, i) p.2.world.1
      refine ⟨?_, ⟨rfl, rfl, rfl, rfl⟩⟩
      rw [if_neg (by simp)]
      unfold stepOf coreProcess
      dsimp only [SocEmu.world] at hupdate ⊢
      rw [hstopped, hupdate]
  | true =>
      refine ⟨?_, ⟨rfl, rfl, rfl, rfl⟩⟩
      rw [if_pos rfl]
      refine Prod.ext (funext fun k => ?_) rfl
      obtain ⟨c', i'⟩ := k
      by_cases hc : c' = c
      · subst hc
        by_cases hi : i' = i
        · subst hi
          simp [SocEmu.world, SocEmu.step, stepOf, coreProcess]
        · simp [SocEmu.world, SocEmu.step, stepOf, hi]
      · simp [SocEmu.world, SocEmu.step, stepOf, hc]

theorem SocEmu.SameShape.trans {a b c : SocEmu} (h : a.SameShape b) (h' : b.SameShape c) :
    a.SameShape c :=
  ⟨h'.memSize.trans h.memSize, h'.numClusters.trans h.numClusters, h'.total.trans h.total,
    h'.totalCycles.trans h.totalCycles⟩

/-- The loops of a round as one loop over the pairs. -/
theorem runAllCores_spec (ks : List (Nat × Nat)) (p : Bool × SocEmu) :
    let q := ks.foldl (fun p k => runAllCore k.1 k.2 p) p
    q.2.world = ks.foldl (stepOf (coreProcess p.2.memSize)) p.2.world ∧ p.2.SameShape q.2 := by
  induction ks generalizing p with
  | nil => exact ⟨rfl, ⟨rfl, rfl, rfl, rfl⟩⟩
  | cons k ks ih =>
      obtain ⟨hworld, hshape⟩ := runAllCore_spec k.1 k.2 p
      obtain ⟨hworld', hshape'⟩ := ih (runAllCore k.1 k.2 p)
      refine ⟨?_, hshape.trans hshape'⟩
      rw [hshape.memSize, hworld] at hworld'
      exact hworld'

/-- A round in which no core was running has done nothing. -/
theorem runAllCores_idle {ks : List (Nat × Nat)} {p : Bool × SocEmu}
    (h : (ks.foldl (fun p k => runAllCore k.1 k.2 p) p).1 = false) :
    p.1 = false ∧ (ks.foldl (fun p k => runAllCore k.1 k.2 p) p).2 = p.2 ∧
      ∀ k ∈ ks, (p.2.cores k.1 k.2).running = false := by
  induction ks generalizing p with
  | nil => exact ⟨h, rfl, fun k hk => absurd hk List.not_mem_nil⟩
  | cons k ks ih =>
      obtain ⟨hflag, hsame, hstopped⟩ := ih h
      cases hrunning : (p.2.cores k.1 k.2).running with
      | true =>
          have hstep : runAllCore k.1 k.2 p = (true, p.2.step k.1 k.2) := if_pos hrunning
          dsimp only at hflag
          rw [hstep] at hflag
          cases hflag
      | false =>
          have hskip : runAllCore k.1 k.2 p = p := if_neg (by simp [hrunning])
          dsimp only at hflag hsame hstopped
          rw [hskip] at hflag hsame hstopped
          refine ⟨hflag, ?_, fun l hl => ?_⟩
          · rw [List.foldl_cons, hskip]
            exact hsame
          · rcases List.mem_cons.mp hl with rfl | hl
            · exact hrunning
            · exact hstopped l hl

theorem runAllRound_eq (soc : SocEmu) :
    runAllRound soc =
      let p := soc.schedule.foldl (fun p k => runAllCore k.1 k.2 p) (false, soc)
      (p.1, { p.2 with totalCycles := p.2.totalCycles + 1 }) := by
  have hloops : (List.range soc.numClusters.toNat).foldl
      (fun p c => (List.range soc.total.toNat).foldl (fun p i => runAllCore c i p) p) (false, soc) =
      soc.schedule.foldl (fun p k => runAllCore k.1 k.2 p) (false, soc) := by
    simp only [SocEmu.schedule, List.foldl_flatMap, List.foldl_map]
  rw [runAllRound, hloops]

/-- The schedule of `n` rounds. -/
def SocEmu.rounds (soc : SocEmu) (n : Nat) : List (Nat × Nat) :=
  (List.replicate n soc.schedule).flatten

theorem rounds_succ (soc : SocEmu) (n : Nat) : soc.rounds (n + 1) =
    soc.rounds n ++ soc.schedule := by
  rw [SocEmu.rounds, List.replicate_succ', List.flatten_concat]
  rfl

theorem count_rounds {k : Nat × Nat} (h : soc.Has k) (n : Nat) : (soc.rounds n).count k = n := by
  induction n with
  | zero => rfl
  | succ n ih => rw [rounds_succ, List.count_append, ih, count_schedule h]

theorem mem_rounds {k : Nat × Nat} {n : Nat} (h : k ∈ soc.rounds n) : soc.Has k := by
  induction n with
  | zero => exact absurd h List.not_mem_nil
  | succ n ih =>
      rw [rounds_succ, List.mem_append] at h
      exact h.elim ih mem_schedule.mp

/-- The chip after `n` rounds. -/
structure SocEmu.Rounds (soc : SocEmu) (n : Nat) (soc' : SocEmu) : Prop where
  memSize : soc'.memSize = soc.memSize
  schedule : soc'.schedule = soc.schedule
  totalCycles : soc'.totalCycles = soc.totalCycles + (n : BitVec 64)
  world : soc'.world = (soc.rounds n).foldl (stepOf (coreProcess soc.memSize)) soc.world

theorem SocEmu.SameShape.schedule (h : soc.SameShape soc') : soc'.schedule = soc.schedule := by
  rw [SocEmu.schedule, SocEmu.schedule, h.numClusters, h.total]

theorem SocEmu.Rounds.next {n : Nat} (h : soc.Rounds n soc') :
    soc.Rounds (n + 1) (runAllRound soc').2 := by
  obtain ⟨hworld, hshape⟩ := runAllCores_spec soc'.schedule (false, soc')
  rw [runAllRound_eq]
  refine ⟨hshape.memSize.trans h.memSize, hshape.schedule.trans h.schedule, ?_, ?_⟩
  · dsimp only
    rw [hshape.totalCycles, h.totalCycles, Nat.cast_succ, add_assoc]
  · rw [rounds_succ, List.foldl_append, ← h.world, ← h.schedule, ← h.memSize]
    exact hworld

theorem SocEmu.Isolated.apart' (h : soc.Isolated A W) :
    Apart (coreProcess soc.memSize) {k | soc.Has k} A W soc.world where
  sub := h.sub
  apart := h.apart
  within k hk n := by
    have hwithin := coreEmuStep_within (h.touches k hk n) (h.writes k hk n) (h.sub k hk)
    rw [← alone_coreProcess] at hwithin
    exact hwithin

theorem SocEmu.Isolated.afterRounds (h : soc.Isolated A W) {n : Nat} (hn : soc.Rounds n soc') :
    soc.AfterRounds A W n soc' := by
  obtain ⟨hstate, haccessed, hothers⟩ := h.apart'.schedule (soc.rounds n) fun _ => mem_rounds
  rw [← hn.world] at hstate haccessed hothers
  refine ⟨fun k hk => ?_, fun k hk => ?_, hothers⟩
  · have hcore := hstate k hk
    rw [count_rounds hk,
      show (soc.world.1 k, soc.world.2) = ((soc.only k).core, (soc.only k).mem) from rfl,
      alone_coreProcess] at hcore
    exact hcore
  · have hmem := haccessed k hk
    rw [count_rounds hk,
      show (soc.world.1 k, soc.world.2) = ((soc.only k).core, (soc.only k).mem) from rfl,
      alone_coreProcess] at hmem
    exact hmem

/-- Every core the chip has is stopped. -/
def SocEmu.Stopped (soc : SocEmu) : Prop := ∀ k, soc.Has k → (soc.cores k.1 k.2).running = false

theorem SocEmu.SameShape.has (h : soc.SameShape soc') (k : Nat × Nat) : soc'.Has k ↔ soc.Has k := by
  rw [SocEmu.Has, SocEmu.Has, h.numClusters, h.total]

/-- A round that found no core running leaves the chip stopped. -/
theorem runAllRound_stopped (h : (runAllRound soc).1 = false) : (runAllRound soc).2.Stopped := by
  obtain ⟨-, hshape⟩ := runAllCores_spec soc.schedule (false, soc)
  rw [runAllRound_eq] at h ⊢
  obtain ⟨-, hsame, hstopped⟩ := runAllCores_idle h
  intro k hk
  have hcore := hstopped k (mem_schedule.mpr ((hshape.has k).mp hk))
  dsimp only
  rw [hsame]
  exact hcore

/-- What holds before each round. -/
structure Between (soc : SocEmu) (maxCycles : BitVec 64) (n : Nat) (p : Bool × SocEmu) : Prop where
  rounds : soc.Rounds n p.2
  le : n ≤ maxCycles.toNat
  stopped : p.1 = false → p.2.Stopped

variable {maxCycles : BitVec 64} {n : Nat} {p : Bool × SocEmu}

theorem Between.elapsed (h : Between soc maxCycles n p) :
    (p.2.totalCycles - soc.totalCycles).toNat = n := by
  have hle := h.le
  have hmax := maxCycles.isLt
  rw [h.rounds.totalCycles, add_sub_cancel_left, BitVec.natCast_eq_ofNat, BitVec.toNat_ofNat,
    Nat.mod_eq_of_lt (by omega)]

theorem Between.step (h : Between soc maxCycles n p) :
    (∃ q, runAllStep soc.totalCycles maxCycles p = .ok q ∧ n < maxCycles.toNat ∧
        Between soc maxCycles (n + 1) q) ∨
      (runAllStep soc.totalCycles maxCycles p = .error p.2 ∧
        (n = maxCycles.toNat ∨ p.2.Stopped)) := by
  have helapsed := h.elapsed
  have hle := h.le
  unfold runAllStep
  by_cases hgoes : p.1 ∧ p.2.totalCycles - soc.totalCycles < maxCycles
  · have hlt : n < maxCycles.toNat := helapsed ▸ BitVec.lt_def.mp hgoes.2
    exact .inl ⟨_, if_pos hgoes, hlt, h.rounds.next, hlt, runAllRound_stopped⟩
  · refine .inr ⟨if_neg hgoes, ?_⟩
    cases hflag : p.1 with
    | false => exact .inr (h.stopped hflag)
    | true =>
        have hend : ¬ p.2.totalCycles - soc.totalCycles < maxCycles := fun hlt => hgoes ⟨hflag, hlt⟩
        rw [BitVec.lt_def, helapsed] at hend
        exact .inl (by omega)

theorem Between.result (h : Between soc maxCycles n p) {fuel : Nat}
    (hfuel : maxCycles.toNat - n < fuel) (d : SocEmu) :
    ∃ m q, resultWithin (runAllStep soc.totalCycles maxCycles) fuel p d = q.2 ∧
      Between soc maxCycles m q ∧ (m = maxCycles.toNat ∨ q.2.Stopped) := by
  induction fuel generalizing n p with
  | zero => exact absurd hfuel (Nat.not_lt_zero _)
  | succ fuel ih =>
      rcases h.step with ⟨q, hstep, hlt, hnext⟩ | ⟨hstep, hend⟩
      · obtain ⟨m, r, hresult, hrest⟩ := ih hnext (by omega)
        refine ⟨m, r, ?_, hrest⟩
        rw [← hresult, resultWithin, resultWithin, after_succ_of_ok hstep]
      · exact ⟨n, p, resultWithin_of_error (after_succ_of_error hstep), h, hend⟩

end Rounds

/-- **Cores that keep out of each other's stores run as if they were alone.** -/
theorem coreEmuRunAll_isolated (soc : SocEmu) (A W : Nat × Nat → Set Nat) (h : soc.Isolated A W)
    (maxCycles : BitVec 64) :
    ∃ n ≤ maxCycles.toNat,
      (coreEmuRunAll soc maxCycles).totalCycles = soc.totalCycles + (n : BitVec 64) ∧
        soc.AfterRounds A W n (coreEmuRunAll soc maxCycles) ∧
        (n = maxCycles.toNat ∨
          ∀ k, soc.Has k → ((coreEmuRunAll soc maxCycles).cores k.1 k.2).running = false) := by
  have hstart : Between soc maxCycles 0 (true, soc) :=
    ⟨⟨rfl, rfl, by simp, rfl⟩, Nat.zero_le _, fun hflag => by cases hflag⟩
  obtain ⟨n, q, hresult, hbetween, hend⟩ := hstart.result (Nat.lt_succ_of_le (Nat.sub_le _ _)) soc
  have hhas : ∀ k, q.2.Has k ↔ soc.Has k := fun k => by
    rw [← mem_schedule, ← mem_schedule, hbetween.rounds.schedule]
  rw [coreEmuRunAll, hresult]
  exact ⟨n, hbetween.le, hbetween.rounds.totalCycles, h.afterRounds hbetween.rounds,
    hend.imp_right fun hstopped k hk => hstopped k ((hhas k).mpr hk)⟩

/-- Two cores that both run the word at 8, `STW r13, [r13 + 0]`, each with a stack pointer of its
own. -/
def twoStores : SocEmu where
  cores _ i := coreInit .falcon 8 (BitVec.ofNat 32 (4 * i))
  memory := writeBytes (fun _ => 0) 8 [0x00, 0x00, 0xDD, 0xA0]
  memSize := 12
  numClusters := 1
  phoenixPerCluster := 0
  falconPerCluster := 2
  kestrelPerCluster := 0
  falconLitePerCluster := 0
  totalCycles := 0
  clusters_le := by decide
  cores_le := by decide

def ownWord (k : Nat × Nat) : Set Nat := wordBytes (some (BitVec.ofNat 32 (4 * k.2)))

theorem twoStores_has {k : Nat × Nat} (h : twoStores.Has k) : ∃ i < 2, k = (0, i) := by
  have hcluster : k.1 < 1 := h.1
  exact ⟨k.2, h.2, Prod.ext (Nat.lt_one_iff.mp hcluster) rfl⟩

theorem mem_ownWord {i x : Nat} (hi : i < 2) : x ∈ ownWord (0, i) ↔ 4 * i ≤ x ∧ x < 4 * i + 4 := by
  have hown : (BitVec.ofNat 32 (4 * i)).toNat = 4 * i := by
    rw [BitVec.toNat_ofNat]
    omega
  rw [ownWord, mem_wordBytes, hown]

theorem wordBytes_subset {o : Option Word} {w : Word} (h : o = none ∨ o = some w) :
    wordBytes o ⊆ wordBytes (some w) := by
  rcases h with rfl | rfl
  · rw [wordBytes_none]
    exact Set.empty_subset _
  · exact subset_rfl

theorem twoStores_steps : ∀ i < 2, ∀ n < 4,
    let s := (twoStores.only (0, i)).run 12 n
    let own : Word := BitVec.ofNat 32 (4 * i)
    (s.accessing 12 = none ∨ s.accessing 12 = some own) ∧
      (s.fetching 12 = none ∨ s.fetching 12 = some 8) ∧
      (s.stored 12 = none ∨ s.stored 12 = some own) := by
  decide

theorem twoStores_within {k : Nat × Nat} (hk : twoStores.Has k) (n : Nat) :
    ((twoStores.only k).run 12 n).touches 12 ⊆ ownWord k ∪ wordBytes (some 8) ∧
      ((twoStores.only k).run 12 n).writes 12 ⊆ ownWord k := by
  obtain ⟨i, hi, rfl⟩ := twoStores_has hk
  have hstop : ∀ i < 2, ((twoStores.only (0, i)).run 12 4).core.running = false := by decide
  refine Emu.run_within (hstop i hi) (fun n hn => ?_) n
  obtain ⟨haccess, hfetch, hstore⟩ := twoStores_steps i hi n hn
  exact ⟨Set.union_subset_union (wordBytes_subset haccess) (wordBytes_subset hfetch),
    wordBytes_subset hstore⟩

theorem twoStores_isolated :
    twoStores.Isolated (fun k => ownWord k ∪ wordBytes (some 8)) ownWord where
  sub k _ := Set.subset_union_left
  inMemory k hk x hx := by
    obtain ⟨i, hi, rfl⟩ := twoStores_has hk
    rw [Set.mem_union, mem_ownWord hi, mem_wordBytes] at hx
    simp [twoStores] at hx ⊢
    omega
  apart k hk l hl hne x hx hx' := by
    obtain ⟨i, hi, rfl⟩ := twoStores_has hk
    obtain ⟨j, hj, rfl⟩ := twoStores_has hl
    have hij : i ≠ j := fun h => hne (by rw [h])
    rw [mem_ownWord hi] at hx
    rw [Set.mem_union, mem_ownWord hj, mem_wordBytes] at hx'
    simp at hx'
    omega
  touches k hk n := (twoStores_within hk n).1
  writes k hk n := (twoStores_within hk n).2

theorem twoStores_run :
    twoStores.Isolated (fun k => ownWord k ∪ wordBytes (some 8)) ownWord ∧
      ∃ n ≤ (5 : BitVec 64).toNat,
        (coreEmuRunAll twoStores 5).totalCycles = twoStores.totalCycles + (n : BitVec 64) ∧
          twoStores.AfterRounds (fun k => ownWord k ∪ wordBytes (some 8)) ownWord n
            (coreEmuRunAll twoStores 5) ∧
          (n = (5 : BitVec 64).toNat ∨
            ∀ k, twoStores.Has k → ((coreEmuRunAll twoStores 5).cores k.1 k.2).running = false) :=
  ⟨twoStores_isolated, coreEmuRunAll_isolated twoStores _ _ twoStores_isolated 5⟩

end BradVector.CoreEmu
