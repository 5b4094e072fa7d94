import BradVector.Proof.LaneBody

/-!
# The return stacks

Every lane has a return stack of its own and the warp has one pc. While all calls are unpredicated
and all accesses are in bounds, the 32 stacks are copies of one another, and of the list of calls
not yet returned from. A register field that is out of range can lead into the stacks themselves.
-/

namespace BradVector

open CSem

/-! ### The calls of a run -/

/-- The `CALL` about to be executed, if it is one, is unpredicated. -/
def Device.CallUnpredicated (d : Device) : Prop :=
  d.Executing → Opcode.ofByte d.fetch.op = some .call → d.fetch.pred = 0

/-- Where the calls not yet returned from lead back to, the latest first, after a step from `d`. -/
def Device.pendingCalls (d : Device) (st : BvStatus) (calls : List Word) : List Word :=
  if st ≠ .ok then calls
  else if Opcode.ofByte d.fetch.op = some .call then (d.warp.pc + 1) :: calls
  else if Opcode.ofByte d.fetch.op = some .ret then calls.tail
  else calls

/-- The states of the run from `d` while it executes unpredicated calls only, with the calls pending
in them. -/
inductive Device.RunsWithCalls (F : HostMath) (d : Device) : List Word → Device → Prop where
  | start : d.RunsWithCalls F [] d
  | step {d₁ d₂ : Device} {calls : List Word} {st : BvStatus} (hd : d.RunsWithCalls F calls d₁)
      (hcall : d₁.CallUnpredicated) (h : bvrtStep F d₁ = .ok (st, d₂)) :
      d.RunsWithCalls F (d₁.pendingCalls st calls) d₂

/-- Every run of unpredicated calls is one of these. -/
theorem exists_runsWithCalls {F : HostMath} {d d' : Device} (hrun : d.RunsTo F d')
    (hcall : ∀ e, d.RunsTo F e → e.CallUnpredicated) : ∃ calls, d.RunsWithCalls F calls d' := by
  induction hrun with
  | start => exact ⟨[], .start⟩
  | step hd hstep ih =>
      obtain ⟨calls, hcalls⟩ := ih
      exact ⟨_, .step hcalls (hcall _ hd) hstep⟩

/-! ### A stack that holds a list of calls -/

/-- The entries of a return stack, from the bottom on, are `calls`, the last of them the latest. -/
def HoldsCalls (ret : Fin bvrtMaxRet → Word) : List Word → Prop
  | [] => True
  | c :: calls => ∃ h : calls.length < bvrtMaxRet, ret ⟨calls.length, h⟩ = c ∧ HoldsCalls ret calls

theorem HoldsCalls.length_le {ret : Fin bvrtMaxRet → Word} {calls : List Word}
    (h : HoldsCalls ret calls) : calls.length ≤ bvrtMaxRet := by
  cases calls with
  | nil => exact Nat.zero_le _
  | cons c calls =>
      obtain ⟨hlt, -, -⟩ := h
      exact hlt

/-- An entry above the calls is free. -/
theorem HoldsCalls.update {ret : Fin bvrtMaxRet → Word} {calls : List Word}
    (h : HoldsCalls ret calls) {k : Fin bvrtMaxRet} (hk : calls.length ≤ k.val) (x : Word) :
    HoldsCalls (Function.update ret k x) calls := by
  induction calls with
  | nil => trivial
  | cons c calls ih =>
      obtain ⟨hlt, hc, hrest⟩ := h
      rw [List.length_cons] at hk
      refine ⟨hlt, ?_, ih hrest (by omega)⟩
      rw [Function.update_of_ne, hc]
      intro heq
      have := congrArg Fin.val heq
      dsimp only at this
      omega

theorem HoldsCalls.push {ret : Fin bvrtMaxRet → Word} {calls : List Word}
    (h : HoldsCalls ret calls) (hlt : calls.length < bvrtMaxRet) (x : Word) :
    HoldsCalls (Function.update ret ⟨calls.length, hlt⟩ x) (x :: calls) :=
  ⟨hlt, by rw [Function.update_self], h.update (Nat.le_refl _) x⟩

/-- All lanes hold the same stack, of `calls`. -/
structure Device.StacksHold (d : Device) (calls : List Word) : Prop where
  active : d.warp.active = 0 ∨ d.warp.active = 0xFFFFFFFF
  shared : ∃ ret, HoldsCalls ret calls ∧
    ∀ l, (d.lane l).ret = ret ∧ (d.lane l).retsp.val = calls.length

section Agreement

variable {F : HostMath} {d d' : Device} {calls : List Word} {st : BvStatus}

theorem Device.StacksHold.trans (h : d.StacksHold calls)
    (hlanes : ∀ l, (d'.lane l).ret = (d.lane l).ret ∧ (d'.lane l).retsp = (d.lane l).retsp)
    (hactive : d'.warp.active = d.warp.active ∨ d'.warp.active = 0) : d'.StacksHold calls := by
  obtain ⟨ret, hholds, hl⟩ := h.shared
  refine ⟨?_, ret, hholds, fun l => ?_⟩
  · rcases hactive with ha | ha
    · rw [ha]
      exact h.active
    · exact Or.inl ha
  · rw [(hlanes l).1, (hlanes l).2]
    exact hl l

theorem Device.StacksHold.trapped (h : d.StacksHold calls) :
    { d with status := .trap }.StacksHold calls := ⟨h.active, h.shared⟩

theorem laneActive_of_executing (h : d.StacksHold calls) (hex : d.Executing) (l : Fin warpSize) :
    d.laneActive l = true := by
  have hones := h.active.resolve_left hex.1
  unfold Device.laneActive
  rw [hones]
  revert l
  decide

/-! ### The instructions -/

theorem effect_call {pc cycles : Word} {i : BvInsn} (h : Opcode.ofByte i.op = some .call) :
    effect F pc cycles i = .call := by
  unfold effect
  rw [h]

theorem forLanes_keeps_stacks {op : Opcode} {i : BvInsn}
    {body : Fin warpSize → Local → LaneOutcome Local} (hdata : DataBody i op body) :
    (forLanes i.pred body d).Sat
      (fun e => e.warp.active = d.warp.active ∧
        ∀ l, (e.lane l).ret = (d.lane l).ret ∧ (e.lane l).retsp = (d.lane l).retsp)
      (fun e => e.warp.active = d.warp.active ∧
        ∀ l, (e.lane l).ret = (d.lane l).ret ∧ (e.lane l).retsp = (d.lane l).retsp)
      (fun _ => True) := by
  refine forLanes_keeps (Q := fun l r => r.ret = (d.lane l).ret ∧ r.retsp = (d.lane l).retsp)
    (fun _ => ⟨rfl, rfl⟩) fun l m r hen => ?_
  cases hdata with
  | register _ h =>
      exact (h l ⟨d.lane l, m, r⟩ hen.2).mono (fun c hc => ⟨hc.2.2.1, hc.2.2.2⟩)
        (fun _ _ => trivial) fun _ _ => trivial
  | memory _ h =>
      exact (h l ⟨d.lane l, m, r⟩).mono (fun c hc => ⟨hc.2.2.2.2.1, hc.2.2.2.2.2⟩)
        (fun _ _ => trivial) fun _ _ => trivial

theorem executeInsn_keeps_stacks {i : BvInsn} (hcall : Opcode.ofByte i.op ≠ some .call)
    (hret : Opcode.ofByte i.op ≠ some .ret) (h : d.StacksHold calls) :
    (executeInsn F d i).Sat (fun e => e.StacksHold calls) (fun e => e.StacksHold calls)
      (fun _ => True) := by
  have hcases := effect_cases F d.warp.pc d.warp.cycles i
  unfold executeInsn
  cases heff : effect F d.warp.pc d.warp.cycles i with
  | lanes body =>
      rw [heff] at hcases
      obtain ⟨op, -, -, hdata⟩ := hcases
      exact ((forLanes_keeps_stacks hdata).mono (fun e he => h.trans he.2 (Or.inl he.1))
        (fun e he => h.trans he.2 (Or.inl he.1)) (fun _ => id)).bind
        fun e he => he.trans (fun l => ⟨rfl, rfl⟩) (Or.inl rfl)
  | branch =>
      apply branch_sat
      intro taken
      cases taken <;> exact h.trans (fun l => ⟨rfl, rfl⟩) (Or.inl rfl)
  | barrier => exact h.trans (fun l => ⟨rfl, rfl⟩) (Or.inl rfl)
  | trap => exact h.trans (fun l => ⟨rfl, rfl⟩) (Or.inl rfl)
  | exit => exact h.trans (fun l => ⟨rfl, rfl⟩) (Or.inr rfl)
  | call =>
      rw [heff] at hcases
      exact absurd hcases hcall
  | ret =>
      rw [heff] at hcases
      exact absurd hcases hret

/-- A `CALL` pushes the same address in every lane, or finds every stack full and traps. -/
theorem executeInsn_call {i : BvInsn} (hop : Opcode.ofByte i.op = some .call) (hpred : i.pred = 0)
    (h : d.StacksHold calls) (hall : ∀ l, d.laneActive l = true) :
    (executeInsn F d i).Sat
      (fun e => calls.length < bvrtMaxRet ∧ e.StacksHold ((d.warp.pc + 1) :: calls))
      (fun e => calls.length = bvrtMaxRet ∧ e.StacksHold calls) (fun _ => False) := by
  obtain ⟨ret, hholds, hl⟩ := h.shared
  have hnot : ¬ PredOutOfRange i.pred := by
    rw [hpred]
    decide
  have hen (l : Fin warpSize) : d.EnabledLane i.pred l := ⟨hall l, Or.inl hpred⟩
  unfold executeInsn
  rw [effect_call hop]
  by_cases hlt : calls.length < bvrtMaxRet
  · let Q := fun (_ : Fin warpSize) (r : Lane) =>
      r.ret = Function.update ret ⟨calls.length, hlt⟩ (d.warp.pc + 1) ∧
        r.retsp.val = calls.length + 1
    have hloop : (forLanes i.pred (fun _ => pushRet d.warp.pc) d).Sat _ _ _ :=
      forLanes_sat (J := fun _ _ _ => True) (Q := Q) (E := fun _ => False)
        (U := fun _ _ => False) trivial (fun _ _ _ _ h => h) fun l m r _ _ => by
          obtain ⟨hret, hsp⟩ := hl l
          unfold pushRet
          rw [dif_pos (by rw [hsp]; exact hlt)]
          refine ⟨⟨?_, ?_⟩, trivial⟩
          · simp [hret, hsp]
          · simp [hsp]
    refine Outcome.Sat.bind (Q := fun e => e.warp.active = d.warp.active ∧ ∀ l, Q l (e.lane l))
      (hloop.mono (fun e he => ⟨he.1.control.active, fun l => he.1.post_of_enabled (hen l)⟩) ?_ ?_)
      fun e he => ⟨hlt, ?_, _, hholds.push hlt _, fun l => ?_⟩
    · rintro e ⟨l, d₀, -, hf, -⟩
      exact hf.elim
    · rintro a (⟨hf, -⟩ | ⟨l, d₀, -, -, hf⟩)
      · exact hnot hf
      · exact hf
    · rw [show (e.setPc (d.branchTarget i)).warp.active = e.warp.active from rfl, he.1]
      exact h.active
    · exact he.2 l
  · have hfull : calls.length = bvrtMaxRet := le_antisymm hholds.length_le (not_lt.mp hlt)
    have hloop : (forLanes i.pred (fun _ => pushRet d.warp.pc) d).Sat _ _ _ :=
      forLanes_sat (J := fun _ _ _ => True) (Q := fun _ _ => False) (E := fun _ => True)
        (U := fun _ _ => False) trivial (fun _ _ _ _ h => h) fun l m r _ _ => by
          unfold pushRet
          rw [dif_neg (by rw [(hl l).2]; exact hlt)]
          trivial
    refine Outcome.Sat.bind (Q := fun _ => False) (hloop.mono (fun e he =>
      he.1.post_of_enabled (hen ⟨0, by decide⟩)) ?_ ?_) fun e he => he.elim
    · rintro e ⟨l₀, d₀, -, -, hdone, -, rfl⟩
      refine ⟨hfull, h.trans (fun l => ?_) (Or.inl hdone.control.active)⟩
      have hlane := hdone.lanes l
      split at hlane
      · exact hlane.elim
      · exact ⟨congrArg Lane.ret hlane, congrArg Lane.retsp hlane⟩
    · rintro a (⟨hf, -⟩ | ⟨l, d₀, -, -, hf⟩)
      · exact hnot hf
      · exact hf

/-- The pc a `RET` leaves comes off the common stack. -/
theorem retLoop_pc {ret : Fin bvrtMaxRet → Word} {sp : Fin bvrtMaxRet}
    (hall : ∀ l, d.laneActive l = true)
    (hl : ∀ l, (d.lane l).ret = ret ∧ (d.lane l).retsp.val = sp + 1) :
    (Outcome.forRange warpSize retStep d).Sat (fun e => e.warp.pc = ret sp) (fun _ => False)
      (fun _ => False) := by
  have hloop : (Outcome.forRange warpSize retStep d).Sat _ _ _ :=
    Outcome.Sat.forRange (E := fun _ => False) (U := fun _ => False)
      (I := fun k e => e.warp.active = d.warp.active ∧
        (∀ l : Fin warpSize, k ≤ l.val → e.lane l = d.lane l) ∧ (0 < k → e.warp.pc = ret sp))
      ⟨rfl, fun _ _ => rfl, fun h => absurd h (Nat.lt_irrefl 0)⟩ fun l e ⟨hactive, hlanes, _⟩ => by
        have hact : e.laneActive l = true := by
          have := hall l
          unfold Device.laneActive at *
          rw [hactive]
          exact this
        obtain ⟨hret, hsp⟩ := hl l
        unfold retStep
        rw [if_pos hact]
        simp only [hlanes l le_rfl, hret, hsp, Nat.add_sub_cancel]
        rw [dif_neg (Nat.succ_ne_zero _)]
        refine ⟨hactive, fun l' hle => ?_, fun _ => rfl⟩
        have hne : l' ≠ l := fun heq => by
          rw [heq] at hle
          omega
        have hother := hlanes l' (by omega)
        simpa [Device.lane, Function.update_of_ne hne] using hother
  exact hloop.mono (fun e he => he.2.2 (by decide)) (fun _ h => h) fun _ h => h

/-- A `RET` goes back to the latest pending call, or finds every stack empty and traps. -/
theorem executeInsn_ret {i : BvInsn} (hop : Opcode.ofByte i.op = some .ret)
    (h : d.StacksHold calls) (hall : ∀ l, d.laneActive l = true) :
    (executeInsn F d i).Sat
      (fun e => calls.head? = some e.warp.pc ∧ e.StacksHold calls.tail)
      (fun e => calls = [] ∧ e.StacksHold calls) (fun _ => False) := by
  obtain ⟨ret, hholds, hl⟩ := h.shared
  have hloop := retLoop_sat d
  unfold executeInsn
  rw [effect_ret hop]
  cases calls with
  | nil =>
      refine hloop.mono (fun e he => ?_) ?_ fun _ hf => hf
      · have hpop := he.lanes ⟨0, by decide⟩
        rw [if_pos ⟨by decide, hall _⟩] at hpop
        exact absurd (hl _).2 hpop.1
      · rintro e ⟨l₀, d₀, -, -, hdone, rfl⟩
        refine ⟨rfl, h.trans (fun l => ?_) (Or.inl hdone.active)⟩
        have hlane := hdone.lanes l
        split at hlane
        · exact absurd (hl l).2 hlane.1
        · exact ⟨congrArg Lane.ret hlane, congrArg Lane.retsp hlane⟩
  | cons c rest =>
      obtain ⟨hlt, hc, hrest⟩ := hholds
      have hpc : (Outcome.forRange warpSize retStep d).Sat
          (fun e => e.warp.pc = ret ⟨rest.length, hlt⟩) _ _ := retLoop_pc hall hl
      cases hres : Outcome.forRange warpSize retStep d with
      | ok e =>
          rw [hres] at hloop hpc
          replace hpc : e.warp.pc = c := hpc.trans hc
          have hlanes (l : Fin warpSize) := (if_pos ⟨l.isLt, hall l⟩).mp (hloop.lanes l)
          refine ⟨by rw [hpc]; rfl, ?_, ret, hrest, fun l => ?_⟩
          · rw [hloop.active]
            exact h.active
          · rw [(hlanes l).2]
            refine ⟨(hl l).1, ?_⟩
            have := (hl l).2
            rw [List.length_cons] at this
            simp only [Lane.pop, List.tail_cons]
            omega
      | stop e =>
          rw [hres] at hpc
          exact hpc.elim
      | undefined a =>
          rw [hres] at hpc
          exact hpc

/-! ### Steps and runs -/

/-- A step keeps the stacks in agreement with the pending calls. -/
theorem bvrtStep_stacksHold (h : d.StacksHold calls) (hcall : d.CallUnpredicated)
    (hstep : bvrtStep F d = .ok (st, d')) : d'.StacksHold (d.pendingCalls st calls) := by
  by_cases hex : d.Executing
  · rw [bvrtStep_of_executing hex] at hstep
    have hcounted : d.counted.StacksHold calls := h.trans (fun l => ⟨rfl, rfl⟩) (Or.inl rfl)
    have hall (l : Fin warpSize) : d.counted.laneActive l = true := laneActive_of_executing h hex l
    unfold Device.pendingCalls
    by_cases hopc : Opcode.ofByte d.fetch.op = some .call
    · have hsat := executeInsn_call (F := F) hopc (hcall hex hopc) hcounted hall
      cases hres : executeInsn F d.counted d.fetch with
      | ok e =>
          rw [hres] at hsat hstep
          cases hstep
          rw [if_neg (by decide), if_pos hopc]
          exact hsat.2
      | stop e =>
          rw [hres] at hsat hstep
          cases hstep
          rw [if_pos (by decide)]
          exact hsat.2
      | undefined a =>
          rw [hres] at hsat
          exact hsat.elim
    by_cases hopr : Opcode.ofByte d.fetch.op = some .ret
    · have hsat := executeInsn_ret (F := F) hopr hcounted hall
      cases hres : executeInsn F d.counted d.fetch with
      | ok e =>
          rw [hres] at hsat hstep
          cases hstep
          rw [if_neg (by decide), if_neg hopc, if_pos hopr]
          exact hsat.2
      | stop e =>
          rw [hres] at hsat hstep
          cases hstep
          rw [if_pos (by decide)]
          exact hsat.2
      | undefined a =>
          rw [hres] at hsat
          exact hsat.elim
    · rw [if_neg hopc, if_neg hopr, ite_self]
      rw [← bvrtStep_of_executing hex] at hstep
      exact bvrtStep_sat (Q := fun e => e.StacksHold calls) hstep h h.trapped fun _ =>
        executeInsn_keeps_stacks hopc hopr hcounted
  · have hne : st ≠ .ok := by
      rintro rfl
      exact hex (executing_of_next (next_eq_ok_iff.mpr hstep)).1
    unfold Device.pendingCalls
    rw [if_pos hne]
    exact bvrtStep_sat (Q := fun e => e.StacksHold calls) hstep h h.trapped fun hex' =>
      absurd hex' hex

theorem runsWithCalls_stacksHold (h : d.StacksHold []) (hrun : d.RunsWithCalls F calls d') :
    d'.StacksHold calls := by
  induction hrun with
  | start => exact h
  | step _ hcall hstep ih => exact bvrtStep_stacksHold ih hcall hstep

theorem launch_stacksHold {d₀ : Device} {kernel : List Byte} {args : List Word}
    (h : bvrtLaunch d₀ kernel args = some d) : d.StacksHold [] := by
  refine ⟨Or.inr (launch_active h), fun _ => 0, trivial, fun l => ?_⟩
  unfold bvrtLaunch at h
  cases hk : bvbcFindKernel d₀.img kernel with
  | none => simp [hk] at h
  | some ki =>
      simp only [hk, Option.some.injEq] at h
      rw [← h]
      exact ⟨rfl, rfl⟩

end Agreement

/-- What the return stacks are to hold with `calls` pending: all active lanes have the same stack,
as deep as there are pending calls and at most 16; a `RET` goes back to one past the latest pending
`CALL`; a `CALL` at depth 16 and a `RET` at depth 0 trap. Behind an access out of bounds nothing is
known of the stacks, so the step must make none. -/
structure Device.CallsReturn (F : HostMath) (d : Device) (calls : List Word) : Prop where
  defined : ∃ st d', bvrtStep F d = .ok (st, d')
  agree : ∀ l l', d.laneActive l = true → d.laneActive l' = true →
    (d.lane l).ret = (d.lane l').ret ∧ (d.lane l).retsp = (d.lane l').retsp
  depth : ∀ l, d.laneActive l = true → (d.lane l).retsp.val = calls.length
  bounded : calls.length ≤ bvrtMaxRet
  returns : d.Executing → Opcode.ofByte d.fetch.op = some .ret → calls ≠ [] →
    ∃ d', bvrtStep F d = .ok (.ok, d') ∧ calls.head? = some d'.warp.pc
  underflow : d.Executing → Opcode.ofByte d.fetch.op = some .ret → calls = [] →
    ∃ d', bvrtStep F d = .ok (.trap, d')
  overflow : d.Executing → Opcode.ofByte d.fetch.op = some .call → d.fetch.pred = 0 →
    calls.length = bvrtMaxRet → ∃ d', bvrtStep F d = .ok (.trap, d')

section Runs

variable {F : HostMath} {d₀ d₁ d : Device} {kernel : List Byte} {args calls : List Word}

theorem Device.StacksHold.callsReturn (h : d.StacksHold calls) (hin : d.Executing → d.InBounds) :
    d.CallsReturn F calls := by
  have hcounted : d.counted.StacksHold calls := h.trans (fun l => ⟨rfl, rfl⟩) (Or.inl rfl)
  have hret (hex : d.Executing) (hop : Opcode.ofByte d.fetch.op = some .ret) :=
    executeInsn_ret (F := F) hop hcounted (laneActive_of_executing hcounted hex)
  obtain ⟨ret, hholds, hl⟩ := h.shared
  refine {
    defined := exists_bvrtStep_iff.mpr hin
    agree :=
      fun l l' _ _ => ⟨(hl l).1.trans (hl l').1.symm, Fin.ext ((hl l).2.trans (hl l').2.symm)⟩
    depth := fun l _ => (hl l).2
    bounded := hholds.length_le
    returns := fun hex hop hne => ?_
    underflow := fun hex hop hnil => ?_
    overflow := fun hex hop hpred hfull => ?_ }
  · have hsat := hret hex hop
    rw [bvrtStep_of_executing hex]
    cases hres : executeInsn F d.counted d.fetch with
    | ok e =>
        rw [hres] at hsat
        exact ⟨e, rfl, hsat.1⟩
    | stop e =>
        rw [hres] at hsat
        exact absurd hsat.1 hne
    | undefined a =>
        rw [hres] at hsat
        exact hsat.elim
  · have hsat := hret hex hop
    rw [bvrtStep_of_executing hex]
    cases hres : executeInsn F d.counted d.fetch with
    | ok e =>
        rw [hres, hnil] at hsat
        cases hsat.1
    | stop e => exact ⟨e, rfl⟩
    | undefined a =>
        rw [hres] at hsat
        exact hsat.elim
  · have hsat := executeInsn_call (F := F) hop hpred hcounted (laneActive_of_executing hcounted hex)
    rw [bvrtStep_of_executing hex]
    cases hres : executeInsn F d.counted d.fetch with
    | ok e =>
        rw [hres] at hsat
        exact absurd hfull (Nat.ne_of_lt hsat.1)
    | stop e => exact ⟨e, rfl⟩
    | undefined a =>
        rw [hres] at hsat
        exact hsat.elim

/-- **The return stacks.** In a run from a launch whose calls are unpredicated, every state reached
keeps to its pending calls exactly when every instruction executed is in bounds. -/
theorem run_callStack_iff (F : HostMath) (hlaunch : bvrtLaunch d₀ kernel args = some d₁)
    (hcalls : ∀ e, d₁.RunsTo F e → e.CallUnpredicated) :
    (∀ d, d₁.RunsTo F d → ∃ calls, d₁.RunsWithCalls F calls d ∧ d.CallsReturn F calls) ↔
      ∀ d, d₁.RunsTo F d → d.Executing → d.InBounds := by
  constructor
  · intro h d hrun
    obtain ⟨calls, -, hreturn⟩ := h d hrun
    exact exists_bvrtStep_iff.mp hreturn.defined
  · intro hin d hrun
    obtain ⟨calls, hrunCalls⟩ := exists_runsWithCalls hrun hcalls
    have hholds := runsWithCalls_stacksHold (launch_stacksHold hlaunch) hrunCalls
    exact ⟨calls, hrunCalls, hholds.callsReturn (hin d hrun)⟩

theorem runsTo_img (hrun : d.RunsTo F d₁) : d₁.img = d.img := by
  induction hrun with
  | start => rfl
  | step _ hstep ih => exact (bvrtStep_sameMachine hstep).1.trans ih

/-- A run executes the instructions of its image. -/
theorem runsTo_fetch {P : BvInsn → Prop} (hP : ∀ k < d.img.ninsn, P (bvDecode (d.img.insn k)))
    (hrun : d.RunsTo F d₁) (hex : d₁.Executing) : P d₁.fetch := by
  have hlt := hex.2.2
  rw [runsTo_img hrun] at hlt
  unfold Device.fetch
  rw [runsTo_img hrun]
  exact hP _ hlt

end Runs

/-- A kernel `k` that calls a subroutine of one `RET` and exits. -/
def callKernel : BvbcImage :=
  { BvbcImage.zero with
    kernels := [{ name := kernelName (cstr "k"), entry := 0, nargs := 0 }]
    insns := .array [bven Opcode.call.toByte 0 0 0 0 1 0 0, bven Opcode.exit.toByte 0 0 0 0 0 0 0,
      bven Opcode.ret.toByte 0 0 0 0 0 0 0]
    ninsn := 3 }

def callLaunched : Device :=
  { bvrtLoad (bvrtCreate 64 fun _ => 0) callKernel with
    warp := {
      pc := 0
      active := 0xFFFFFFFF
      lanes := fun l => { Lane.zero with s := launchRegs [] l }
      cycles := 0 } }

/-- The device behind the `CALL`. -/
def callEntered : Device :=
  match bvrtStep HostMath.integer callLaunched with
  | .ok (_, d) => d
  | .error _ => callLaunched

/-- The `RET` goes back behind the `CALL`. -/
theorem callKernel_returns :
    ∃ calls d', callLaunched.RunsWithCalls HostMath.integer calls callEntered ∧ calls.length = 1 ∧
      bvrtStep HostMath.integer callEntered = .ok (.ok, d') ∧ calls.head? = some d'.warp.pc ∧
      d'.warp.pc = 1 := by
  have hlaunch : bvrtLaunch (bvrtLoad (bvrtCreate 64 fun _ => 0) callKernel) (cstr "k") [] =
      some callLaunched := rfl
  let P := fun i : BvInsn => i.pred = 0 ∧ ∀ op, Opcode.ofByte i.op = some op →
    op.memLen = none ∧ op.vecFields i = [] ∧ op.predFields i = []
  have hinsns (k : Nat) (hk : k < 3) : P (bvDecode (callKernel.insn k)) := by
    obtain rfl | rfl | rfl : k = 0 ∨ k = 1 ∨ k = 2 := by omega
    all_goals exact ⟨rfl, fun op hop => by cases hop; exact ⟨rfl, rfl, rfl⟩⟩
  have hcalls (e : Device) (he : callLaunched.RunsTo HostMath.integer e) : e.CallUnpredicated :=
    fun hex _ => (runsTo_fetch (P := P) hinsns he hex).1
  have hin (e : Device) (he : callLaunched.RunsTo HostMath.integer e) (hex : e.Executing) :
      e.InBounds := by
    obtain ⟨hpred, hfields⟩ := runsTo_fetch (P := P) hinsns he hex
    refine ⟨Or.inl fun op hop => ⟨?_, fun _ => ?_⟩, fun op len hop hlen => ?_⟩
    · exact fieldsInRange_of_nil (hfields op hop).2.1 (hfields op hop).2.2
    · rw [hpred]
      decide
    · rw [(hfields op hop).1] at hlen
      cases hlen
  have hstep : bvrtStep HostMath.integer callLaunched = .ok (.ok, callEntered) := rfl
  obtain ⟨calls, hrun, hreturn⟩ :=
    (run_callStack_iff HostMath.integer hlaunch hcalls).mpr hin _ (.step .start hstep)
  have hdepth : (callEntered.lane ⟨0, by decide⟩).retsp.val = 1 := rfl
  have hone : calls.length = 1 := (hreturn.depth _ rfl).symm.trans hdepth
  obtain ⟨d', hret, hpc⟩ := hreturn.returns ⟨by decide, by decide, by decide⟩ rfl
    (List.ne_nil_of_length_eq_add_one hone)
  refine ⟨calls, d', hrun, hone, hret, hpc, ?_⟩
  cases hret
  rfl

/-- The same with a subroutine that first broadcasts `S1` to vector register 127. -/
def strayKernel : BvbcImage :=
  { BvbcImage.zero with
    kernels := [{ name := kernelName (cstr "k"), entry := 0, nargs := 0 }]
    insns := .array [bven Opcode.call.toByte 0 0 0 0 1 0 0, bven Opcode.exit.toByte 0 0 0 0 0 0 0,
      bven Opcode.vbroadcast.toByte 0 127 1 0 0 0 0, bven Opcode.ret.toByte 0 0 0 0 0 0 0]
    ninsn := 4 }

def strayLaunched : Device := { callLaunched with img := strayKernel }

def strayEntered : Device :=
  match bvrtStep HostMath.integer strayLaunched with
  | .ok (_, d) => d
  | .error _ => strayLaunched

/-- Lane 31 broadcasts past the end of the vector registers, to where its return stack is kept. -/
theorem not_forall_launch_callsReturn :
    ¬ ∀ (F : HostMath) (d₀ d₁ : Device) (kernel : List Byte) (args : List Word),
      bvrtLaunch d₀ kernel args = some d₁ → (∀ e, d₁.RunsTo F e → e.CallUnpredicated) →
        ∀ d, d₁.RunsTo F d → ∃ calls, d₁.RunsWithCalls F calls d ∧ d.CallsReturn F calls := by
  intro h
  have hlaunch : bvrtLaunch (bvrtLoad (bvrtCreate 64 fun _ => 0) strayKernel) (cstr "k") [] =
      some strayLaunched := rfl
  have hpred : ∀ k < 4, (bvDecode (strayKernel.insn k)).pred = 0 := by decide
  have hcalls (e : Device) (he : strayLaunched.RunsTo HostMath.integer e) : e.CallUnpredicated :=
    fun hex _ => runsTo_fetch (P := fun i => i.pred = 0) hpred he hex
  have hstep : bvrtStep HostMath.integer strayLaunched = .ok (.ok, strayEntered) := rfl
  obtain ⟨calls, -, hreturn⟩ := h _ _ _ _ _ hlaunch hcalls _ (.step .start hstep)
  obtain ⟨st, d', hok⟩ := hreturn.defined
  have hstray : bvrtStep HostMath.integer strayEntered = .error (.vreg 127) := rfl
  rw [hstray] at hok
  cases hok

end BradVector
