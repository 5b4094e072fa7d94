import BradVector.Proof.LaneBody

/-!
# The vector zero register

`V0` is documented as the zero vector, like `S0`, but vector results are written straight into the
register file. It stays zero as long as no instruction that is executed for a lane names it as the
destination of a vector result.
-/

namespace BradVector

open CSem

/-- `V0`. -/
def vZero : Fin vecRegs := ⟨0, by decide⟩

/-- The opcodes with a vector result. -/
def Opcode.writesVector : Opcode → Bool
  | vadd | vmul | vmad | vdot | vbroadcast | vreduce => true
  | _ => false

/-- The instruction at the pc has a vector result for `V0`, and a lane is enabled. -/
def Device.WritesV0 (d : Device) : Prop :=
  d.Executing ∧ (∃ op, Opcode.ofByte d.fetch.op = some op ∧ op.writesVector = true) ∧
    d.fetch.dst = 0 ∧
    ∃ l, d.EnabledLane d.fetch.pred l

/-! ### Vector registers -/

/-- Only the vector register `reg` is changed. -/
def Local.KeepsV (c : Local) (reg : BitVec 8) (c' : Local) : Prop :=
  ∀ k : Fin vecRegs, k.val ≠ reg.toNat → c'.lane.v k = c.lane.v k

theorem writeV_v (r : Lane) (reg : BitVec 8) (x : Fin vecLanes → Word) :
    (r.writeV reg x).Sat (fun r' => ∀ k : Fin vecRegs, k.val ≠ reg.toNat → r'.v k = r.v k)
      (fun _ => True) fun _ => True := by
  unfold Lane.writeV
  split_ifs with hlt
  · intro k hne
    exact Function.update_of_ne (fun heq => hne (congrArg Fin.val heq)) _ _
  · trivial

theorem writeP_v (r : Lane) (index : Nat) (x : Word) :
    (r.writeP index x).Sat (fun r' => r'.v = r.v) (fun _ => True) fun _ => True := by
  unfold Lane.writeP
  split_ifs <;> trivial

section Work

variable {F : HostMath} {pc cycles : Word} {i : BvInsn} {op : Opcode}

/-- The work that writes no vector register. -/
inductive PlainBody (F : HostMath) (pc : Word) (i : BvInsn) : (Local → LaneOutcome Local) →
    Prop where
  | scalar (f : (BitVec 8 → Word) → Word) : PlainBody F pc i (scalar i f)
  | sel : PlainBody F pc i (sel i)
  | cmp : PlainBody F pc i (cmp i)
  | load : PlainBody F pc i (load i)
  | loadv : PlainBody F pc i (loadv i)
  | store : PlainBody F pc i (store i)
  | storev : PlainBody F pc i (storev i)
  | atomicAdd : PlainBody F pc i (atomicAdd i)
  | rand : PlainBody F pc i (rand F i pc)

theorem plainBody_of_effect {body : Fin warpSize → Local → LaneOutcome Local}
    (h : effect F pc cycles i = .lanes body) (hop : Opcode.ofByte i.op = some op)
    (hplain : op.writesVector = false) (l : Fin warpSize) : PlainBody F pc i (body l) := by
  unfold effect at h
  rw [hop] at h
  cases op
  case sel => cases h; exact .sel
  case cmp => cases h; exact .cmp
  case load => cases h; exact .load
  case loadv => cases h; exact .loadv
  case store => cases h; exact .store
  case storev => cases h; exact .storev
  case atomicAdd => cases h; exact .atomicAdd
  case rand => cases h; exact .rand
  case vadd | vmul | vmad | vdot | vbroadcast | vreduce => cases hplain
  all_goals first
    | cases h
      exact .scalar _
    | cases h

theorem PlainBody.keeps {body : Local → LaneOutcome Local} (h : PlainBody F pc i body) (c : Local) :
    (body c).Sat (fun c' => c'.lane.v = c.lane.v) (fun _ => True) fun _ => True := by
  cases h with
  | scalar f => exact wrS_v _ _ _
  | rand => exact wrS_v _ _ _
  | sel =>
      unfold BradVector.sel
      split_ifs
      · exact wrS_v _ _ _
      · exact .bind_of_forall fun b => wrS_v _ _ _
  | cmp => exact (writeP_v _ _ _).bind fun r hr => hr
  | load =>
      unfold BradVector.load
      dsimp only
      split_ifs
      · trivial
      · exact .bind_of_forall fun v => wrS_v _ _ _
  | store =>
      unfold BradVector.store
      dsimp only
      split_ifs
      · trivial
      · exact .bind_of_forall fun m => rfl
  | atomicAdd =>
      unfold BradVector.atomicAdd
      dsimp only
      split_ifs
      · trivial
      · exact .bind_of_forall fun old => .bind_of_forall fun m => wrS_v _ _ _
  | loadv =>
      unfold BradVector.loadv
      dsimp only
      split_ifs
      · trivial
      · exact Outcome.Sat.forRange (I := fun _ (e : Local) => e.lane.v = c.lane.v) rfl
          fun li e he => .bind_of_forall fun v => (wrS_v _ _ _).trans he
  | storev =>
      unfold BradVector.storev
      dsimp only
      split_ifs
      · trivial
      · exact Outcome.Sat.forRange (I := fun _ (e : Local) => e.lane.v = c.lane.v) rfl
          fun li e he => .bind_of_forall fun x => .bind_of_forall fun m => he

/-- No work writes a vector register other than its destination. -/
theorem laneBody_keepsV {body : Local → LaneOutcome Local} (h : LaneBody F pc i op body)
    (c : Local) :
    (body c).Sat (c.KeepsV i.dst) (fun _ => True) fun _ => True := by
  have hplain {body : Local → LaneOutcome Local} (h : PlainBody F pc i body) :
      (body c).Sat (c.KeepsV i.dst) (fun _ => True) fun _ => True :=
    (h.keeps c).mono (fun c' h k _ => congrFun h k) (fun _ h => h) fun _ h => h
  have hvector (x : Fin vecLanes → Word) :
      Outcome.Sat ((c.lane.writeV i.dst x).bind fun r => .ok { c with lane := r }) (c.KeepsV i.dst)
        (fun _ => True) fun _ => True :=
    (writeV_v c.lane i.dst x).bind fun r hr => hr
  cases h with
  | scalar _ f => exact hplain (.scalar f)
  | rand => exact hplain .rand
  | sel => exact hplain .sel
  | cmp => exact hplain .cmp
  | load => exact hplain .load
  | loadv => exact hplain .loadv
  | store => exact hplain .store
  | storev => exact hplain .storev
  | atomicAdd => exact hplain .atomicAdd
  | vector2 => exact .bind_of_forall fun a => .bind_of_forall fun b => hvector _
  | vmad =>
      exact .bind_of_forall fun a => .bind_of_forall fun b => .bind_of_forall fun x => hvector _
  | vdot => exact .bind_of_forall fun a => .bind_of_forall fun b => hvector _
  | vbroadcast => exact hvector _
  | vreduce => exact .bind_of_forall fun x => hvector _

end Work

/-! ### Runs -/

/-- The states of the run from `d` while no step has a vector result for `V0`. -/
inductive Device.RunsSparingV0 (F : HostMath) (d : Device) : Device → Prop where
  | start : d.RunsSparingV0 F d
  | step {d₁ d₂ : Device} {st : BvStatus} (hd : d.RunsSparingV0 F d₁) (hspares : ¬ d₁.WritesV0)
      (h : bvrtStep F d₁ = .ok (st, d₂)) : d.RunsSparingV0 F d₂

section Runs

variable {F : HostMath} {d d' : Device} {st : BvStatus}

theorem executeInsn_v0 (hex : d.Executing) (hspares : ¬ d.WritesV0)
    (hd : ∀ l, (d.lane l).v vZero = fun _ => 0) :
    (executeInsn F d.counted d.fetch).Sat (fun d' => ∀ l, (d'.lane l).v vZero = fun _ => 0)
      (fun d' => ∀ l, (d'.lane l).v vZero = fun _ => 0) (fun _ => True) := by
  have hcounted : ∀ l, (d.counted.lane l).v vZero = fun _ => 0 := hd
  refine executeInsn_keeps (I := fun r => r.v vZero = fun _ => 0) hcounted ?_ ?_ fun _ h => h
  · intro body heff
    obtain ⟨op, hop, hkind⟩ := laneBody_of_effect heff
    refine (forLanes_keeps (Q := fun _ r => r.v vZero = fun _ => 0) hcounted ?_).mono
      (fun _ h => h.2) (fun _ h => h.2) fun _ h => h
    intro l m r hen
    -- an enabled lane either has no vector result, or one for another register
    cases hwrites : op.writesVector with
    | false =>
        exact ((plainBody_of_effect heff hop hwrites l).keeps _).mono
          (fun c h => (congrFun h vZero).trans (hcounted l)) (fun _ h => h) fun _ h => h
    | true =>
        have hdst : vZero.val ≠ d.fetch.dst.toNat := by
          intro hzero
          exact hspares ⟨hex, ⟨op, hop, hwrites⟩, BitVec.eq_of_toNat_eq hzero.symm, l, hen⟩
        exact (laneBody_keepsV (hkind l) _).mono
          (fun c h => (h vZero hdst).trans (hcounted l)) (fun _ h => h) fun _ h => h
  · intro c hc
    unfold pushRet
    split_ifs
    · exact hc
    · trivial

theorem bvrtStep_v0 (hspares : ¬ d.WritesV0) (hstep : bvrtStep F d = .ok (st, d'))
    (hd : ∀ l, (d.lane l).v vZero = fun _ => 0) : ∀ l, (d'.lane l).v vZero = fun _ => 0 :=
  bvrtStep_sat (Q := fun e => ∀ l, (e.lane l).v vZero = fun _ => 0) hstep hd hd
    fun hex => executeInsn_v0 hex hspares hd

theorem launch_v {d₀ : Device} {kernel : List Byte} {args : List Word}
    (h : bvrtLaunch d₀ kernel args = some d) (l : Fin warpSize) : (d.lane l).v = fun _ _ => 0 := by
  unfold bvrtLaunch at h
  cases hk : bvbcFindKernel d₀.img kernel with
  | none => simp [hk] at h
  | some ki =>
      simp only [hk, Option.some.injEq] at h
      rw [← h]
      rfl

end Runs

/-- **The vector zero register.** `V0` is zero in every state of a run in which no step that is
executed for a lane has a vector result for it. -/
theorem run_v0_eq_zero (F : HostMath) {d₀ d₁ d : Device} {kernel : List Byte} {args : List Word}
    (hlaunch : bvrtLaunch d₀ kernel args = some d₁) (hrun : d₁.RunsSparingV0 F d)
    (l : Fin warpSize) :
    (d.lane l).v vZero = fun _ => 0 := by
  induction hrun generalizing l with
  | start => exact congrFun (launch_v hlaunch l) vZero
  | step _ hspares hstep ih => exact bvrtStep_v0 hspares hstep ih l

/-- A kernel `k` that broadcasts the thread's number into the vector register `dst`. -/
def broadcastKernel (dst : BitVec 8) : BvbcImage :=
  { BvbcImage.zero with
    kernels := [{ name := kernelName (cstr "k"), entry := 0, nargs := 0 }]
    insns := .array [bven Opcode.vbroadcast.toByte 0 dst 1 0 0 0 0]
    ninsn := 1 }

/-- The broadcast into `dst`, executed. -/
def broadcastDone (dst : BitVec 8) : Option Device :=
  match bvrtLaunch (bvrtLoad (bvrtCreate 64 fun _ => 0) (broadcastKernel dst)) (cstr "k") [] with
  | none => none
  | some d => (bvrtStep HostMath.integer d).toOption.map Prod.snd

theorem broadcastDone_v0 :
    ∃ d, broadcastDone 7 = some d ∧ (d.lane ⟨5, by decide⟩).v ⟨7, by decide⟩ = (fun _ => 5) ∧
      (d.lane ⟨5, by decide⟩).v vZero = fun _ => 0 := by
  refine ⟨_, rfl, rfl, ?_⟩
  have hlaunch :
      bvrtLaunch (bvrtLoad (bvrtCreate 64 fun _ => 0) (broadcastKernel 7)) (cstr "k") [] =
        some _ := rfl
  refine run_v0_eq_zero HostMath.integer hlaunch (.step .start ?_ rfl) ⟨5, by decide⟩
  rintro ⟨_, _, hdst, _⟩
  exact absurd hdst (by decide)

/-- The broadcast into `V0` leaves the thread's number there. -/
theorem not_forall_reachable_v0 :
    ¬ ∀ d, Reachable HostMath.integer d → ∀ l, (d.lane l).v vZero = fun _ => 0 := by
  intro h
  have hreach : ∃ d, broadcastDone 0 = some d ∧ Reachable HostMath.integer d ∧
      (d.lane ⟨5, by decide⟩).v vZero = fun _ => 5 := by
    refine ⟨_, rfl, ⟨bvrtLoad (bvrtCreate 64 fun _ => 0) (broadcastKernel 0), cstr "k", [], _, rfl,
      .step .start rfl⟩, rfl⟩
  obtain ⟨d, _, hreach, hfive⟩ := hreach
  have hzero := congrFun (hfive.symm.trans (h d hreach ⟨5, by decide⟩)) ⟨0, by decide⟩
  cases hzero

end BradVector
