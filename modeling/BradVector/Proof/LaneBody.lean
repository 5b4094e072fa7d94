import BradVector.Proof.Runs

/-!
# The kinds of lane work

The opcode switch hands the lane loop one of fourteen kinds of work. What is shown for each kind
holds of every data instruction, and what every kind keeps of a lane's registers is kept by whole
runs.
-/

namespace BradVector

open CSem

/-- The work a data instruction does in a lane, by its opcode. -/
inductive LaneBody (F : HostMath) (pc : Word) (i : BvInsn) :
    Opcode → (Local → LaneOutcome Local) → Prop where
  | scalar {op : Opcode} (hop : op.memLen = none ∧ op ≠ .rand) (f : (BitVec 8 → Word) → Word) :
      LaneBody F pc i op (scalar i f)
  | sel : LaneBody F pc i .sel (sel i)
  | cmp : LaneBody F pc i .cmp (cmp i)
  | vector2 {op : Opcode} (hop : op.memLen = none ∧ op ≠ .rand) (f : Word → Word → Word) :
      LaneBody F pc i op (vector2 i f)
  | vmad : LaneBody F pc i .vmad (vmad F i)
  | vdot : LaneBody F pc i .vdot (vdot F i)
  | vbroadcast : LaneBody F pc i .vbroadcast (vbroadcast i)
  | vreduce : LaneBody F pc i .vreduce (vreduce F i)
  | load : LaneBody F pc i .load (load i)
  | loadv : LaneBody F pc i .loadv (loadv i)
  | store : LaneBody F pc i .store (store i)
  | storev : LaneBody F pc i .storev (storev i)
  | atomicAdd : LaneBody F pc i .atomicAdd (atomicAdd i)
  | rand : LaneBody F pc i .rand (rand F i pc)

theorem laneBody_of_effect {F : HostMath} {pc cycles : Word} {i : BvInsn}
    {body : Fin warpSize → Local → LaneOutcome Local} (h : effect F pc cycles i = .lanes body) :
    ∃ op, Opcode.ofByte i.op = some op ∧ ∀ l, LaneBody F pc i op (body l) := by
  unfold effect at h
  cases hop : Opcode.ofByte i.op with
  | none => simp [hop] at h
  | some op =>
      rw [hop] at h
      refine ⟨op, rfl, fun l => ?_⟩
      cases op
      case sel => cases h; exact .sel
      case cmp => cases h; exact .cmp
      case vadd | vmul => cases h; exact .vector2 (by decide) _
      case vmad => cases h; exact .vmad
      case vdot => cases h; exact .vdot
      case vbroadcast => cases h; exact .vbroadcast
      case vreduce => cases h; exact .vreduce
      case load => cases h; exact .load
      case loadv => cases h; exact .loadv
      case store => cases h; exact .store
      case storev => cases h; exact .storev
      case atomicAdd => cases h; exact .atomicAdd
      case rand => cases h; exact .rand
      all_goals first
        | cases h
          exact .scalar (by decide) _
        | cases h

/-! ### What the work leaves alone -/

/-- The work that writes memory. -/
def Opcode.isStore : Opcode → Bool
  | store | storev => true
  | _ => false

/-- All scalar writes go through `wr_s`, which keeps `S0`; the stores and `ATOMIC_ADD` are the ones
that write memory, and the stores write no register. -/
structure Local.Keeps (op : Opcode) (c c' : Local) : Prop where
  s0 : c'.lane.s sZero = c.lane.s sZero
  mem : op.isStore = false → op ≠ .atomicAdd → c'.mem = c.mem
  lane : op.isStore = true → c'.lane = c.lane

theorem Local.Keeps.of_mem {op : Opcode} {c c' : Local} (hstore : op.isStore = false)
    (hs0 : c'.lane.s sZero = c.lane.s sZero) (hmem : c'.mem = c.mem) : c.Keeps op c' :=
  ⟨hs0, fun _ _ => hmem, fun h => absurd (hstore.symm.trans h) Bool.false_ne_true⟩

theorem Local.Keeps.of_lane {op : Opcode} {c c' : Local} (hstore : op.isStore = true)
    (hlane : c'.lane = c.lane) : c.Keeps op c' :=
  ⟨by rw [hlane], fun h => absurd (h.symm.trans hstore) Bool.false_ne_true, fun _ => hlane⟩

theorem isStore_of_memLen {op : Opcode} (h : op.memLen = none) : op.isStore = false := by
  cases op <;> first | rfl | cases h

@[simp]
theorem wrS_zero (r : Lane) (reg : BitVec 8) (v : Word) : (r.wrS reg v).s sZero = r.s sZero := by
  unfold Lane.wrS
  split
  next => rfl
  next h => exact Function.update_of_ne (Ne.symm h) _ _

theorem writeV_s (r : Lane) (reg : BitVec 8) (x : Fin vecLanes → Word) :
    (r.writeV reg x).Sat (fun r' => r'.s = r.s) (fun _ => True) fun _ => True := by
  unfold Lane.writeV
  split_ifs <;> trivial

theorem writeP_s (r : Lane) (index : Nat) (x : Word) :
    (r.writeP index x).Sat (fun r' => r'.s = r.s) (fun _ => True) fun _ => True := by
  unfold Lane.writeP
  split_ifs <;> trivial

theorem laneBody_keeps {F : HostMath} {pc : Word} {i : BvInsn} {op : Opcode}
    {body : Local → LaneOutcome Local} (h : LaneBody F pc i op body) (c : Local) :
    (body c).Sat (c.Keeps op) (fun _ => True) fun _ => True := by
  have hvector {op : Opcode} (hstore : op.isStore = false) (x : Fin vecLanes → Word) :
      Outcome.Sat ((c.lane.writeV i.dst x).bind fun r => .ok { c with lane := r }) (c.Keeps op)
        (fun _ => True) fun _ => True :=
    (writeV_s c.lane i.dst x).bind fun r hr => .of_mem hstore (congrFun hr sZero) rfl
  cases h with
  | scalar hop => exact .of_mem (isStore_of_memLen hop.1) (wrS_zero _ _ _) rfl
  | rand => exact .of_mem rfl (wrS_zero _ _ _) rfl
  | sel =>
      have hdone (b : Bool) : c.Keeps .sel { c with
          lane := c.lane.wrS i.dst (if b then c.lane.s i.src1 else c.lane.s i.src2) } :=
        .of_mem rfl (wrS_zero _ _ _) rfl
      unfold sel
      split_ifs
      · exact hdone false
      · exact .bind_of_forall hdone
  | cmp => exact (writeP_s _ _ _).bind fun r hr => .of_mem rfl (congrFun hr sZero) rfl
  | vector2 hop =>
      exact .bind_of_forall fun a => .bind_of_forall fun b => hvector (isStore_of_memLen hop.1) _
  | vmad =>
      exact .bind_of_forall fun a => .bind_of_forall fun b => .bind_of_forall fun x => hvector rfl _
  | vdot => exact .bind_of_forall fun a => .bind_of_forall fun b => hvector rfl _
  | vbroadcast => exact hvector rfl _
  | vreduce => exact .bind_of_forall fun x => hvector rfl _
  | load =>
      unfold load
      dsimp only
      split_ifs
      · trivial
      · exact .bind_of_forall fun v => .of_mem rfl (wrS_zero _ _ _) rfl
  | store =>
      unfold store
      dsimp only
      split_ifs
      · trivial
      · exact .bind_of_forall fun m => .of_lane rfl rfl
  | atomicAdd =>
      unfold atomicAdd
      dsimp only
      split_ifs
      · trivial
      · refine .bind_of_forall fun old => .bind_of_forall fun m => ?_
        exact ⟨wrS_zero _ _ _, fun _ h => absurd rfl h, fun h => by cases h⟩
  | loadv =>
      unfold loadv
      dsimp only
      split_ifs
      · trivial
      · refine Outcome.Sat.forRange (I := fun _ e => c.Keeps .loadv e) (.of_mem rfl rfl rfl)
          fun li e he => .bind_of_forall fun v => ?_
        exact .of_mem rfl ((wrS_zero _ _ _).trans he.s0) (he.mem rfl (by decide))
  | storev =>
      unfold storev
      dsimp only
      split_ifs
      · trivial
      · refine Outcome.Sat.forRange (I := fun _ e => c.Keeps .storev e) (.of_lane rfl rfl)
          fun li e he => .bind_of_forall fun x => .bind_of_forall fun m => ?_
        exact .of_lane rfl (he.lane rfl)

/-! ### Invariants of single lanes -/

/-- What is kept of a lane by every kind of work and by the calls and returns. -/
structure LaneInvariant (F : HostMath) (I : Lane → Prop) : Prop where
  body : ∀ {pc i op body}, LaneBody F pc i op body → ∀ c : Local, I c.lane →
    (body c).Sat (fun c' => I c'.lane) (fun _ => True) (fun _ => True)
  push : ∀ (pc : Word) (c : Local), I c.lane →
    (pushRet pc c).Sat (fun c' => I c'.lane) (fun _ => True) (fun _ => True)
  pop : ∀ r : Lane, I r → I r.pop

section Invariant

variable {F : HostMath} {I : Lane → Prop} {d d' : Device} {st : BvStatus}

theorem forLanes_invariant {pred : BitVec 8} {body : Fin warpSize → Local → LaneOutcome Local}
    (hbody : ∀ l c, I c.lane → (body l c).Sat (fun c' => I c'.lane) (fun _ => True) fun _ => True)
    (hd : ∀ l, I (d.lane l)) :
    (forLanes pred body d).Sat (fun d' => ∀ l, I (d'.lane l)) (fun d' => ∀ l, I (d'.lane l))
      (fun _ => True) := by
  exact (forLanes_keeps (Q := fun _ r => I r) hd fun l m r _ =>
    hbody l ⟨d.lane l, m, r⟩ (hd l)).mono (fun _ h => h.2) (fun _ h => h.2) fun _ h => h

theorem retLoop_invariant (hpop : ∀ r : Lane, I r → I r.pop) (hd : ∀ l, I (d.lane l)) :
    (Outcome.forRange warpSize retStep d).Sat (fun d' => ∀ l, I (d'.lane l))
      (fun d' => ∀ l, I (d'.lane l)) (fun _ => True) := by
  have hdone {e : Device} {k : Nat} (h : RetDone d e k) (l : Fin warpSize) : I (e.lane l) := by
    have hl := h.lanes l
    split at hl
    · rw [hl.2]
      exact hpop _ (hd l)
    · rw [hl]
      exact hd l
  refine (retLoop_sat d).mono (fun e h => hdone h) ?_ (fun _ _ => trivial)
  rintro e ⟨l₀, d₀, -, -, h, rfl⟩
  exact fun l => hdone h l

/-- What an instruction keeps of every lane, when the lane loop does. -/
theorem executeInsn_keeps {i : BvInsn} (hd : ∀ l, I (d.lane l))
    (hlanes : ∀ body, effect F d.warp.pc d.warp.cycles i = .lanes body →
      (forLanes i.pred body d).Sat (fun d' => ∀ l, I (d'.lane l)) (fun d' => ∀ l, I (d'.lane l))
        fun _ => True)
    (hpush : ∀ c : Local, I c.lane →
      (pushRet d.warp.pc c).Sat (fun c' => I c'.lane) (fun _ => True) fun _ => True)
    (hpop : ∀ r : Lane, I r → I r.pop) :
    (executeInsn F d i).Sat (fun d' => ∀ l, I (d'.lane l)) (fun d' => ∀ l, I (d'.lane l))
      (fun _ => True) := by
  unfold executeInsn
  cases heff : effect F d.warp.pc d.warp.cycles i with
  | lanes body => exact (hlanes body heff).bind fun e h => h
  | call => exact (forLanes_invariant (fun _ => hpush) hd).bind fun e h => h
  | ret => exact retLoop_invariant hpop hd
  | branch =>
      apply branch_sat
      intro taken
      cases taken <;> exact hd
  | barrier => exact hd
  | exit => exact hd
  | trap => exact hd

theorem executeInsn_invariant (hI : LaneInvariant F I) (i : BvInsn) (hd : ∀ l, I (d.lane l)) :
    (executeInsn F d i).Sat (fun d' => ∀ l, I (d'.lane l)) (fun d' => ∀ l, I (d'.lane l))
      (fun _ => True) := by
  apply executeInsn_keeps hd _ (hI.push d.warp.pc) hI.pop
  intro body heff
  obtain ⟨op, -, hkind⟩ := laneBody_of_effect heff
  exact forLanes_invariant (fun l c => hI.body (hkind l) c) hd

theorem bvrtStep_invariant (hI : LaneInvariant F I) (hstep : bvrtStep F d = .ok (st, d'))
    (hd : ∀ l, I (d.lane l)) : ∀ l, I (d'.lane l) :=
  bvrtStep_sat (Q := fun e => ∀ l, I (e.lane l)) hstep hd hd fun _ =>
    executeInsn_invariant (d := d.counted) hI d.fetch hd

/-- **The lane invariant rule.** It holds along a run if it holds where the run starts. -/
theorem runsTo_invariant (hI : LaneInvariant F I) (hrun : d.RunsTo F d')
    (hd : ∀ l, I (d.lane l)) : ∀ l, I (d'.lane l) := by
  induction hrun with
  | start => exact hd
  | step _ hstep ih => exact bvrtStep_invariant hI hstep ih

end Invariant

/-! ### The zero register -/

/-- No kind of work writes `S0`, and the calls and returns write no scalar register at all. -/
theorem zero_laneInvariant (F : HostMath) : LaneInvariant F fun r => r.s sZero = 0 where
  body hbody c hc :=
    (laneBody_keeps hbody c).mono (fun _ h => h.s0.trans hc) (fun _ h => h) fun _ h => h
  push pc c hc := by
    unfold pushRet
    split_ifs
    · exact hc
    · trivial
  pop r hr := hr

theorem launch_s0 {d₀ d : Device} {kernel : List Byte} {args : List Word}
    (h : bvrtLaunch d₀ kernel args = some d) (l : Fin warpSize) : (d.lane l).s sZero = 0 := by
  unfold bvrtLaunch at h
  cases hk : bvbcFindKernel d₀.img kernel with
  | none => simp [hk] at h
  | some ki =>
      simp only [hk, Option.some.injEq] at h
      rw [← h]
      simp [Device.lane, launchRegs, sZero, sThreadId, sArgBase]

/-- **The zero register.** In every reachable state `S0` of every lane is 0. -/
theorem reachable_s0_eq_zero (F : HostMath) {d : Device} (h : Reachable F d) (l : Fin warpSize) :
    (d.lane l).s sZero = 0 := by
  obtain ⟨d₀, kernel, args, d₁, hlaunch, hrun⟩ := h
  exact runsTo_invariant (zero_laneInvariant F) hrun (launch_s0 hlaunch) l

/-- A kernel `k` of one `LOADV` whose scalar destinations start at 16 * 16, which wraps to 0. -/
def loadvKernel : BvbcImage :=
  { BvbcImage.zero with
    kernels := [{ name := kernelName (cstr "k"), entry := 0, nargs := 0 }]
    insns := .array [bven Opcode.loadv.toByte 0 16 0 0 0 0 0]
    ninsn := 1 }

/-- The `LOADV`, executed on memory full of sevens. -/
def loadvDone : Option Device :=
  match bvrtLaunch (bvrtLoad (bvrtCreate 64 fun _ => 7) loadvKernel) (cstr "k") [] with
  | none => none
  | some d => (bvrtStep HostMath.integer d).toOption.map Prod.snd

theorem loadvDone_s0 :
    ∃ d, loadvDone = some d ∧ (d.lane ⟨5, by decide⟩).s 1 = 0x07070707 ∧
      (d.lane ⟨5, by decide⟩).s sZero = 0 := by
  refine ⟨_, rfl, rfl, ?_⟩
  refine reachable_s0_eq_zero HostMath.integer
    ⟨bvrtLoad (bvrtCreate 64 fun _ => 7) loadvKernel, cstr "k", [], _, rfl, ?_⟩ ⟨5, by decide⟩
  exact .step .start rfl

end BradVector
