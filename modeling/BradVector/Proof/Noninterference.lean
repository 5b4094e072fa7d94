import BradVector.Proof.LaneBody

/-!
# Lane noninterference

What an instruction leaves in a lane's registers is a function of that lane, of memory, of the pc
and of the cycle counter. Two instructions are excepted: `ATOMIC_ADD` reads what the lanes before it
wrote, and `RAND` counts their calls.
-/

namespace BradVector

open CSem

/-- The scalar, vector and predicate registers of two lanes agree. -/
structure Lane.SameRegs (r r' : Lane) : Prop where
  s : r.s = r'.s
  v : r.v = r'.v
  p : r.p = r'.p

theorem Lane.SameRegs.refl (r : Lane) : r.SameRegs r := ⟨rfl, rfl, rfl⟩

theorem Lane.SameRegs.symm {r r' : Lane} (h : r.SameRegs r') : r'.SameRegs r :=
  ⟨h.s.symm, h.v.symm, h.p.symm⟩

theorem Lane.SameRegs.trans {r r' r'' : Lane} (h : r.SameRegs r') (h' : r'.SameRegs r'') :
    r.SameRegs r'' := ⟨h.s.trans h'.s, h.v.trans h'.v, h.p.trans h'.p⟩

theorem Lane.SameRegs.predHolds {r r' : Lane} (h : r.SameRegs r') (pred : BitVec 8) :
    r.PredHolds pred ↔ r'.PredHolds pred := by
  unfold Lane.PredHolds
  rw [h.p]

/-! ### What a lane's work looks at -/

/-- The same registers and memory with another return stack and count of `rand()` calls. -/
def Local.reframe (c c₀ : Local) : Local :=
  { c with lane := { c.lane with ret := c₀.lane.ret, retsp := c₀.lane.retsp }, rands := c₀.rands }

theorem reframe_of_sameRegs {c c₀ : Local} (hregs : c.lane.SameRegs c₀.lane)
    (hmem : c.mem = c₀.mem) : c.reframe c₀ = c₀ := by
  obtain ⟨⟨s, v, p, ret, retsp⟩, mem, rands⟩ := c
  obtain ⟨⟨s', v', p', ret', retsp'⟩, mem', rands'⟩ := c₀
  obtain ⟨rfl, rfl, rfl⟩ := hregs
  obtain rfl := hmem
  rfl

/-- The work neither looks at the return stack and the count of calls nor changes them. -/
def Frames (body : Local → LaneOutcome Local) : Prop :=
  ∀ c c₀ : Local, body (c.reframe c₀) = (body c).bind fun e => .ok (e.reframe c₀)

theorem wrS_reframe (c c₀ : Local) (reg : BitVec 8) (v : Word) :
    (c.reframe c₀).lane.wrS reg v =
      { c.lane.wrS reg v with ret := c₀.lane.ret, retsp := c₀.lane.retsp } := by
  unfold Lane.wrS
  split <;> rfl

theorem forRange_frames {n : Nat} {body : Fin n → Local → LaneOutcome Local}
    (h : ∀ k, Frames (body k)) : Frames (Outcome.forRange n body) := by
  induction n with
  | zero =>
      intro c c₀
      rfl
  | succ n ih =>
      intro c c₀
      rw [Outcome.forRange_succ, Outcome.forRange_succ, h 0 c c₀, Outcome.bind_assoc,
        Outcome.bind_assoc]
      refine congrArg (Outcome.bind (body 0 c)) (funext fun e => ?_)
      exact ih (fun k => h k.succ) e c₀

section Work

variable {F : HostMath} {pc : Word} {i : BvInsn} {op : Opcode} {body : Local → LaneOutcome Local}

/-- All work but that of `RAND`. -/
theorem laneBody_frames (h : LaneBody F pc i op body) (hrand : op ≠ .rand) : Frames body := by
  intro c c₀
  have hs : (c.reframe c₀).lane.s = c.lane.s := rfl
  have hmem : (c.reframe c₀).mem = c.mem := rfl
  have haddr : (c.reframe c₀).lane.memAddr i = c.lane.memAddr i := rfl
  cases h with
  | rand => exact absurd rfl hrand
  | scalar =>
      simp only [scalar, wrS_reframe, hs, Outcome.ok_bind]
      rfl
  | sel =>
      have hp {ε : Type} : ((c.reframe c₀).lane.predOk i.pred : Outcome Access ε Bool) =
          c.lane.predOk i.pred := rfl
      simp only [sel, wrS_reframe, hs, hp]
      by_cases hzero : i.pred = 0
      · simp only [if_pos hzero]
        rfl
      · simp only [if_neg hzero]
        cases (c.lane.predOk i.pred : LaneOutcome Bool) <;> rfl
  | cmp =>
      simp only [cmp, Lane.writeP, hs]
      by_cases hdst : i.dst.toNat < predRegs <;> simp only [hdst] <;> rfl
  | vector2 | vmad | vdot =>
      simp only [vector2, vmad, vdot, Lane.readV, Lane.writeV]
      by_cases h₁ : i.src1.toNat < vecRegs <;> by_cases h₂ : i.src2.toNat < vecRegs <;>
        by_cases h₃ : i.dst.toNat < vecRegs <;> simp only [h₁, h₂, h₃] <;> rfl
  | vbroadcast | vreduce =>
      simp only [vbroadcast, vreduce, Lane.readV, Lane.writeV]
      by_cases h₁ : i.dst.toNat < vecRegs <;> simp only [h₁] <;> rfl
  | load =>
      simp only [load, hmem, haddr]
      split_ifs
      · rfl
      · cases c.mem.read32 (c.lane.memAddr i).toNat <;>
          simp only [Outcome.bind_eq_bind, Outcome.ok_bind, wrS_reframe] <;> rfl
  | store =>
      simp only [store, hmem, haddr, hs]
      split_ifs
      · rfl
      · cases c.mem.write32 (c.lane.memAddr i).toNat (c.lane.s i.dst) <;> rfl
  | atomicAdd =>
      simp only [atomicAdd, hmem, haddr, hs]
      split_ifs
      · rfl
      · cases c.mem.read32 (c.lane.memAddr i).toNat with
        | stop => rfl
        | undefined => rfl
        | ok old =>
            simp only [Outcome.bind_eq_bind, Outcome.ok_bind]
            cases c.mem.write32 (c.lane.memAddr i).toNat (old + c.lane.s i.src2) <;>
              simp only [Outcome.ok_bind, wrS_reframe] <;> rfl
  | loadv =>
      simp only [loadv, hmem, haddr]
      split_ifs
      · rfl
      · refine forRange_frames (fun li e e₀ => ?_) c c₀
        have hmem' : (e.reframe e₀).mem = e.mem := rfl
        simp only [hmem']
        cases e.mem.read32 (c.lane.memAddr i + BitVec.ofNat 64 (li * 4)).toNat <;>
          simp only [Outcome.bind_eq_bind, Outcome.ok_bind, wrS_reframe] <;> rfl
  | storev =>
      simp only [storev, hmem, haddr]
      split_ifs
      · rfl
      · refine forRange_frames (fun li e e₀ => ?_) c c₀
        have hmem' : (e.reframe e₀).mem = e.mem := rfl
        have hv : (e.reframe e₀).lane.readV i.dst = e.lane.readV i.dst := rfl
        simp only [hmem', hv]
        cases e.lane.readV i.dst with
        | stop => rfl
        | undefined => rfl
        | ok x =>
            simp only [Outcome.bind_eq_bind, Outcome.ok_bind]
            cases e.mem.write32 (c.lane.memAddr i + BitVec.ofNat 64 (li * 4)).toNat (x li) <;> rfl

end Work

/-! ### The loop over the lanes -/

section Loop

variable {F : HostMath} {pc : Word} {i : BvInsn} {op : Opcode} {d : Device}
  {body : Fin warpSize → Local → LaneOutcome Local}

theorem forLanes_local (hbody : ∀ l, LaneBody F pc i op (body l)) (hstore : op.isStore = false)
    (hatomic : op ≠ .atomicAdd) :
    (forLanes i.pred body d).Sat
      (fun e => ∀ l, if d.EnabledLane i.pred l then
        ∃ n c, body l ⟨d.lane l, d.mem, n⟩ = .ok c ∧ e.lane l = c.lane else e.lane l = d.lane l)
      (fun _ => True) (fun _ => True) := by
  have hloop : (forLanes i.pred body d).Sat _ _ _ := forLanes_sat
    (J := fun _ m _ => m = d.mem)
    (Q := fun l r => ∃ n c, body l ⟨d.lane l, d.mem, n⟩ = .ok c ∧ r = c.lane)
    (E := fun _ => True) (U := fun _ _ => True) rfl (fun _ _ _ _ h => h) fun l m r _ hm => by
      subst hm
      have hkeeps := laneBody_keeps (hbody l) ⟨d.lane l, d.mem, r⟩
      cases hres : body l ⟨d.lane l, d.mem, r⟩ with
      | ok c =>
          rw [hres] at hkeeps
          exact ⟨⟨r, c, hres, rfl⟩, hkeeps.mem hstore hatomic⟩
      | stop => trivial
      | undefined => trivial
  refine hloop.mono (fun e he l => ?_) (fun _ _ => trivial) fun _ _ => trivial
  have hl := he.1.lanes l
  by_cases hen : d.EnabledLane i.pred l
  · rw [if_pos hen]
    rwa [if_pos ⟨l.isLt, hen⟩] at hl
  · rw [if_neg hen]
    rwa [if_neg fun h => hen h.2] at hl

theorem forLanes_sameRegs {pred : BitVec 8}
    (hbody : ∀ l c,
      (body l c).Sat (fun e => e.lane.SameRegs c.lane) (fun _ => True) fun _ => True) :
    (forLanes pred body d).Sat (fun e => ∀ l, (e.lane l).SameRegs (d.lane l)) (fun _ => True)
      (fun _ => True) := by
  have hloop : (forLanes pred body d).Sat _ _ _ :=
    forLanes_keeps (Q := fun l r => r.SameRegs (d.lane l)) (fun _ => .refl _)
      fun l m r _ => hbody l ⟨d.lane l, m, r⟩
  exact hloop.mono (fun _ h => h.2) (fun _ _ => trivial) fun _ h => h

end Loop

/-! ### One instruction -/

/-- The instructions whose work in a lane depends on the lanes before it. -/
def Opcode.couplesLanes : Opcode → Bool
  | atomicAdd | rand => true
  | _ => false

section Instruction

variable {F : HostMath} {i : BvInsn} {d d' : Device} {l : Fin warpSize}

/-- What an instruction that does not couple the lanes leaves in a lane's registers: what its work
makes of them, or what was there. -/
theorem executeInsn_lane (hop : ∀ op, Opcode.ofByte i.op = some op → op.couplesLanes = false)
    (h : executeInsn F d i = .ok d') (l : Fin warpSize) :
    (∃ op body n c, effect F d.warp.pc d.warp.cycles i = .lanes body ∧
      Opcode.ofByte i.op = some op ∧ LaneBody F d.warp.pc i op (body l) ∧ op.isStore = false ∧
      d.EnabledLane i.pred l ∧ body l ⟨d.lane l, d.mem, n⟩ = .ok c ∧ d'.lane l = c.lane) ∨
    ((∀ op, Opcode.ofByte i.op = some op → op.isStore = false →
        (∃ body, effect F d.warp.pc d.warp.cycles i = .lanes body) → ¬ d.EnabledLane i.pred l) ∧
      (d'.lane l).SameRegs (d.lane l)) := by
  unfold executeInsn at h
  cases heff : effect F d.warp.pc d.warp.cycles i with
  | lanes body =>
      obtain ⟨op, hopi, hbody⟩ := laneBody_of_effect heff
      rw [heff] at h
      obtain ⟨e, he, hadv⟩ := Outcome.bind_eq_ok_iff.mp h
      obtain rfl : e.advance = d' := Outcome.ok.inj hadv
      cases hstore : op.isStore with
      | true =>
          have hloop : (forLanes i.pred body d).Sat _ _ _ := forLanes_sameRegs fun l c =>
            (laneBody_keeps (hbody l) c).mono (fun e he => he.lane hstore ▸ Lane.SameRegs.refl _)
              (fun _ h => h) fun _ h => h
          refine Or.inr ⟨fun op' hop' hfalse _ => ?_, hloop.of_eq_ok he l⟩
          obtain rfl := Option.some.inj (hopi.symm.trans hop')
          rw [hstore] at hfalse
          cases hfalse
      | false =>
          have hatomic : op ≠ .atomicAdd := by
            rintro rfl
            exact absurd (hop _ hopi) (by decide)
          have hlane := (forLanes_local (d := d) hbody hstore hatomic).of_eq_ok he l
          by_cases hen : d.EnabledLane i.pred l
          · rw [if_pos hen] at hlane
            obtain ⟨n, c, hc, hd'⟩ := hlane
            exact Or.inl ⟨op, body, n, c, rfl, hopi, hbody l, hstore, hen, hc, hd'⟩
          · rw [if_neg hen] at hlane
            refine Or.inr ⟨fun _ _ _ _ => hen, ?_⟩
            rw [show e.advance.lane l = e.lane l from rfl, hlane]
            exact .refl _
  | call =>
      rw [heff] at h
      obtain ⟨e, he, hpc⟩ := Outcome.bind_eq_ok_iff.mp h
      obtain rfl : e.setPc (d.branchTarget i) = d' := Outcome.ok.inj hpc
      have hloop : (forLanes i.pred (fun _ => pushRet d.warp.pc) d).Sat _ _ _ :=
        forLanes_sameRegs fun l c => by
          unfold pushRet
          split_ifs
          · exact ⟨rfl, rfl, rfl⟩
          · trivial
      exact Or.inr ⟨fun _ _ _ ⟨_, hb⟩ => (by cases hb), hloop.of_eq_ok he l⟩
  | ret =>
      rw [heff] at h
      have hl := ((retLoop_sat d).of_eq_ok h).lanes l
      refine Or.inr ⟨fun _ _ _ ⟨_, hb⟩ => (by cases hb), ?_⟩
      split at hl
      · rw [hl.2]
        exact ⟨rfl, rfl, rfl⟩
      · rw [hl]
        exact .refl _
  | branch =>
      rw [heff] at h
      obtain ⟨b, -, hb⟩ := Outcome.bind_eq_ok_iff.mp h
      refine Or.inr ⟨fun _ _ _ ⟨_, hb⟩ => (by cases hb), ?_⟩
      cases b <;>
        · obtain rfl := Outcome.ok.inj hb
          exact .refl _
  | barrier =>
      rw [heff] at h
      obtain rfl := Outcome.ok.inj h
      exact Or.inr ⟨fun _ _ _ ⟨_, hb⟩ => (by cases hb), .refl _⟩
  | exit =>
      rw [heff] at h
      obtain rfl := Outcome.ok.inj h
      exact Or.inr ⟨fun _ _ _ ⟨_, hb⟩ => (by cases hb), .refl _⟩
  | trap =>
      rw [heff] at h
      cases h

end Instruction

/-! ### Two steps -/

/-- Two devices agree on lane `l`, on memory, on the pc and on the cycle counter. -/
structure Device.AgreesOn (d₁ d₂ : Device) (l : Fin warpSize) : Prop where
  regs : (d₁.lane l).SameRegs (d₂.lane l)
  active : d₁.laneActive l = d₂.laneActive l
  mem : d₁.mem = d₂.mem
  pc : d₁.warp.pc = d₂.warp.pc
  cycles : d₁.warp.cycles = d₂.warp.cycles

theorem Device.AgreesOn.enabledLane {d₁ d₂ : Device} {l : Fin warpSize} (h : d₁.AgreesOn d₂ l)
    (pred : BitVec 8) : d₁.EnabledLane pred l ↔ d₂.EnabledLane pred l := by
  unfold Device.EnabledLane
  rw [h.active, h.regs.predHolds]

/-- Two executions of one instruction in devices that agree on a lane. -/
theorem executeInsn_sameRegs {F : HostMath} {i : BvInsn} {d₁ d₂ e₁ e₂ : Device} {l : Fin warpSize}
    (hop : ∀ op, Opcode.ofByte i.op = some op → op.couplesLanes = false) (h : d₁.AgreesOn d₂ l)
    (h₁ : executeInsn F d₁ i = .ok e₁) (h₂ : executeInsn F d₂ i = .ok e₂) :
    (e₁.lane l).SameRegs (e₂.lane l) := by
  rcases executeInsn_lane hop h₁ l with
    ⟨op, body, n, c, heff, hopi, hbody, hstore, hen, hc, hlane⟩ | ⟨hno, hregs⟩
  · rcases executeInsn_lane hop h₂ l with
      ⟨op₂, body₂, n₂, c₂, heff₂, -, -, -, -, hc₂, hlane₂⟩ | ⟨hno₂, -⟩
    · -- the same work, on the same registers and the same memory
      rw [← h.pc, ← h.cycles, heff] at heff₂
      obtain rfl : body = body₂ := Effect.lanes.inj heff₂
      have hrand : op ≠ .rand := by
        rintro rfl
        exact absurd (hop _ hopi) (by decide)
      have hframe := laneBody_frames hbody hrand ⟨d₁.lane l, d₁.mem, n⟩ ⟨d₂.lane l, d₂.mem, n₂⟩
      rw [reframe_of_sameRegs h.regs h.mem, hc, hc₂, Outcome.ok_bind] at hframe
      rw [hlane, hlane₂, Outcome.ok.inj hframe]
      exact ⟨rfl, rfl, rfl⟩
    · refine absurd ((h.enabledLane i.pred).mp hen) (hno₂ op hopi hstore ⟨body, ?_⟩)
      rw [← h.pc, ← h.cycles, heff]
  · rcases executeInsn_lane hop h₂ l with
      ⟨op₂, body₂, n₂, c₂, heff₂, hopi, -, hstore, hen, -, -⟩ | ⟨-, hregs₂⟩
    · refine absurd ((h.enabledLane i.pred).mpr hen) (hno op₂ hopi hstore ⟨body₂, ?_⟩)
      rw [h.pc, h.cycles, heff₂]
    · exact hregs.trans (h.regs.trans hregs₂.symm)

/-- A step that does not trap executes an instruction, or finds the warp halted. -/
theorem bvrtStep_not_trap {F : HostMath} {d d' : Device} {st : BvStatus}
    (h : bvrtStep F d = .ok (st, d')) (hst : st ≠ .trap) :
    d.Executing ∧ executeInsn F d.counted d.fetch = .ok d' ∨ d.warp.active = 0 ∧ d' = d := by
  by_cases hex : d.Executing
  · rw [bvrtStep_of_executing hex] at h
    cases hres : executeInsn F d.counted d.fetch with
    | ok e =>
        rw [hres] at h
        cases h
        exact Or.inl ⟨hex, rfl⟩
    | stop e =>
        rw [hres] at h
        cases h
        exact absurd rfl hst
    | undefined a =>
        rw [hres] at h
        cases h
  · unfold bvrtStep at h
    split_ifs at h with hactive hneg hlt
    · cases h
      exact Or.inr ⟨hactive, rfl⟩
    · cases h
      exact absurd rfl hst
    · cases h
      exact absurd rfl hst
    · exact absurd ⟨hactive, by omega, by omega⟩ hex

/-- **Lane noninterference.** If two devices that agree on a lane, on memory, on the pc and on the
cycle counter step over the same instruction without a trap, they agree on the lane's registers
afterwards, unless the instruction is `ATOMIC_ADD` or `RAND`. -/
theorem bvrtStep_noninterference (F : HostMath) {d₁ d₂ d₁' d₂' : Device} {st₁ st₂ : BvStatus}
    {l : Fin warpSize} (hfetch : d₁.fetch = d₂.fetch)
    (hop : ∀ op, Opcode.ofByte d₁.fetch.op = some op → op.couplesLanes = false)
    (hagrees : d₁.AgreesOn d₂ l)
    (h₁ : bvrtStep F d₁ = .ok (st₁, d₁')) (hst₁ : st₁ ≠ .trap)
    (h₂ : bvrtStep F d₂ = .ok (st₂, d₂')) (hst₂ : st₂ ≠ .trap) :
    (d₁'.lane l).SameRegs (d₂'.lane l) := by
  -- a lane of a halted warp is inactive, and an instruction leaves an inactive lane alone
  have hidle {d e : Device} (hzero : d.laneActive l = false)
      (he : executeInsn F d.counted d.fetch = .ok e)
      (hop : ∀ op, Opcode.ofByte d.fetch.op = some op → op.couplesLanes = false) :
      (e.lane l).SameRegs (d.lane l) := by
    rcases executeInsn_lane hop he l with ⟨op, body, n, c, -, -, -, -, hen, -⟩ | ⟨-, hregs⟩
    · have hact : d.laneActive l = true := hen.1
      rw [hzero] at hact
      cases hact
    · exact hregs
  have hinactive {d : Device} (h : d.warp.active = 0) : d.laneActive l = false := by
    unfold Device.laneActive
    rw [h]
    exact BitVec.getLsbD_zero
  rcases bvrtStep_not_trap h₁ hst₁ with ⟨-, hok₁⟩ | ⟨hhalt₁, rfl⟩
  · rcases bvrtStep_not_trap h₂ hst₂ with ⟨-, hok₂⟩ | ⟨hhalt₂, rfl⟩
    · rw [← hfetch] at hok₂
      have hcounted : d₁.counted.AgreesOn d₂.counted l :=
        ⟨hagrees.regs, hagrees.active, hagrees.mem, hagrees.pc, hagrees.cycles⟩
      exact executeInsn_sameRegs hop hcounted hok₁ hok₂
    · have hzero := hagrees.active.trans (hinactive hhalt₂)
      exact (hidle hzero hok₁ hop).trans hagrees.regs
  · rcases bvrtStep_not_trap h₂ hst₂ with ⟨-, hok₂⟩ | ⟨-, rfl⟩
    · have hzero := hagrees.active.symm.trans (hinactive hhalt₁)
      exact hagrees.regs.trans (hidle hzero hok₂ (by rwa [← hfetch])).symm
    · exact hagrees.regs

/-- A device about to load a word in every lane, in lane 0 from the address `a`. -/
def loadingFrom (a : Word) : Device :=
  { bvrtLoad (bvrtCreate 64 fun k => BitVec.ofNat 8 k) loadKernel with
    warp := {
      pc := 0
      active := 0xFFFFFFFF
      lanes := fun l => { Lane.zero with s := launchRegs [if l.val = 0 then a else 12] l }
      cycles := 0 } }

/-- The device a step leaves. -/
def stepped (d : Device) : Device :=
  match bvrtStep HostMath.integer d with
  | .ok (_, d') => d'
  | .error _ => d

theorem loadingFrom_lane_five :
    ((stepped (loadingFrom 0)).lane ⟨5, by decide⟩).SameRegs
      ((stepped (loadingFrom 8)).lane ⟨5, by decide⟩) := by
  have hfetch : (loadingFrom 0).fetch = (loadingFrom 8).fetch := rfl
  have hop : ∀ op, Opcode.ofByte (loadingFrom 0).fetch.op = some op → op.couplesLanes = false := by
    rintro op ⟨⟩
    rfl
  have hagrees : (loadingFrom 0).AgreesOn (loadingFrom 8) ⟨5, by decide⟩ :=
    ⟨.refl _, rfl, rfl, rfl, rfl⟩
  have h₁ : bvrtStep HostMath.integer (loadingFrom 0) = .ok (.ok, stepped (loadingFrom 0)) := rfl
  have h₂ : bvrtStep HostMath.integer (loadingFrom 8) = .ok (.ok, stepped (loadingFrom 8)) := rfl
  exact bvrtStep_noninterference HostMath.integer hfetch hop hagrees h₁ (by decide) h₂ (by decide)

end BradVector
