import BradVector.Bvrt

/-!
# The lane loop

Every data instruction runs the same loop over the 32 lanes: a lane that is inactive, or whose
predicate is false, is passed over, and the others work on their own registers and on the shared
memory. `forLanes_sat` says once what that loop does, in terms of what one lane does; the theorems
about single instructions, about the lane mask and about the accesses are read off it.
-/

namespace BradVector

open CSem

/-- The predicate the PRED field selects exists and is true in this lane. -/
def Lane.PredHolds (r : Lane) (pred : BitVec 8) : Prop :=
  pred = 0 ∨ pred ≠ 0 ∧ ∃ h : pred.toNat - 1 < predRegs, r.p ⟨pred.toNat - 1, h⟩ ≠ 0

/-- The PRED field selects no predicate register. -/
def PredOutOfRange (pred : BitVec 8) : Prop := predRegs < pred.toNat

instance (r : Lane) (pred : BitVec 8) : Decidable (r.PredHolds pred) := by
  unfold Lane.PredHolds
  infer_instance

instance (pred : BitVec 8) : Decidable (PredOutOfRange pred) := by
  unfold PredOutOfRange
  infer_instance

/-- A lane the instruction is executed for. -/
def Device.EnabledLane (d : Device) (pred : BitVec 8) (l : Fin warpSize) : Prop :=
  d.laneActive l = true ∧ (d.lane l).PredHolds pred

instance (d : Device) (pred : BitVec 8) (l : Fin warpSize) :
    Decidable (d.EnabledLane pred l) := by
  unfold Device.EnabledLane
  infer_instance

theorem not_predHolds_of_outOfRange {r : Lane} {pred : BitVec 8} (h : PredOutOfRange pred) :
    ¬ r.PredHolds pred := by
  rintro (rfl | ⟨-, hlt, -⟩)
  · exact absurd h (by decide)
  · unfold PredOutOfRange at h
    omega

theorem predOk_eq {ε : Type} (r : Lane) (pred : BitVec 8) :
    (r.predOk pred : Outcome Access ε Bool) =
      if PredOutOfRange pred then .undefined (.preg (pred.toNat - 1))
      else .ok (decide (r.PredHolds pred)) := by
  unfold Lane.predOk Lane.PredHolds PredOutOfRange
  by_cases hzero : pred = 0#8
  · subst hzero
    simp
  · have hpos : pred.toNat ≠ 0 := fun h => hzero (BitVec.eq_of_toNat_eq h)
    by_cases hlt : pred.toNat - 1 < predRegs
    · have hle : ¬ predRegs < pred.toNat := by omega
      simp [hzero, Lane.readP, hlt, hle]
    · have hgt : predRegs < pred.toNat := by omega
      simp [hzero, Lane.readP, hlt, hgt]

theorem enabled_eq (d : Device) (pred : BitVec 8) (l : Fin warpSize) :
    d.enabled pred l =
      if d.laneActive l = true ∧ PredOutOfRange pred then .undefined (.preg (pred.toNat - 1))
      else .ok (decide (d.EnabledLane pred l)) := by
  unfold Device.enabled Device.EnabledLane
  rw [predOk_eq]
  by_cases h : d.laneActive l = true <;> simp [h]

/-! ### The state of a device -/

@[simp]
theorem lane_setLocal_self (d : Device) (l : Fin warpSize) (c : Local) :
    (d.setLocal l c).lane l = c.lane := by
  simp [Device.setLocal, Device.lane]

theorem lane_setLocal_of_ne (d : Device) {l l' : Fin warpSize} (c : Local) (h : l' ≠ l) :
    (d.setLocal l c).lane l' = d.lane l' := by
  simp [Device.setLocal, Device.lane, h]

/-- `d'` is `d` up to the registers of the lanes, the memory and the count of `rand()` calls. -/
def Device.SameControl (d d' : Device) : Prop :=
  d' = { d with
    warp := { d.warp with lanes := d'.warp.lanes }
    mem := d'.mem
    rands := d'.rands }

theorem Device.SameControl.refl (d : Device) : d.SameControl d := rfl

theorem Device.SameControl.setLocal {d d' : Device} (h : d.SameControl d') (l : Fin warpSize)
    (c : Local) : d.SameControl (d'.setLocal l c) := by
  unfold Device.SameControl Device.setLocal at *
  rw [h]

section SameControl

variable {d d' : Device} (h : d.SameControl d')
include h

theorem Device.SameControl.active : d'.warp.active = d.warp.active := by rw [h]

theorem Device.SameControl.pc : d'.warp.pc = d.warp.pc := by rw [h]

theorem Device.SameControl.laneActive (l : Fin warpSize) : d'.laneActive l = d.laneActive l := by
  unfold Device.laneActive
  rw [h.active]

theorem Device.SameControl.enabledLane {l : Fin warpSize} (hl : d'.lane l = d.lane l)
    (pred : BitVec 8) : d'.EnabledLane pred l ↔ d.EnabledLane pred l := by
  unfold Device.EnabledLane
  rw [h.laneActive, hl]

end SameControl

/-! ### What the loop does -/

/-- After the lanes below `k`: an enabled lane meets `Q`, every other lane is as before, and no
active lane was asked for a predicate register that does not exist. -/
structure LanesDone (d d' : Device) (pred : BitVec 8) (Q : Fin warpSize → Lane → Prop)
    (k : Nat) : Prop where
  control : d.SameControl d'
  lanes : ∀ l : Fin warpSize, if l.val < k ∧ d.EnabledLane pred l then Q l (d'.lane l)
    else d'.lane l = d.lane l
  predInRange : ∀ l : Fin warpSize, l.val < k → d.laneActive l = true → ¬ PredOutOfRange pred

section Loop

variable {d : Device} {pred : BitVec 8} {body : Fin warpSize → Local → LaneOutcome Local}
  {J : Nat → DevMem → Nat → Prop} {Q : Fin warpSize → Lane → Prop}
  {E : Fin warpSize → Prop} {U : Fin warpSize → Access → Prop}

theorem LanesDone.lane_eq {d' : Device} {k : Nat} (h : LanesDone d d' pred Q k)
    {l : Fin warpSize} (hl : k ≤ l.val) : d'.lane l = d.lane l := by
  simpa [Nat.not_lt.mpr hl] using h.lanes l

theorem LanesDone.post_of_enabled {d' : Device} (h : LanesDone d d' pred Q warpSize)
    {l : Fin warpSize} (hl : d.EnabledLane pred l) : Q l (d'.lane l) := by
  simpa [hl] using h.lanes l

theorem LanesDone.lane_eq_of_not_enabled {d' : Device} {k : Nat} (h : LanesDone d d' pred Q k)
    {l : Fin warpSize} (hl : ¬ d.EnabledLane pred l) : d'.lane l = d.lane l := by
  simpa [hl] using h.lanes l

theorem LanesDone.skip {d' : Device} {l : Fin warpSize} (h : LanesDone d d' pred Q l)
    (hdis : ¬ d.EnabledLane pred l)
    (hpred : d.laneActive l = true → ¬ PredOutOfRange pred) :
    LanesDone d d' pred Q (l + 1) := by
  refine ⟨h.control, fun l' => ?_, fun l' hlt => ?_⟩
  · by_cases heq : l' = l
    · subst heq
      rw [if_neg fun hc => hdis hc.2]
      exact h.lane_eq le_rfl
    · have hne : l'.val ≠ l.val := fun hv => heq (Fin.ext hv)
      have hiff : l'.val < l + 1 ↔ l'.val < l := by omega
      simpa only [hiff] using h.lanes l'
  · rcases Nat.lt_succ_iff_lt_or_eq.mp hlt with hlt | heq
    · exact h.predInRange l' hlt
    · rw [Fin.ext heq]
      exact hpred

theorem LanesDone.next {d' : Device} {l : Fin warpSize} {c : Local}
    (h : LanesDone d d' pred Q l) (hen : d.EnabledLane pred l) (hc : Q l c.lane) :
    LanesDone d (d'.setLocal l c) pred Q (l + 1) := by
  refine ⟨h.control.setLocal l c, fun l' => ?_, fun l' hlt => ?_⟩
  · by_cases heq : l' = l
    · subst heq
      rw [if_pos ⟨by omega, hen⟩, lane_setLocal_self]
      exact hc
    · have hne : l'.val ≠ l.val := fun hv => heq (Fin.ext hv)
      have hiff : l'.val < l + 1 ↔ l'.val < l := by omega
      rw [lane_setLocal_of_ne d' c heq]
      simpa only [hiff] using h.lanes l'
  · rcases Nat.lt_succ_iff_lt_or_eq.mp hlt with hlt | heq
    · exact h.predInRange l' hlt
    · exact fun _ hout => not_predHolds_of_outOfRange hout hen.2

/-- **The lane loop.** If an enabled lane's work, started on its own registers and a memory meeting
the invariant `J`, establishes `Q` and carries `J` on, or stops under `E`, or is undefined
under `U`, then the loop does so for all enabled lanes, in the order of the lanes, and leaves the
registers of the others alone. -/
theorem forLanes_sat (hentry : J 0 d.mem d.rands)
    (hskip : ∀ l m r, ¬ d.EnabledLane pred l → J l m r → J (l + 1) m r)
    (hbody : ∀ l m r, d.EnabledLane pred l → J l m r →
      (body l ⟨d.lane l, m, r⟩).Sat (fun c => Q l c.lane ∧ J (l + 1) c.mem c.rands)
        (fun _ => E l) (U l)) :
    (forLanes pred body d).Sat
      (fun d' => LanesDone d d' pred Q warpSize ∧ J warpSize d'.mem d'.rands)
      (fun d' => ∃ l d₀, d.EnabledLane pred l ∧ E l ∧ LanesDone d d₀ pred Q l ∧
        J l d₀.mem d₀.rands ∧ d' = { d₀ with status := .trap })
      (fun a => PredOutOfRange pred ∧ a = .preg (pred.toNat - 1) ∨
        ∃ l d₀, d.EnabledLane pred l ∧ LanesDone d d₀ pred Q l ∧ U l a) := by
  refine Outcome.Sat.forRange (I := fun k d' => LanesDone d d' pred Q k ∧ J k d'.mem d'.rands)
    ⟨⟨Device.SameControl.refl d, fun l => by simp, fun l hlt => absurd hlt (by omega)⟩, hentry⟩
    fun l d' ⟨hdone, hJ⟩ => ?_
  have hlane := hdone.lane_eq (le_refl l.val)
  have hen := hdone.control.enabledLane hlane pred
  unfold laneStep
  rw [enabled_eq]
  by_cases hout : d'.laneActive l = true ∧ PredOutOfRange pred
  · rw [if_pos hout]
    exact Or.inl ⟨hout.2, rfl⟩
  rw [if_neg hout]
  by_cases hl : d.EnabledLane pred l
  · have hb := hbody l d'.mem d'.rands hl hJ
    rw [← hlane] at hb
    simp only [Outcome.bind_eq_bind, Outcome.ok_bind, hen.mpr hl, decide_true, if_true,
      Device.local]
    cases hres : body l ⟨d'.lane l, d'.mem, d'.rands⟩ with
    | ok c =>
        rw [hres] at hb
        exact ⟨hdone.next hl hb.1, hb.2⟩
    | stop e =>
        rw [hres] at hb
        exact ⟨l, d', hl, hb, hdone, hJ, rfl⟩
    | undefined a =>
        rw [hres] at hb
        exact Or.inr ⟨l, d', hl, hdone, hb⟩
  · simp only [Outcome.bind_eq_bind, Outcome.ok_bind, mt hen.mp hl, decide_false,
      Bool.false_eq_true, if_false]
    refine ⟨hdone.skip hl fun hact hpred => hout ⟨?_, hpred⟩, hskip l _ _ hl hJ⟩
    rw [hdone.control.laneActive, hact]

/-- Work that neither stops nor is undefined is done for every enabled lane. -/
theorem forLanes_completes (hpred : ¬ PredOutOfRange pred) (hentry : J 0 d.mem d.rands)
    (hskip : ∀ l m r, ¬ d.EnabledLane pred l → J l m r → J (l + 1) m r)
    (hbody : ∀ l m r, d.EnabledLane pred l → J l m r →
      (body l ⟨d.lane l, m, r⟩).Sat (fun c => Q l c.lane ∧ J (l + 1) c.mem c.rands)
        (fun _ => False) fun _ => False) :
    ∃ d', forLanes pred body d = .ok d' ∧ LanesDone d d' pred Q warpSize ∧
      J warpSize d'.mem d'.rands := by
  have hloop : (forLanes pred body d).Sat _ _ _ :=
    forLanes_sat (E := fun _ => False) (U := fun _ _ => False) hentry hskip hbody
  apply Outcome.Sat.exists_ok
  apply hloop.mono (fun _ h => h)
  · rintro _ ⟨_, _, _, hstop, _⟩
    exact hstop
  · rintro _ (⟨hout, _⟩ | ⟨_, _, _, _, hundefined⟩)
    · exact hpred hout
    · exact hundefined

theorem executeInsn_of_lanes {F : HostMath} {i : BvInsn} {d' : Device}
    (heff : effect F d.warp.pc d.warp.cycles i = .lanes body)
    (hloop : forLanes i.pred body d = .ok d') :
    executeInsn F d i = .ok d'.advance := by
  unfold executeInsn
  simp only [heff, hloop]
  rfl

/-- What holds of every lane before the loop, and of an enabled one behind its work, holds of all
lanes. -/
theorem forLanes_keeps (hkeep : ∀ l, Q l (d.lane l))
    (hbody : ∀ l m r, d.EnabledLane pred l →
      (body l ⟨d.lane l, m, r⟩).Sat (fun c => Q l c.lane) (fun _ => True) fun _ => True) :
    (forLanes pred body d).Sat
      (fun d' => d'.warp.active = d.warp.active ∧ ∀ l, Q l (d'.lane l))
      (fun d' => d'.warp.active = d.warp.active ∧ ∀ l, Q l (d'.lane l)) (fun _ => True) := by
  have hloop : (forLanes pred body d).Sat _ _ _ := forLanes_sat (J := fun _ _ _ => True) (Q := Q)
    (E := fun _ => True) (U := fun _ _ => True) trivial (fun _ _ _ _ h => h) fun l m r hen _ =>
      (hbody l m r hen).mono (fun c h => ⟨h, trivial⟩) (fun _ h => h) fun _ h => h
  have hdone {d' : Device} {k : Nat} (h : LanesDone d d' pred Q k) :
      d'.warp.active = d.warp.active ∧ ∀ l, Q l (d'.lane l) := by
    refine ⟨h.control.active, fun l => ?_⟩
    have hl := h.lanes l
    split at hl
    · exact hl
    · rw [hl]
      exact hkeep l
  refine hloop.mono (fun d' h => hdone h.1) ?_ fun _ _ => trivial
  rintro d' ⟨l₀, d₀, -, -, h, -, rfl⟩
  exact ⟨(hdone h).1, (hdone h).2⟩

end Loop

end BradVector
