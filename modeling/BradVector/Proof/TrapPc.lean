import BradVector.Proof.LaneBody

/-!
# The pc of a trap

A trap is reported at the pc where the step began, except that `RET` moves the pc with every lane it
pops a return address from. A lane with an empty stack behind such lanes traps with the pc where the
last of them returns to.
-/

namespace BradVector

open CSem

/-- A trap leaves the pc where it was. -/
def Device.TrapsInPlace (F : HostMath) (d : Device) : Prop :=
  ∀ d', bvrtStep F d = .ok (.trap, d') → d'.warp.pc = d.warp.pc

/-- The address on top of the return stack. -/
def Lane.returnsTo (r : Lane) (pc : Word) : Prop :=
  ∃ h : r.retsp.val ≠ 0, r.ret ⟨r.retsp - 1, by omega⟩ = pc

/-- `l` is the last active lane below `k`. -/
def Device.LastActive (d : Device) (k : Nat) (l : Fin warpSize) : Prop :=
  l.val < k ∧ d.laneActive l = true ∧ ∀ l' : Fin warpSize, l < l' → l'.val < k →
    d.laneActive l' = false

/-- The first active lane with an empty return stack is `l`. -/
def Device.FirstEmpty (d : Device) (l : Fin warpSize) : Prop :=
  d.laneActive l = true ∧ (d.lane l).retsp.val = 0 ∧
    ∀ l' < l, d.laneActive l' = true → (d.lane l').retsp.val ≠ 0

/-- A `RET` at which an active lane has an empty return stack, while the last active lane below the
first such returns to another pc. -/
def Device.HalfReturns (d : Device) : Prop :=
  d.Executing ∧ Opcode.ofByte d.fetch.op = some .ret ∧ ∃ l l', d.FirstEmpty l ∧ d.LastActive l l' ∧
    ¬ (d.lane l').returnsTo d.warp.pc

/-! ### The loop of `RET` -/

/-- After the lanes below `k`: none of them had an empty stack, and the pc is the one that the last
active lane returns to. -/
structure Device.Returned (d d' : Device) (k : Nat) : Prop where
  active : d'.warp.active = d.warp.active
  lanes : ∀ l : Fin warpSize, k ≤ l.val → d'.lane l = d.lane l
  nonempty : ∀ l : Fin warpSize, l.val < k → d.laneActive l = true → (d.lane l).retsp.val ≠ 0
  pc : d'.warp.pc = d.warp.pc ∧ (∀ l, ¬ d.LastActive k l) ∨
    ∃ l, d.LastActive k l ∧ (d.lane l).returnsTo d'.warp.pc

section Loop

variable {d d' : Device} {k : Nat} {l l' : Fin warpSize}

theorem Device.LastActive.unique (h : d.LastActive k l) (h' : d.LastActive k l') : l = l' := by
  obtain ⟨hlt, hact, hlast⟩ := h
  obtain ⟨hlt', hact', hlast'⟩ := h'
  by_contra hne
  obtain hbelow | habove := lt_or_gt_of_ne hne
  · rw [hlast l' hbelow hlt'] at hact'
    cases hact'
  · rw [hlast' l habove hlt] at hact
    cases hact

theorem Device.FirstEmpty.unique (h : d.FirstEmpty l) (h' : d.FirstEmpty l') : l = l' := by
  obtain ⟨hact, hsp, hfirst⟩ := h
  obtain ⟨hact', hsp', hfirst'⟩ := h'
  by_contra hne
  obtain hbelow | habove := lt_or_gt_of_ne hne
  · exact hfirst' l hbelow hact hsp
  · exact hfirst l' habove hact' hsp'

theorem lastActive_succ (h : d.laneActive l = true) : d.LastActive (l + 1) l := by
  refine ⟨Nat.lt_succ_self _, h, ?_⟩
  intro l' hbelow hlt
  have hlt' : l.val < l'.val := hbelow
  omega

theorem lastActive_succ_of_not (h : d.laneActive l = false) :
    d.LastActive (l + 1) l' ↔ d.LastActive l l' := by
  constructor
  · rintro ⟨hlt, hact, hlast⟩
    refine ⟨?_, hact, fun m hbelow hm => hlast m hbelow (Nat.lt_succ_of_lt hm)⟩
    obtain hlt | heq := Nat.lt_succ_iff_lt_or_eq.mp hlt
    · exact hlt
    · rw [Fin.ext heq, h] at hact
      cases hact
  · rintro ⟨hlt, hact, hlast⟩
    refine ⟨Nat.lt_succ_of_lt hlt, hact, ?_⟩
    intro m hbelow hm
    obtain hm | heq := Nat.lt_succ_iff_lt_or_eq.mp hm
    · exact hlast m hbelow hm
    · rw [Fin.ext heq]
      exact h

theorem returned_start (d : Device) : d.Returned d 0 :=
  ⟨rfl, fun _ _ => rfl, fun _ hlt => absurd hlt (Nat.not_lt_zero _),
    .inl ⟨rfl, fun _ h => absurd h.1 (Nat.not_lt_zero _)⟩⟩

theorem Device.Returned.laneActive (h : d.Returned d' k) (l : Fin warpSize) :
    d'.laneActive l = d.laneActive l := by
  unfold Device.laneActive
  rw [h.active]

theorem Device.Returned.step (h : d.Returned d' l) :
    (retStep l d').Sat (fun e => d.Returned e (l + 1))
      (fun e => d.FirstEmpty l ∧ e = { d' with status := .trap }) (fun _ => False) := by
  have hlane : d'.lane l = d.lane l := h.lanes l (Nat.le_refl _)
  have hbelow : ∀ m : Fin warpSize, m.val < l + 1 → m ≠ l → m.val < l := by
    intro m hlt hne
    have hval : m.val ≠ l.val := fun heq => hne (Fin.ext heq)
    omega
  unfold retStep
  cases hact : d.laneActive l with
  | false =>
      rw [if_neg (by rw [h.laneActive, hact]; exact Bool.false_ne_true)]
      refine ⟨h.active, fun m hle => h.lanes m (by omega), ?_, ?_⟩
      · intro m hlt hm
        apply h.nonempty m (hbelow m hlt ?_) hm
        rintro rfl
        cases hm.symm.trans hact
      · simp only [lastActive_succ_of_not hact]
        exact h.pc
  | true =>
      rw [if_pos (by rw [h.laneActive, hact])]
      simp only [hlane]
      by_cases hsp : (d.lane l).retsp.val = 0
      · rw [dif_pos hsp]
        exact ⟨⟨hact, hsp, fun m hlt hm => h.nonempty m hlt hm⟩, rfl⟩
      · rw [dif_neg hsp]
        refine ⟨h.active, ?_, ?_, .inr ⟨l, lastActive_succ hact, hsp, rfl⟩⟩
        · intro m hle
          have hne : m ≠ l := by
            rintro rfl
            omega
          have hother := h.lanes m (by omega)
          unfold Device.lane at hother ⊢
          dsimp only
          rw [Function.update_of_ne hne]
          exact hother
        · intro m hlt hm
          by_cases heq : m = l
          · rw [heq]
            exact hsp
          · exact h.nonempty m (hbelow m hlt heq) hm

theorem retLoop_returned (d : Device) :
    (Outcome.forRange warpSize retStep d).Sat (fun e => d.Returned e warpSize)
      (fun e => ∃ l e', d.FirstEmpty l ∧ d.Returned e' l ∧ e = { e' with status := .trap })
      (fun _ => False) :=
  Outcome.Sat.forRange (I := fun k e => d.Returned e k) (returned_start d) fun l e he =>
    he.step.mono (fun _ h => h) (fun _ h => ⟨l, e, h.1, he, h.2⟩) fun _ h => h

end Loop

/-! ### Steps -/

section Step

variable {F : HostMath} {d : Device}

theorem forLanes_trap_pc {pred : BitVec 8} {body : Fin warpSize → Local → LaneOutcome Local} :
    (forLanes pred body d).Sat (fun _ => True) (fun e => e.warp.pc = d.warp.pc)
      (fun _ => True) := by
  have hloop : (forLanes pred body d).Sat _ _ _ := forLanes_sat (J := fun _ _ _ => True)
    (Q := fun _ _ => True) (E := fun _ => True) (U := fun _ _ => True) trivial (fun _ _ _ _ h => h)
    fun l m r _ _ => by
      cases body l ⟨d.lane l, m, r⟩ <;> trivial
  refine hloop.mono (fun _ _ => trivial) ?_ fun _ _ => trivial
  rintro e ⟨l, d₀, _, _, hdone, _, rfl⟩
  exact hdone.control.pc

/-- Only `RET` traps elsewhere. -/
theorem executeInsn_trap_pc {i : BvInsn} (hret : Opcode.ofByte i.op ≠ some .ret) :
    (executeInsn F d i).Sat (fun _ => True) (fun e => e.warp.pc = d.warp.pc) (fun _ => True) := by
  have hcases := effect_cases F d.warp.pc d.warp.cycles i
  unfold executeInsn
  cases heff : effect F d.warp.pc d.warp.cycles i with
  | lanes body => exact forLanes_trap_pc.bind fun _ _ => trivial
  | call => exact forLanes_trap_pc.bind fun _ _ => trivial
  | ret =>
      rw [heff] at hcases
      exact absurd hcases hret
  | branch =>
      apply branch_sat
      intro taken
      cases taken <;> trivial
  | barrier => trivial
  | exit => trivial
  | trap => rfl

theorem executeInsn_of_ret {i : BvInsn} (hret : Opcode.ofByte i.op = some .ret) :
    executeInsn F d i = Outcome.forRange warpSize retStep d := by
  unfold executeInsn effect
  rw [hret]

theorem not_executing_traps_in_place (h : ¬ d.Executing) : d.TrapsInPlace F := by
  intro d' hstep
  obtain hs | hs := bvrtStep_of_not_executing (F := F) h
  · rw [hs] at hstep
    cases hstep
  · rw [hs] at hstep
    cases hstep
    rfl

/-- What a `RET` that traps leaves of the pc. -/
theorem ret_traps_iff (hex : d.Executing) (hret : Opcode.ofByte d.fetch.op = some .ret) :
    d.TrapsInPlace F ↔ ¬ d.HalfReturns := by
  have hloop := retLoop_returned d.counted
  unfold Device.TrapsInPlace
  rw [bvrtStep_of_executing hex, executeInsn_of_ret hret]
  cases hres : Outcome.forRange warpSize retStep d.counted with
  | undefined a =>
      rw [hres] at hloop
      exact hloop.elim
  | ok e =>
      rw [hres] at hloop
      refine iff_of_true (fun d' hstep => by cases hstep) ?_
      rintro ⟨_, _, l, _, ⟨hact, hsp, _⟩, _⟩
      exact hloop.nonempty l l.isLt hact hsp
  | stop e =>
      rw [hres] at hloop
      obtain ⟨l, e', hempty, hdone, rfl⟩ := hloop
      have hpc : (∀ d', Exec.result (.stop { e' with status := .trap }) = .ok (.trap, d') →
          d'.warp.pc = d.warp.pc) ↔ e'.warp.pc = d.warp.pc :=
        ⟨fun h => h { e' with status := .trap } rfl, fun h d' hd' => by cases hd'; exact h⟩
      rw [hpc]
      constructor
      · rintro hkeep ⟨_, _, m, m', hfirst, hlast, hreturns⟩
        obtain rfl : m = l := hfirst.unique hempty
        obtain ⟨_, hnone⟩ | ⟨m₁, hlast₁, hreturns₁⟩ := hdone.pc
        · exact hnone m' hlast
        · obtain rfl := hlast₁.unique hlast
          rw [hkeep] at hreturns₁
          exact hreturns hreturns₁
      · intro hnot
        obtain ⟨hsame, _⟩ | ⟨m, hlast, hsp, hreturns⟩ := hdone.pc
        · exact hsame
        · by_contra hne
          apply hnot
          refine ⟨hex, hret, l, m, hempty, hlast, ?_⟩
          rintro ⟨_, hpc⟩
          exact hne (hreturns.symm.trans hpc)

end Step

/-- **The pc of a trap.** A step that traps leaves the pc where it was, unless it is a `RET` for
which lanes have returned elsewhere before one with an empty stack. -/
theorem trapsInPlace_iff (F : HostMath) (d : Device) : d.TrapsInPlace F ↔ ¬ d.HalfReturns := by
  by_cases hex : d.Executing
  · by_cases hret : Opcode.ofByte d.fetch.op = some .ret
    · exact ret_traps_iff hex hret
    · refine iff_of_true ?_ fun h => hret h.2.1
      intro d' hstep
      have hsat := executeInsn_trap_pc (F := F) (d := d.counted) hret
      rw [bvrtStep_of_executing hex] at hstep
      cases hres : executeInsn F d.counted d.fetch with
      | ok e =>
          rw [hres] at hstep
          cases hstep
      | undefined a =>
          rw [hres] at hstep
          cases hstep
      | stop e =>
          rw [hres] at hsat hstep
          cases hstep
          exact hsat
  · exact iff_of_true (not_executing_traps_in_place hex) fun h => hex h.1

/-- A kernel `k` in which only the first lane makes a call, and all return. -/
def oneCallKernel : BvbcImage :=
  { BvbcImage.zero with
    kernels := [{ name := kernelName (cstr "k"), entry := 0, nargs := 0 }]
    insns := .array [bven Opcode.cmp.toByte 0 0 1 0 0 0 0, bven Opcode.call.toByte 1 0 0 0 1 0 0,
      bven Opcode.exit.toByte 0 0 0 0 0 0 0, bven Opcode.ret.toByte 0 0 0 0 0 0 0]
    ninsn := 4 }

/-- In the `RET` the first lane moves the pc from 3 to 2 before the second lane traps. -/
theorem not_forall_reachable_trapsInPlace :
    ¬ ∀ d, Reachable HostMath.integer d → d.TrapsInPlace HostMath.integer := by
  intro h
  have hreach : ∃ d d', Reachable HostMath.integer d ∧
      bvrtStep HostMath.integer d = .ok (.trap, d') ∧ d.warp.pc = 3 ∧ d'.warp.pc = 2 := by
    refine ⟨_, _, ⟨bvrtLoad (bvrtCreate 64 fun _ => 0) oneCallKernel, cstr "k", [], _, rfl,
      .step (.step .start rfl) rfl⟩, rfl, rfl, rfl⟩
  obtain ⟨d, d', hreach, hstep, hbefore, hafter⟩ := hreach
  have hsame := h d hreach d' hstep
  rw [hbefore, hafter] at hsame
  cases hsame

end BradVector
