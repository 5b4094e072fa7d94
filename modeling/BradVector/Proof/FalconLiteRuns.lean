import BradVector.Proof.PipeRuns

/-!
# The Falcon-Lite core

A clock edge of the core is a cycle of the three stages, with every instruction reading its own
registers as it is decoded. Nothing waits for a result that is still under way.
-/

namespace BradVector.Rtl

open CSem CoreEmu

/-! ### The core as three stages -/

namespace FalconLite

/-- What the stages hold. -/
def stages (s : System FalconLite) : Pipe where
  regs := s.core.rfRdata
  mem := s.dmem
  pc := s.core.pc
  fValid := s.core.fValid
  fPc := s.core.fPc
  fInsn := s.core.fInsn
  dValid := s.core.dValid
  dPc := s.core.dPc
  d := ⟨.ofNibble s.core.dOpcode, s.core.dRd, s.core.dRs1, s.core.dRs2, s.core.dImm⟩
  a := s.core.dRs1Val
  b := s.core.dRs2Val
  eValid := s.core.eValid
  wb :=
    if s.core.rfWe then
      some (s.core.eRd,
        if s.core.eMemReq && !s.core.eMemWe then .load s.core.eAddr else .value s.core.eResult)
    else none
  st := if s.core.eMemReq && s.core.eMemWe then some (s.core.eAddr, s.core.eStoreData) else none

/-- Every instruction reads its own registers. -/
def deliver : Deliver := fun _ regs d => (regs d.rs1, regs d.rs2)

/-- The control bits of the decode stage are those of its opcode. -/
structure Controlled (s : FalconLite) : Prop where
  memReq : s.dMemReq = (s.dOpcode == bradOpLdw || s.dOpcode == bradOpStw)
  memWe : s.dMemWe = (s.dOpcode == bradOpStw)
  regWe : s.dValid = true → s.dRegWe =
    (decide (s.dOpcode ≤ bradOpAddi) && s.dOpcode != bradOpMul || s.dOpcode == bradOpLdw)

theorem writes_eq (s : System FalconLite) : writes s = (stages s).writes := by
  unfold writes Pipe.writes commitWrites stages rfWdata
  dsimp only
  cases s.core.rfWe <;> cases s.core.eMemReq <;> cases s.core.eMemWe <;> rfl

/-- All registers after a clock edge. -/
theorem clock_eq (s : FalconLite) (imemRdata dmemRdata : Word) :
    let rawOp := s.fInsn.extractLsb' 28 4
    s.clock imemRdata dmemRdata =
      { regs := if s.rfWe then Function.update s.regs s.eRd (s.rfWdata dmemRdata) else s.regs
        pc := if s.branchTaken then s.nextPc else s.pc + 4
        fValid := !s.branchTaken
        fPc := if s.branchTaken then s.fPc else s.pc
        fInsn := if s.branchTaken then s.fInsn else imemRdata
        dValid := !s.branchTaken && s.fValid
        dPc := if s.branchTaken then s.dPc else s.fPc
        dOpcode := if s.branchTaken then s.dOpcode else rawOp
        dRd := if s.branchTaken then s.dRd else s.fInsn.extractLsb' 24 4
        dRs1 := if s.branchTaken then s.dRs1 else s.fInsn.extractLsb' 20 4
        dRs2 := if s.branchTaken then s.dRs2 else s.fInsn.extractLsb' 16 4
        dRs1Val := if s.branchTaken then s.dRs1Val else s.rfRdata (s.fInsn.extractLsb' 20 4)
        dRs2Val := if s.branchTaken then s.dRs2Val else s.rfRdata (s.fInsn.extractLsb' 16 4)
        dImm := if s.branchTaken then s.dImm else (s.fInsn.extractLsb' 0 16).signExtend 32
        dRegWe :=
          if s.branchTaken then s.dRegWe
          else decide (rawOp ≤ bradOpAddi) && rawOp != bradOpMul || rawOp == bradOpLdw
        dMemReq := if s.branchTaken then s.dMemReq else rawOp == bradOpLdw || rawOp == bradOpStw
        dMemWe := if s.branchTaken then s.dMemWe else rawOp == bradOpStw
        eValid := s.dValid && !s.branchTaken
        eRd := if s.dOpcode = bradOpCall then bradLr else s.dRd
        eResult :=
          if s.dOpcode = bradOpCall then s.dPc + 4
          else if s.dOpcode ≠ bradOpMul ∧ s.dOpcode ≤ bradOpAddi then s.aluResult
          else 0
        eAddr := s.dRs1Val + s.dImm
        eRegWe := if s.dOpcode = bradOpCall then true else s.dRegWe
        eMemReq := s.dMemReq
        eMemWe := s.dMemWe
        eStoreData := s.dRs2Val } := by
  intro rawOp
  unfold clock clockRegs clockExecute clockDecode clockFetch
  by_cases hcall : s.dOpcode = bradOpCall <;> cases htaken : s.branchTaken <;>
    cases hwe : s.rfWe <;>
    simp [hcall, rawOp]

theorem controlled_clock {s : FalconLite} (h : s.Controlled) (imemRdata dmemRdata : Word) :
    (s.clock imemRdata dmemRdata).Controlled := by
  rw [clock_eq]
  cases htaken : s.branchTaken with
  | true =>
      refine ⟨h.memReq, h.memWe, ?_⟩
      intro hbad
      cases hbad
  | false => exact ⟨rfl, rfl, fun _ => rfl⟩

section Stages

variable {s : System FalconLite}

theorem branchTaken_eq (hplain : s.core.dValid = true → Plain .falconLite (stages s).d) :
    s.core.branchTaken = (stages s).taken := by
  unfold branchTaken retTaken Pipe.taken
  change _ = (s.core.dValid && _)
  cases hvalid : s.core.dValid with
  | false => rfl
  | true =>
      exact (takes_eq (hplain hvalid).ne_call (hplain hvalid).ne_ret s.core.dRs1Val).symm

theorem nextPc_eq (hplain : s.core.dValid = true → Plain .falconLite (stages s).d) :
    s.core.nextPc = s.core.dPc + 4 + s.core.dImm := by
  unfold nextPc retTaken
  rw [if_neg]
  intro hret
  obtain ⟨hvalid, hop⟩ := (Bool.and_eq_true _ _).mp hret
  apply (hplain hvalid).ne_ret
  change BradOp.ofNibble s.core.dOpcode = .ret
  rw [beq_iff_eq.mp hop]
  rfl

theorem regs_cycle (imem : Word → Word) (s : System FalconLite) :
    (cycle imem s).core.rfRdata = commitRegs (stages s).regs (stages s).mem (stages s).wb := by
  unfold cycle stages
  dsimp only
  rw [clock_eq]
  funext r
  cases hwe : s.core.rfWe with
  | false => rfl
  | true =>
      obtain ⟨hrest, hlt⟩ := (Bool.and_eq_true _ _).mp hwe
      obtain ⟨_, hne⟩ := (Bool.and_eq_true _ _).mp hrest
      have hlt : s.core.eRd < falconNumRegs := of_decide_eq_true hlt
      have hne : s.core.eRd ≠ 0 := bne_iff_ne.mp hne
      unfold rfRdata
      dsimp only
      rw [if_pos rfl, if_pos rfl, commitRegs]
      by_cases heq : r = s.core.eRd
      · subst heq
        rw [Function.update_self, Function.update_self, if_neg (by simpa using hlt), if_neg hne]
        unfold rfWdata Source.get
        cases s.core.eMemReq <;> cases s.core.eMemWe <;> rfl
      · rw [Function.update_of_ne heq, Function.update_of_ne heq]

theorem mem_cycle (imem : Word → Word) (s : System FalconLite) :
    (cycle imem s).dmem = commitMem (stages s).mem (stages s).st := by
  unfold cycle stages commitMem
  dsimp only
  cases s.core.eMemReq <;> cases s.core.eMemWe <;> rfl

theorem st_cycle (hcontrolled : s.core.Controlled) (imem : Word → Word) :
    (stages (cycle imem s)).st = (stages s).d.stores (stages s).a (stages s).b := by
  unfold stages cycle
  dsimp only
  rw [clock_eq, stores_eq]
  dsimp only
  rw [hcontrolled.memReq, hcontrolled.memWe]

/-- What the instruction in the decode stage leaves for its register. -/
theorem wb_of_plain (hcontrolled : s.core.Controlled) (hvalid : s.core.dValid = true)
    (hplain : Plain .falconLite (stages s).d) :
    (if s.core.dRegWe && s.core.dRd != 0 && decide (s.core.dRd < falconNumRegs) then
        some (s.core.dRd,
          if s.core.dMemReq && !s.core.dMemWe then Source.load (s.core.dRs1Val + s.core.dImm)
          else .value
            (if s.core.dOpcode ≠ bradOpMul ∧ s.core.dOpcode ≤ bradOpAddi then
              s.core.aluResult else 0))
      else none) =
      (stages s).d.loads (stages s).a (stages s).b := by
  rw [hcontrolled.regWe hvalid, hcontrolled.memReq, hcontrolled.memWe]
  unfold aluResult
  have hn := (BradOp.nibble_ofNibble s.core.dOpcode).symm
  obtain ⟨hcall, hret, hmul, hr0, hhas⟩ := hplain
  unfold stages Fields.loads at *
  dsimp only at *
  generalize BradOp.ofNibble s.core.dOpcode = o at *
  rw [hn]
  cases o with
  | call => exact absurd rfl hcall
  | ret => exact absurd rfl hret
  | mul => exact absurd rfl (hmul rfl)
  | stw | bz | bnz | jmp => rfl
  | add | sub | and | or | xor | addi | ldw =>
      have hne : ¬ s.core.dRd = 0#4 := hr0 trivial
      have hlt : s.core.dRd < falconNumRegs := hhas trivial
      simp [BradOp.nibble, BradOp.toWord, bradOpAdd, bradOpSub, bradOpMul, bradOpAnd, bradOpOr,
        bradOpXor, bradOpShl, bradOpShr, bradOpAddi, bradOpLdw, bradOpStw, hne, hlt, aluExec]
  | shl | shr =>
      have hne : ¬ s.core.dRd = 0#4 := hr0 trivial
      have hlt : s.core.dRd < falconNumRegs := hhas trivial
      have hshift := shiftAmount_eq s.core.dRs2Val
      simp [BradOp.nibble, BradOp.toWord, bradOpAdd, bradOpSub, bradOpMul, bradOpAnd, bradOpOr,
        bradOpXor, bradOpShl, bradOpShr, bradOpAddi, bradOpLdw, bradOpStw, hne, hlt, aluExec,
        BitVec.shiftLeft_eq', BitVec.ushiftRight_eq', hshift]

theorem wb_cycle (hcontrolled : s.core.Controlled)
    (hplain : s.core.dValid = true → Plain .falconLite (stages s).d) (imem : Word → Word) :
    (stages (cycle imem s)).wb =
      if (stages s).dValid && !(stages s).taken then (stages s).d.loads (stages s).a (stages s).b
      else none := by
  rw [← branchTaken_eq hplain]
  unfold stages cycle
  dsimp only
  rw [clock_eq]
  unfold rfWe
  dsimp only
  cases hvalid : s.core.dValid with
  | false => rfl
  | true =>
      have hwb := wb_of_plain hcontrolled hvalid (hplain hvalid)
      have hcall : s.core.dOpcode ≠ bradOpCall := by
        intro hop
        apply (hplain hvalid).ne_call
        change BradOp.ofNibble s.core.dOpcode = .call
        rw [hop]
        rfl
      rw [if_neg hcall, if_neg hcall, if_neg hcall]
      cases htaken : s.core.branchTaken with
      | true => rfl
      | false =>
          simp only [Bool.true_and, Bool.not_false, if_true]
          exact hwb

/-- A clock edge is a cycle of the stages. -/
theorem stages_cycle (hcontrolled : s.core.Controlled)
    (hplain : s.core.dValid = true → Plain .falconLite (stages s).d) (imem : Word → Word) :
    stages (cycle imem s) = (stages s).next imem deliver := by
  have htaken := branchTaken_eq hplain
  apply Pipe.ext
  case regs => exact regs_cycle imem s
  case mem => exact mem_cycle imem s
  case wb => exact wb_cycle hcontrolled hplain imem
  case st => exact st_cycle hcontrolled imem
  all_goals
    unfold Pipe.next
    dsimp only
    rw [← htaken]
    unfold stages cycle
    dsimp only
    rw [clock_eq]
  case pc => rw [nextPc_eq hplain]
  case a => rfl
  case b => rfl
  case d => split_ifs <;> rfl

end Stages

/-! ### The writes of a program -/

/-- The instruction reads what it reads in the sequential execution: the two instructions before it,
which are still under way, have changed none of its registers, and the instruction right before a
taken branch is through. Behind a branch taken there is no store, which the execute stage would
make. -/
structure Undisturbed (imem : Word → Word) (t : Traced) : Prop where
  rs1 : UsesRs1 (t.isa.fields imem).opcode → t.seen (t.isa.fields imem).rs1 = t.isa.a imem
  rs2 : UsesRs2 (t.isa.fields imem).opcode → t.seen (t.isa.fields imem).rs2 = t.isa.b imem
  behind : t.isa.taken imem = true → (fieldsOf (imem (t.isa.core.pc + 4))).opcode ≠ .stw

theorem Undisturbed.passes {imem : Word → Word} {t : Traced} (h : Undisturbed imem t)
    (hmodel : t.isa.core.model = .falconLite) (hplain : Plain .falconLite (t.isa.fields imem)) :
    t.Passes imem deliver := by
  refine ⟨?_, h.rs1, h.rs2, h.behind⟩
  rw [hmodel]
  exact hplain

theorem controlled_reset : reset.Controlled := by
  refine ⟨rfl, rfl, ?_⟩
  intro hbad
  cases hbad

theorem rfRdata_reset : reset.rfRdata = fun _ => 0 := by
  funext r
  unfold rfRdata
  split_ifs <;> rfl

/-- A program of instructions that are undisturbed makes on the core the writes of its sequential
execution. -/
theorem falconLite_commits (imem : Word → Word) (mem : Nat → Byte)
    (hprogram : ∀ k, Plain .falconLite
      (((Isa.next imem)^[k] (Isa.start .falconLite mem)).fields imem))
    (hundisturbed : ∀ k, Undisturbed imem ((Traced.next imem)^[k] (Traced.start .falconLite mem))) :
    SameOutputs (cycle imem) writes (Isa.next imem) (Isa.writes imem) ⟨reset, mem⟩
      (Isa.start .falconLite mem) := by
  let C := fun t : Traced => t.isa.core.model = .falconLite ∧ t.Passes imem deliver
  have hstart : InStages imem (stages ⟨reset, mem⟩) (Traced.start .falconLite mem) := by
    apply inStages_start imem <;> try rfl
    · exact rfRdata_reset.trans (regVal_start .falconLite mem).symm
    · intro hop
      cases hop
  have hC : ∀ k, C ((Traced.next imem)^[k] (Traced.start .falconLite mem)) := by
    intro k
    have hmodel := Traced.model_iterate imem (t := Traced.start .falconLite mem) rfl hprogram k
    have hplain := hprogram k
    rw [show Isa.start .falconLite mem = (Traced.start .falconLite mem).isa from rfl,
      ← Traced.isa_iterate] at hplain
    exact ⟨hmodel, (hundisturbed k).passes hmodel hplain⟩
  apply sameOutputs_of_stages stages (fun s => s.core.Controlled) controlled_reset hstart
    hC fun t h => h.2
  intro s t hcontrolled hstages hC
  have hplain : s.core.dValid = true → Plain .falconLite (stages s).d := by
    intro hvalid
    rw [← (hC 0).1]
    exact hstages.plain (fun k => (hC k).2) hvalid
  exact ⟨stages_cycle hcontrolled hplain imem, controlled_clock hcontrolled _ _, writes_eq s⟩

/-- `ADDI r1, r1, 1` and a jump back to it. -/
def countUp (pc : Word) : Word := if pc = 0 then 0x81100001 else 0xD000FFF8

/-- In front of the addition the jump has let everything through. -/
def Counting (t : Traced) : Prop :=
  t.isa.core.pc = 0 ∧ t.seen = t.isa.core.regVal ∨ t.isa.core.pc = 4

theorem plain_countUp (model : PipelineModel) (pc : Word) :
    Plain model (fieldsOf (countUp pc)) := by
  unfold countUp
  split_ifs
  · refine ⟨by decide, by decide, fun _ => by decide, fun _ => by decide, fun _ => ?_⟩
    cases model <;> decide
  · exact ⟨by decide, by decide, fun _ => by decide, fun h => h.elim, fun h => h.elim⟩

theorem counting_next {t : Traced} (h : Counting t) : Counting (t.next countUp) := by
  have hdoes : t.isa.Does countUp := Isa.does (plain_countUp _ _)
  obtain ⟨hpc, _⟩ | hpc := h
  · have hfields : t.isa.fields countUp = fieldsOf 0x81100001 := by
      rw [Isa.fields, hpc]
      rfl
    right
    have hnext := hdoes.pc
    rw [Isa.taken, hfields, hpc] at hnext
    exact hnext
  · have hfields : t.isa.fields countUp = fieldsOf 0xD000FFF8 := by
      rw [Isa.fields, hpc]
      rfl
    have htaken : t.isa.taken countUp = true := by
      rw [Isa.taken, hfields]
      rfl
    left
    have hnext := hdoes.pc
    rw [if_pos htaken, hfields, hpc] at hnext
    exact ⟨hnext, if_pos htaken⟩

theorem Counting.undisturbed {t : Traced} (h : Counting t) : Undisturbed countUp t := by
  obtain ⟨hpc, hseen⟩ | hpc := h
  · have hfields : t.isa.fields countUp = fieldsOf 0x81100001 := by
      rw [Isa.fields, hpc]
      rfl
    refine ⟨?_, ?_, ?_⟩
    · intro _
      rw [hseen]
      rfl
    · intro hbad
      rw [hfields] at hbad
      exact hbad.elim
    · intro hbad
      rw [Isa.taken, hfields] at hbad
      cases hbad
  · have hfields : t.isa.fields countUp = fieldsOf 0xD000FFF8 := by
      rw [Isa.fields, hpc]
      rfl
    refine ⟨?_, ?_, ?_⟩
    · intro hbad
      rw [hfields] at hbad
      exact absurd rfl hbad.1
    · intro hbad
      rw [hfields] at hbad
      exact hbad.elim
    · intro _
      rw [hpc]
      decide

theorem falconLite_commits_countUp :
    SameOutputs (cycle countUp) writes (Isa.next countUp) (Isa.writes countUp) ⟨reset, fun _ => 0⟩
      (Isa.start .falconLite fun _ => 0) := by
  apply falconLite_commits countUp (fun _ => 0)
  · intro k
    exact plain_countUp _ _
  · intro k
    apply Counting.undisturbed
    induction k with
    | zero => exact .inl ⟨rfl, rfl⟩
    | succ k ih =>
        rw [Function.iterate_succ_apply']
        exact counting_next ih

/-- `ADDI r1, r0, 1`, then `ADDI r2, r1, 1`, and a jump to itself. -/
def twiceAdded (pc : Word) : Word :=
  if pc = 0 then 0x81000001 else if pc = 4 then 0x82100001 else 0xD000FFFC

/-- The second addition reads `r1` before the first has written it. -/
theorem twiceAdded_not_sequential :
    (∀ k, Plain .falconLite
        (((Isa.next twiceAdded)^[k] (Isa.start .falconLite fun _ => 0)).fields twiceAdded)) ∧
      ¬ SameOutputs (cycle twiceAdded) writes (Isa.next twiceAdded) (Isa.writes twiceAdded)
        ⟨reset, fun _ => 0⟩ (Isa.start .falconLite fun _ => 0) := by
  constructor
  · intro k
    unfold Isa.fields twiceAdded
    split_ifs
    · exact ⟨by decide, by decide, fun _ => by decide, fun _ => by decide, fun _ => by decide⟩
    · exact ⟨by decide, by decide, fun _ => by decide, fun _ => by decide, fun _ => by decide⟩
    · exact ⟨by decide, by decide, fun _ => by decide, fun h => h.elim, fun h => h.elim⟩
  · intro hsame
    have hcore : outputs (cycle twiceAdded) writes 5 ⟨reset, fun _ => 0⟩ =
        [.reg 1 1, .reg 2 1] := by
      decide
    have hisa : outputs (Isa.next twiceAdded) (Isa.writes twiceAdded) 2
        (Isa.start .falconLite fun _ => 0) = [.reg 1 1, .reg 2 2] := by
      decide
    have hcomparable := hsame.comparable 5 2
    rw [hcore, hisa] at hcomparable
    revert hcomparable
    decide

end FalconLite

end BradVector.Rtl
