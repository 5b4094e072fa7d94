import BradVector.Proof.FalconLiteRuns

/-!
# The Falcon core

As long as the core does not stall, a clock edge is a cycle of the three stages. The read ports of
the register file are addressed by the instruction in the decode stage, so what an instruction has
read when it comes there are the registers that the word in front of it names. A stall holds the
execute stage as well, and with it its own cause.
-/

namespace BradVector.Rtl

open CSem CoreEmu

theorem Fields.writesRd_of_loads {d : Fields} {a b : Word} {r : BitVec 4} {v : Source}
    (h : d.loads a b = some (r, v)) : WritesRd d.opcode ∧ d.rd = r := by
  unfold Fields.loads at h
  unfold WritesRd
  cases hop : d.opcode with
  | add | sub | mul | and | or | xor | shl | shr | addi | ldw =>
      simp only [hop] at h
      exact ⟨trivial, congrArg Prod.fst (Option.some.inj h)⟩
  | stw | bz | bnz | jmp | call | ret =>
      simp only [hop] at h
      cases h

namespace BradCore

/-! ### The core as three stages -/

/-- What the stages hold. -/
def stages (s : System BradCore) : Pipe where
  regs := regfileRdata s.core.regs
  mem := s.dmem
  pc := s.core.pc
  fValid := s.core.fValid
  fPc := s.core.fPc
  fInsn := s.core.fInsn
  dValid := s.core.dValid
  dPc := s.core.dPc
  d := ⟨.ofNibble s.core.dOpcode, s.core.dRd, s.core.dRs1, s.core.dRs2, s.core.dImm⟩
  a := s.core.dRs1Val
  b := s.core.dRs2Val
  eValid := s.core.eValid
  wb :=
    if s.core.rfWe then
      some (s.core.eRd,
        if s.core.eMemReq && !s.core.eMemWe then .load s.core.eAddr else .value s.core.eResult)
    else none
  st := if s.core.eMemReq && s.core.eMemWe then some (s.core.eAddr, s.core.eStoreData) else none

/-- The instruction in front names the registers that are read, the second only if it is a store. -/
def deliver : Deliver := fun front regs _ =>
  (regs front.rs1, regs (if front.opcode = .stw then front.rs2 else 0))

/-- The write enable of the decode stage is that of its opcode. -/
def Controlled (s : BradCore) : Prop :=
  s.dValid = true → s.dRegWe = (decide (s.dOpcode ≤ bradOpAddi) || s.dOpcode == bradOpLdw)

theorem writes_eq (s : System BradCore) : writes s = (stages s).writes := by
  unfold writes Pipe.writes commitWrites stages rfWdata
  dsimp only
  cases s.core.rfWe <;> cases s.core.eMemReq <;> cases s.core.eMemWe <;> rfl

/-- All registers after a clock edge without a stall. -/
theorem clock_eq {s : BradCore} (hstall : s.stall = false) (imemRdata dmemRdata : Word) :
    let rawOp := s.fInsn.extractLsb' 28 4
    s.clock imemRdata dmemRdata =
      { regs := regfileClock s.regs s.rfWe s.eRd (s.rfWdata dmemRdata)
        pc := if s.branchTaken then s.nextPc else s.pc + 4
        fValid := !s.branchTaken
        fPc := if s.branchTaken then s.fPc else s.pc
        fInsn := if s.branchTaken then s.fInsn else imemRdata
        dValid := !s.branchTaken && s.fValid
        dPc := if s.branchTaken then s.dPc else s.fPc
        dOpcode := if s.branchTaken then s.dOpcode else rawOp
        dRd := if s.branchTaken then s.dRd else s.fInsn.extractLsb' 24 4
        dRs1 := if s.branchTaken then s.dRs1 else s.fInsn.extractLsb' 20 4
        dRs2 := if s.branchTaken then s.dRs2 else s.fInsn.extractLsb' 16 4
        dRs1Val := if s.branchTaken then s.dRs1Val else s.rfRdata1
        dRs2Val := if s.branchTaken then s.dRs2Val else s.rfRdata2
        dImm := if s.branchTaken then s.dImm else (s.fInsn.extractLsb' 0 16).signExtend 32
        dRegWe :=
          if s.branchTaken then s.dRegWe else decide (rawOp ≤ bradOpAddi) || rawOp == bradOpLdw
        eValid := s.dValid && !s.branchTaken
        eRd := if s.dOpcode = bradOpCall then bradLr else s.dRd
        eResult :=
          if s.dOpcode = bradOpCall then s.dPc + 4
          else if s.dOpcode ≤ bradOpShr then s.aluResult
          else if s.dOpcode = bradOpAddi then s.dRs1Val + s.dImm
          else 0
        eAddr := s.dRs1Val + s.dImm
        eRegWe := if s.dOpcode = bradOpCall then true else s.dRegWe
        eMemReq := s.dOpcode == bradOpLdw || s.dOpcode == bradOpStw
        eMemWe := s.dOpcode == bradOpStw
        eStoreData := s.dRs2Val } := by
  intro rawOp
  unfold clock clockExecute clockDecode clockFetch
  by_cases hcall : s.dOpcode = bradOpCall <;> cases htaken : s.branchTaken <;>
    simp [hcall, hstall, rawOp]

theorem controlled_clock {s : BradCore} (hstall : s.stall = false)
    (imemRdata dmemRdata : Word) : (s.clock imemRdata dmemRdata).Controlled := by
  rw [clock_eq hstall]
  unfold Controlled
  cases htaken : s.branchTaken with
  | true =>
      intro hbad
      cases hbad
  | false => exact fun _ => rfl

/-- The second read port. -/
theorem rfRdata2_eq (s : BradCore) :
    s.rfRdata2 =
      regfileRdata s.regs (if BradOp.ofNibble s.dOpcode = .stw then s.dRs2 else 0) := by
  have hstw : BradOp.ofNibble s.dOpcode = .stw ↔ s.dOpcode = bradOpStw := by
    generalize s.dOpcode = op
    revert op
    decide
  unfold rfRdata2 rfRaddr2
  rw [if_congr hstw rfl rfl]

section Stages

variable {s : System BradCore}

theorem branchTaken_eq (hplain : s.core.dValid = true → Plain .falcon (stages s).d) :
    s.core.branchTaken = (stages s).taken := by
  unfold branchTaken retTaken Pipe.taken
  change (s.core.dValid && _) = (s.core.dValid && _)
  cases hvalid : s.core.dValid with
  | false => rfl
  | true =>
      rw [Bool.true_and, Bool.true_and]
      exact (takes_eq (hplain hvalid).ne_call (hplain hvalid).ne_ret s.core.dRs1Val).symm

theorem nextPc_eq (hplain : s.core.dValid = true → Plain .falcon (stages s).d)
    (htaken : s.core.branchTaken = true) : s.core.nextPc = s.core.dPc + 4 + s.core.dImm := by
  obtain ⟨hvalid, _⟩ := (Bool.and_eq_true _ _).mp htaken
  unfold nextPc
  rw [if_neg]
  intro hop
  apply (hplain hvalid).ne_ret
  change BradOp.ofNibble s.core.dOpcode = .ret
  rw [beq_iff_eq.mp hop]
  rfl

theorem regs_cycle (hstall : s.core.stall = false) (imem : Word → Word) :
    regfileRdata (cycle imem s).core.regs = commitRegs (stages s).regs (stages s).mem
      (stages s).wb := by
  unfold cycle stages
  dsimp only
  rw [clock_eq hstall]
  funext r
  cases hwe : s.core.rfWe with
  | false => rfl
  | true =>
      obtain ⟨_, hne⟩ := (Bool.and_eq_true _ _).mp hwe
      have hne : s.core.eRd ≠ bradR0 := bne_iff_ne.mp hne
      unfold regfileClock
      rw [if_pos (by simpa using hne), if_pos rfl, commitRegs]
      unfold regfileRdata
      dsimp only
      by_cases heq : r = s.core.eRd
      · subst heq
        rw [Function.update_self, Function.update_self, if_neg hne]
        unfold rfWdata Source.get
        cases s.core.eMemReq <;> cases s.core.eMemWe <;> rfl
      · rw [Function.update_of_ne heq, Function.update_of_ne heq]

theorem mem_cycle (imem : Word → Word) (s : System BradCore) :
    (cycle imem s).dmem = commitMem (stages s).mem (stages s).st := by
  unfold cycle stages commitMem
  dsimp only
  cases s.core.eMemReq <;> cases s.core.eMemWe <;> rfl

theorem st_cycle (hstall : s.core.stall = false) (imem : Word → Word) :
    (stages (cycle imem s)).st = (stages s).d.stores (stages s).a (stages s).b := by
  unfold stages cycle
  dsimp only
  rw [clock_eq hstall, stores_eq]

/-- What the instruction in the decode stage leaves for its register. -/
theorem wb_of_plain (hcontrolled : s.core.Controlled) (hvalid : s.core.dValid = true)
    (hplain : Plain .falcon (stages s).d) :
    (if s.core.dRegWe && s.core.dRd != bradR0 then
        some (s.core.dRd,
          if (s.core.dOpcode == bradOpLdw || s.core.dOpcode == bradOpStw) &&
            !(s.core.dOpcode == bradOpStw)
          then Source.load (s.core.dRs1Val + s.core.dImm)
          else .value
            (if s.core.dOpcode ≤ bradOpShr then s.core.aluResult
            else if s.core.dOpcode = bradOpAddi then s.core.dRs1Val + s.core.dImm
            else 0))
      else none) =
      (stages s).d.loads (stages s).a (stages s).b := by
  rw [hcontrolled hvalid]
  unfold aluResult
  have hn := (BradOp.nibble_ofNibble s.core.dOpcode).symm
  obtain ⟨hcall, hret, _, hr0, _⟩ := hplain
  unfold stages Fields.loads at *
  dsimp only at *
  generalize BradOp.ofNibble s.core.dOpcode = o at *
  rw [hn]
  cases o with
  | call => exact absurd rfl hcall
  | ret => exact absurd rfl hret
  | stw | bz | bnz | jmp => rfl
  | add | sub | mul | and | or | xor | addi | ldw =>
      have hne : ¬ s.core.dRd = 0#4 := hr0 trivial
      simp [BradOp.nibble, BradOp.toWord, bradOpAdd, bradOpSub, bradOpMul, bradOpAnd, bradOpOr,
        bradOpXor, bradOpShr, bradOpAddi, bradOpLdw, bradOpStw, bradR0, hne, aluExec]
  | shl | shr =>
      have hne : ¬ s.core.dRd = 0#4 := hr0 trivial
      have hshift := shiftAmount_eq s.core.dRs2Val
      simp [BradOp.nibble, BradOp.toWord, bradOpAdd, bradOpSub, bradOpMul, bradOpAnd, bradOpOr,
        bradOpXor, bradOpShl, bradOpShr, bradOpAddi, bradOpLdw, bradOpStw, bradR0, hne, aluExec,
        BitVec.shiftLeft_eq', BitVec.ushiftRight_eq', hshift]

theorem wb_cycle (hcontrolled : s.core.Controlled) (hstall : s.core.stall = false)
    (hplain : s.core.dValid = true → Plain .falcon (stages s).d) (imem : Word → Word) :
    (stages (cycle imem s)).wb =
      if (stages s).dValid && !(stages s).taken then (stages s).d.loads (stages s).a (stages s).b
      else none := by
  rw [← branchTaken_eq hplain]
  unfold stages cycle
  dsimp only
  rw [clock_eq hstall]
  unfold rfWe
  dsimp only
  cases hvalid : s.core.dValid with
  | false => rfl
  | true =>
      have hwb := wb_of_plain hcontrolled hvalid (hplain hvalid)
      have hcall : s.core.dOpcode ≠ bradOpCall := by
        intro hop
        apply (hplain hvalid).ne_call
        change BradOp.ofNibble s.core.dOpcode = .call
        rw [hop]
        rfl
      rw [if_neg hcall, if_neg hcall, if_neg hcall]
      cases htaken : s.core.branchTaken with
      | true => rfl
      | false =>
          simp only [Bool.true_and, Bool.not_false, if_true]
          exact hwb

/-- A clock edge without a stall is a cycle of the stages. -/
theorem stages_cycle (hcontrolled : s.core.Controlled) (hstall : s.core.stall = false)
    (hplain : s.core.dValid = true → Plain .falcon (stages s).d) (imem : Word → Word) :
    stages (cycle imem s) = (stages s).next imem deliver := by
  have htaken := branchTaken_eq hplain
  apply Pipe.ext
  case regs => exact regs_cycle hstall imem
  case mem => exact mem_cycle imem s
  case wb => exact wb_cycle hcontrolled hstall hplain imem
  case st => exact st_cycle hstall imem
  all_goals
    unfold Pipe.next
    dsimp only
    rw [← htaken]
    unfold stages cycle
    dsimp only
    rw [clock_eq hstall]
  case pc =>
    cases hbranch : s.core.branchTaken with
    | true => rw [nextPc_eq hplain hbranch]
    | false => rfl
  case d => split_ifs <;> rfl
  case a => rfl
  case b =>
    rw [rfRdata2_eq]
    rfl

end Stages

/-! ### The writes of a program -/

/-- The instruction that is executed behind this one does not wait for its result: it names the
result's register neither first, whether it reads it or not, nor as the word it stores. -/
def NoWait (imem : Word → Word) (t : Traced) : Prop :=
  let behind := (t.next imem).isa.fields imem
  WritesRd (t.isa.fields imem).opcode →
    behind.rs1 ≠ (t.isa.fields imem).rd ∧
      (behind.opcode = .stw → behind.rs2 ≠ (t.isa.fields imem).rd)

/-- The instruction reads what it reads in the sequential execution, through the registers that the
word in front of it names, and the one behind it does not wait for it. It is no call, the core never
writes the link register. Behind a branch taken there is no store, which the execute stage would
make. -/
structure Undisturbed (imem : Word → Word) (t : Traced) : Prop where
  ne_call : (t.isa.fields imem).opcode ≠ .call
  rs1 : UsesRs1 (t.isa.fields imem).opcode → t.seen (fieldsOf t.shadow).rs1 = t.isa.a imem
  rs2 : UsesRs2 (t.isa.fields imem).opcode →
    t.seen (if (fieldsOf t.shadow).opcode = .stw then (fieldsOf t.shadow).rs2 else 0) = t.isa.b imem
  behind : t.isa.taken imem = true → (fieldsOf (imem (t.isa.core.pc + 4))).opcode ≠ .stw
  noWait : NoWait imem t

/-- An instruction that does not write `r0`, and no `RET`. -/
def Allowed (d : Fields) : Prop := d.opcode ≠ .ret ∧ (WritesRd d.opcode → d.rd ≠ 0)

theorem Undisturbed.plain {imem : Word → Word} {t : Traced} (h : Undisturbed imem t)
    (hallowed : Allowed (t.isa.fields imem)) : Plain .falcon (t.isa.fields imem) := by
  obtain ⟨hret, hr0⟩ := hallowed
  refine ⟨h.ne_call, hret, ?_, hr0, fun _ => (t.isa.fields imem).rd.isLt⟩
  intro hbad
  cases hbad

/-- Between the instructions of the sequential execution the core never stalls. -/
theorem not_stall {imem : Word → Word} {s : System BradCore} {t : Traced}
    (hstages : InStages imem (stages s) t) (hnoWait : NoWait imem t) : s.core.stall = false := by
  by_contra hne
  have hstall : s.core.rawHazard = true := Bool.eq_true_of_not_eq_false hne
  unfold rawHazard at hstall
  simp only [Bool.and_eq_true, Bool.or_eq_true, beq_iff_eq, bne_iff_ne] at hstall
  obtain ⟨⟨⟨⟨hvalid, hexecuting⟩, hregWe⟩, hr0⟩, hhazard⟩ := hstall
  have hrfWe : s.core.rfWe = true := by
    unfold rfWe
    rw [hexecuting, hregWe, bne_iff_ne.mpr hr0]
    rfl
  obtain ⟨hwb, _⟩ := hstages.executing hexecuting
  have hdecoding := hstages.decoding
  rw [show (stages s).eValid = true from hexecuting, if_pos rfl] at hdecoding
  obtain ⟨_, hd, _⟩ := hdecoding.valid hvalid
  obtain ⟨hwrites, hrd⟩ := Fields.writesRd_of_loads (hwb.symm.trans (if_pos hrfWe))
  obtain ⟨hrs1, hrs2⟩ := hnoWait hwrites
  rw [← hd, hrd] at hrs1 hrs2
  obtain hfirst | ⟨hop, hsecond⟩ := hhazard
  · exact hrs1 hfirst
  · apply hrs2 _ hsecond
    change BradOp.ofNibble s.core.dOpcode = .stw
    rw [hop]
    rfl

/-- The stages keep what they hold while the core stalls, the execute stage with them. -/
theorem stall_cycle {s : System BradCore} (hstall : s.core.stall = true)
    (htaken : s.core.branchTaken = false) (imem : Word → Word) :
    (cycle imem s).core.stall = true ∧ (cycle imem s).core.branchTaken = false := by
  have hcore : (cycle imem s).core =
      { s.core with
        regs := regfileClock s.core.regs s.core.rfWe s.core.eRd
          (s.core.rfWdata (wordAt s.dmem s.core.eAddr.toNat)) } := by
    unfold cycle clock clockExecute clockDecode clockFetch
    simp [hstall, htaken]
  rw [hcore]
  exact ⟨hstall, htaken⟩

/-- A stall never ends, unless what waits is a branch that is taken. -/
theorem stall_iterate {imem : Word → Word} {s : System BradCore} (hstall : s.core.stall = true)
    (htaken : s.core.branchTaken = false) (n : Nat) :
    ((cycle imem)^[n] s).core.stall = true ∧ ((cycle imem)^[n] s).core.branchTaken = false := by
  induction n with
  | zero => exact ⟨hstall, htaken⟩
  | succ n ih =>
      rw [Function.iterate_succ_apply']
      exact stall_cycle ih.1 ih.2 imem

theorem regfileRdata_reset : regfileRdata reset.regs = fun _ => 0 := by
  funext r
  unfold regfileRdata
  split_ifs <;> rfl

/-- A program of instructions that are undisturbed makes on the core the writes of its sequential
execution. -/
theorem bradCore_commits (imem : Word → Word) (mem : Nat → Byte)
    (hprogram : ∀ k, Allowed (((Isa.next imem)^[k] (Isa.start .falcon mem)).fields imem))
    (hundisturbed : ∀ k, Undisturbed imem ((Traced.next imem)^[k] (Traced.start .falcon mem))) :
    SameOutputs (cycle imem) writes (Isa.next imem) (Isa.writes imem) ⟨reset, mem⟩
      (Isa.start .falcon mem) := by
  let C := fun t : Traced => t.isa.core.model = .falcon ∧ t.Passes imem deliver ∧ NoWait imem t
  have hstart : InStages imem (stages ⟨reset, mem⟩) (Traced.start .falcon mem) := by
    apply inStages_start imem <;> try rfl
    · exact regfileRdata_reset.trans (regVal_start .falcon mem).symm
    · intro hop
      cases hop
  have hplain : ∀ k, Plain .falcon (((Isa.next imem)^[k] (Isa.start .falcon mem)).fields imem) := by
    intro k
    have hallowed := hprogram k
    rw [show Isa.start .falcon mem = (Traced.start .falcon mem).isa from rfl, ← Traced.isa_iterate]
      at hallowed ⊢
    exact (hundisturbed k).plain hallowed
  have hC : ∀ k, C ((Traced.next imem)^[k] (Traced.start .falcon mem)) := by
    intro k
    have hmodel := Traced.model_iterate imem (t := Traced.start .falcon mem) rfl hplain k
    obtain ⟨_, hrs1, hrs2, hbehind, hnoWait⟩ := hundisturbed k
    refine ⟨hmodel, ⟨?_, hrs1, hrs2, hbehind⟩, hnoWait⟩
    rw [hmodel, Traced.isa_iterate]
    exact hplain k
  apply sameOutputs_of_stages stages (fun s => s.core.Controlled) _ hstart hC
    fun t h => h.2.1
  · intro s t hcontrolled hstages hC
    have hstall := not_stall hstages (hC 0).2.2
    have hplain : s.core.dValid = true → Plain .falcon (stages s).d := by
      intro hvalid
      rw [← (hC 0).1]
      exact hstages.plain (fun k => (hC k).2.1) hvalid
    exact ⟨stages_cycle hcontrolled hstall hplain imem, controlled_clock hstall _ _, writes_eq s⟩
  · intro hbad
    cases hbad

/-- `ADDI r1, r1, 1` and a jump back to it. Behind the jump is a word that names `r1`. -/
def countUp (pc : Word) : Word :=
  if pc = 0 then 0x81100001 else if pc = 4 then 0xD000FFF8 else 0x03100000

/-- In front of the addition the register that is read for it has the value of `r1`. -/
def Counting (t : Traced) : Prop :=
  t.isa.core.pc = 0 ∧ t.seen (fieldsOf t.shadow).rs1 = t.isa.core.regVal 1 ∨ t.isa.core.pc = 4

theorem allowed_countUp (pc : Word) : Allowed (fieldsOf (countUp pc)) := by
  unfold countUp
  split_ifs
  · exact ⟨by decide, fun _ => by decide⟩
  · exact ⟨by decide, fun hbad => hbad.elim⟩
  · exact ⟨by decide, fun _ => by decide⟩

theorem does_countUp {q : Isa} (hmodel : q.core.model = .falcon) : q.Does countUp := by
  apply Isa.does
  rw [hmodel]
  have hne : (q.fields countUp).opcode ≠ .call := by
    unfold Isa.fields countUp
    split_ifs <;> decide
  obtain ⟨hret, hr0⟩ := allowed_countUp q.core.pc
  exact ⟨hne, hret, nofun, hr0, fun _ => (q.fields countUp).rd.isLt⟩

theorem counting_next {t : Traced} (hmodel : t.isa.core.model = .falcon) (h : Counting t) :
    (t.next countUp).isa.core.model = .falcon ∧ Counting (t.next countUp) := by
  have hdoes := does_countUp hmodel
  refine ⟨hdoes.model.trans hmodel, ?_⟩
  obtain ⟨hpc, _⟩ | hpc := h
  · have hfields : t.isa.fields countUp = fieldsOf 0x81100001 := by
      rw [Isa.fields, hpc]
      rfl
    right
    have hnext := hdoes.pc
    rw [Isa.taken, hfields, hpc] at hnext
    exact hnext
  · have hfields : t.isa.fields countUp = fieldsOf 0xD000FFF8 := by
      rw [Isa.fields, hpc]
      rfl
    have htaken : t.isa.taken countUp = true := by
      rw [Isa.taken, hfields]
      rfl
    left
    have hnext := hdoes.pc
    rw [if_pos htaken, hfields, hpc] at hnext
    refine ⟨hnext, ?_⟩
    unfold Traced.next
    dsimp only
    rw [if_pos htaken, if_pos htaken, hpc]
    rfl

theorem Counting.undisturbed {t : Traced} (hmodel : t.isa.core.model = .falcon) (h : Counting t) :
    Undisturbed countUp t := by
  have hdoes := does_countUp hmodel
  obtain ⟨hpc, hseen⟩ | hpc := h
  · have hfields : t.isa.fields countUp = fieldsOf 0x81100001 := by
      rw [Isa.fields, hpc]
      rfl
    have hnext := hdoes.pc
    rw [Isa.taken, hfields, hpc] at hnext
    have hbehind : (t.next countUp).isa.fields countUp = fieldsOf 0xD000FFF8 := by
      rw [Isa.fields, Traced.next]
      dsimp only
      rw [hnext]
      rfl
    refine ⟨?_, ?_, ?_, ?_, ?_⟩
    · rw [hfields]
      decide
    · intro _
      rw [hseen, Isa.a, hfields]
      rfl
    · intro hbad
      rw [hfields] at hbad
      exact hbad.elim
    · intro hbad
      rw [Isa.taken, hfields] at hbad
      cases hbad
    · unfold NoWait
      rw [hfields, hbehind]
      dsimp only
      intro _
      refine ⟨by decide, ?_⟩
      intro hbad
      cases hbad
  · have hfields : t.isa.fields countUp = fieldsOf 0xD000FFF8 := by
      rw [Isa.fields, hpc]
      rfl
    refine ⟨?_, ?_, ?_, ?_, ?_⟩
    · rw [hfields]
      decide
    · intro hbad
      rw [hfields] at hbad
      exact absurd rfl hbad.1
    · intro hbad
      rw [hfields] at hbad
      exact hbad.elim
    · intro _
      rw [hpc]
      decide
    · unfold NoWait
      rw [hfields]
      exact fun hbad => hbad.elim

theorem bradCore_commits_countUp :
    SameOutputs (cycle countUp) writes (Isa.next countUp) (Isa.writes countUp) ⟨reset, fun _ => 0⟩
      (Isa.start .falcon fun _ => 0) := by
  have hcounting : ∀ k, ((Traced.next countUp)^[k] (Traced.start .falcon fun _ =>
      0)).isa.core.model = .falcon ∧
      Counting ((Traced.next countUp)^[k] (Traced.start .falcon fun _ => 0)) := by
    intro k
    induction k with
    | zero => exact ⟨rfl, .inl ⟨rfl, rfl⟩⟩
    | succ k ih =>
        rw [Function.iterate_succ_apply']
        exact counting_next ih.1 ih.2
  apply bradCore_commits countUp (fun _ => 0)
  · intro k
    exact allowed_countUp _
  · intro k
    exact (hcounting k).2.undisturbed (hcounting k).1

/-- `ADDI r1, r0, 5`, three times `ADDI r2, r0, 0`, then `ADD r3, r1, r0`, and a jump to itself. -/
def copyLate (pc : Word) : Word :=
  if pc = 0 then 0x81000005 else if pc < 16 then 0x82000000 else if pc = 16 then 0x03100000
    else 0xD000FFFC

/-- What comes to the addition for `r1` is `r0`, which the instruction in front of it names. -/
theorem copyLate_not_sequential :
    (∀ k, Allowed (((Isa.next copyLate)^[k] (Isa.start .falcon fun _ => 0)).fields copyLate)) ∧
      ¬ SameOutputs (cycle copyLate) writes (Isa.next copyLate) (Isa.writes copyLate)
        ⟨reset, fun _ => 0⟩ (Isa.start .falcon fun _ => 0) := by
  constructor
  · intro k
    unfold Isa.fields copyLate
    split_ifs
    · exact ⟨by decide, fun _ => by decide⟩
    · exact ⟨by decide, fun _ => by decide⟩
    · exact ⟨by decide, fun _ => by decide⟩
    · exact ⟨by decide, fun hbad => hbad.elim⟩
  · intro hsame
    have hcore : outputs (cycle copyLate) writes 8 ⟨reset, fun _ => 0⟩ =
        [.reg 1 5, .reg 2 0, .reg 2 0, .reg 2 0, .reg 3 0] := by
      decide
    have hisa : outputs (Isa.next copyLate) (Isa.writes copyLate) 5 (Isa.start .falcon fun _ => 0) =
        [.reg 1 5, .reg 2 0, .reg 2 0, .reg 2 0, .reg 3 5] := by
      decide
    have hcomparable := hsame.comparable 8 5
    rw [hcore, hisa] at hcomparable
    revert hcomparable
    decide

end BradCore

end BradVector.Rtl
