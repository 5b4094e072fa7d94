import BradVector.Proof.Encodings
import BradVector.Proof.IsaRuns

/-!
# Three stages in order

What both Verilog cores are as long as nothing stalls: a fetch, a decode and an execute stage, each
taking over what the one before it holds. The operands reach the decode stage while the two
instructions before are still under way, and a branch leaves behind it a word that was fetched for
nothing; whether the stages then make the writes of the sequential execution depends on those two.
-/

namespace BradVector.Rtl

open CSem CoreEmu

/-! ### The stages -/

/-- Three stages. The execute stage makes the store it holds even if its instruction is not
valid. -/
@[ext]
structure Pipe where
  regs : BitVec 4 → Word
  mem : Nat → Byte
  pc : Word
  fValid : Bool
  fPc : Word
  fInsn : Word
  dValid : Bool
  dPc : Word
  d : Fields
  a : Word
  b : Word
  eValid : Bool
  wb : Option (BitVec 4 × Source)
  st : Option (Word × Word)

/-- How operands are delivered: from the instruction in front and the registers, those of an
instruction. -/
abbrev Deliver := Fields → (BitVec 4 → Word) → Fields → Word × Word

namespace Pipe

variable (imem : Word → Word) (deliver : Deliver)

def taken (p : Pipe) : Bool := p.dValid && p.d.takes p.a

def writes (p : Pipe) : List Write := commitWrites p.mem p.wb p.st

/-- A cycle. -/
def next (p : Pipe) : Pipe where
  regs := commitRegs p.regs p.mem p.wb
  mem := commitMem p.mem p.st
  pc := if p.taken then p.dPc + 4 + p.d.imm else p.pc + 4
  fValid := !p.taken
  fPc := if p.taken then p.fPc else p.pc
  fInsn := if p.taken then p.fInsn else imem p.pc
  dValid := !p.taken && p.fValid
  dPc := if p.taken then p.dPc else p.fPc
  d := if p.taken then p.d else fieldsOf p.fInsn
  a := if p.taken then p.a else (deliver p.d p.regs (fieldsOf p.fInsn)).1
  b := if p.taken then p.b else (deliver p.d p.regs (fieldsOf p.fInsn)).2
  eValid := p.dValid && !p.taken
  wb := if p.dValid && !p.taken then p.d.loads p.a p.b else none
  st := p.d.stores p.a p.b

/-- How many cycles the oldest instruction is from the execute stage. -/
def distance (p : Pipe) : Nat :=
  if p.eValid then 0 else if p.dValid then 1 else if p.fValid then 2 else 3

section

variable {imem deliver} {p : Pipe}

theorem taken_of_invalid (h : p.dValid = false) : p.taken = false := by
  rw [taken, h, Bool.false_and]

theorem next_of_taken (h : p.taken = true) :
    p.next imem deliver =
      { p with
        regs := commitRegs p.regs p.mem p.wb
        mem := commitMem p.mem p.st
        pc := p.dPc + 4 + p.d.imm
        fValid := false
        dValid := false
        eValid := false
        wb := none
        st := p.d.stores p.a p.b } := by
  unfold next
  simp only [h, if_true, Bool.not_true, Bool.false_and, Bool.and_false, Bool.false_eq_true,
    if_false]

theorem next_of_not_taken (h : p.taken = false) :
    p.next imem deliver =
      { regs := commitRegs p.regs p.mem p.wb
        mem := commitMem p.mem p.st
        pc := p.pc + 4
        fValid := true
        fPc := p.pc
        fInsn := imem p.pc
        dValid := p.fValid
        dPc := p.fPc
        d := fieldsOf p.fInsn
        a := (deliver p.d p.regs (fieldsOf p.fInsn)).1
        b := (deliver p.d p.regs (fieldsOf p.fInsn)).2
        eValid := p.dValid
        wb := if p.dValid then p.d.loads p.a p.b else none
        st := p.d.stores p.a p.b } := by
  unfold next
  simp only [h, if_false, Bool.not_false, Bool.true_and, Bool.and_true, Bool.false_eq_true]

end

end Pipe

/-! ### What the stages see of a run -/

/-- A sequential execution, with what a pipeline would see of it at the next instruction: the
registers before the last instruction, the registers that the next one finds when it is decoded, and
the word that was in the decode stage in front of it. -/
structure Traced where
  isa : Isa
  before : BitVec 4 → Word
  seen : BitVec 4 → Word
  shadow : Word

namespace Traced

variable (imem : Word → Word) (deliver : Deliver)

/-- The start: the reset leaves a word 0 in front. -/
def start (model : PipelineModel) (mem : Nat → Byte) : Traced :=
  let isa := Isa.start model mem
  ⟨isa, isa.core.regVal, isa.core.regVal, 0⟩

/-- Behind a branch taken everything before it has been written, and the word in memory behind the
branch comes in between; else the last two instructions are still under way. -/
def next (t : Traced) : Traced where
  isa := t.isa.next imem
  before := t.isa.core.regVal
  seen := if t.isa.taken imem then (t.isa.next imem).core.regVal else t.before
  shadow := if t.isa.taken imem then imem (t.isa.core.pc + 4) else imem t.isa.core.pc

def writes (t : Traced) : List Write := t.isa.writes imem

/-- The instruction comes through the stages as in the sequential execution: it is a plain one, the
operands it uses are those of the sequential execution, and behind it, if it branches, there is no
store. -/
structure Passes (t : Traced) : Prop where
  plain : Plain t.isa.core.model (t.isa.fields imem)
  rs1 : UsesRs1 (t.isa.fields imem).opcode →
    (deliver (fieldsOf t.shadow) t.seen (t.isa.fields imem)).1 = t.isa.a imem
  rs2 : UsesRs2 (t.isa.fields imem).opcode →
    (deliver (fieldsOf t.shadow) t.seen (t.isa.fields imem)).2 = t.isa.b imem
  behind : t.isa.taken imem = true → (fieldsOf (imem (t.isa.core.pc + 4))).opcode ≠ .stw

theorem isa_iterate (n : Nat) (t : Traced) : ((next imem)^[n] t).isa =
    (Isa.next imem)^[n] t.isa := by
  induction n generalizing t with
  | zero => rfl
  | succ n ih => rw [Function.iterate_succ_apply, ih, Function.iterate_succ_apply, next]

theorem outputs_eq (n : Nat) (t : Traced) :
    outputs (next imem) (writes imem) n t = outputs (Isa.next imem) (Isa.writes imem) n t.isa := by
  induction n generalizing t with
  | zero => rfl
  | succ n ih =>
      rw [outputs, outputs, ih]
      rfl

/-- Plain instructions leave the model as it is. -/
theorem model_iterate {model : PipelineModel} {t : Traced} (hmodel : t.isa.core.model = model)
    (hplain : ∀ k, Plain model (((Isa.next imem)^[k] t.isa).fields imem)) (n : Nat) :
    ((next imem)^[n] t).isa.core.model = model := by
  rw [isa_iterate]
  induction n with
  | zero => exact hmodel
  | succ n ih =>
      have hdoes := Isa.does (ih.symm ▸ hplain n)
      rw [Function.iterate_succ_apply']
      exact hdoes.model.trans ih

end Traced

/-! ### The stages and the sequential execution -/

/-- The decode and the fetch stage, when the sequential execution comes to `u` behind what is in the
execute stage. -/
structure Decoding (imem : Word → Word) (p : Pipe) (u : Traced) : Prop where
  valid : p.dValid = true → p.dPc = u.isa.core.pc ∧ p.d = u.isa.fields imem ∧
    (UsesRs1 p.d.opcode → p.a = u.isa.a imem) ∧ (UsesRs2 p.d.opcode → p.b = u.isa.b imem)
  bubble : p.dValid = false → p.eValid = false ∧ p.d.opcode ≠ .stw ∧ u.seen = u.isa.core.regVal ∧
    (p.fValid = true → p.d = fieldsOf u.shadow)
  fetched : p.fValid = true →
    let addr := if p.dValid then u.isa.core.pc + 4 else u.isa.core.pc
    p.fPc = addr ∧ p.fInsn = imem addr ∧ p.pc = addr + 4
  fetching : p.fValid = false → p.dValid = false ∧ p.pc = u.isa.core.pc ∧
    (fieldsOf p.fInsn).opcode ≠ .stw ∧ p.fInsn = u.shadow

/-- The execute stage holds the instruction the sequential execution comes to, and the other stages
those behind it. -/
structure InStages (imem : Word → Word) (p : Pipe) (t : Traced) : Prop where
  regs : p.regs = t.isa.core.regVal
  mem : p.mem = t.isa.mem
  executing : p.eValid = true →
    p.wb = (t.isa.fields imem).loads (t.isa.a imem) (t.isa.b imem) ∧
      p.st = (t.isa.fields imem).stores (t.isa.a imem) (t.isa.b imem) ∧ t.isa.taken imem = false
  idle : p.eValid = false → p.wb = none ∧ p.st = none ∧ t.before = t.isa.core.regVal
  decoding : Decoding imem p (if p.eValid then t.next imem else t)

section Step

variable {imem : Word → Word} {deliver : Deliver} {p : Pipe} {t u : Traced}

/-- The execute stage has made its writes, and the sequential execution has come to `u`. -/
structure Committed (p : Pipe) (u : Traced) : Prop where
  regs : commitRegs p.regs p.mem p.wb = u.isa.core.regVal
  mem : commitMem p.mem p.st = u.isa.mem
  before : u.before = p.regs

theorem InStages.commit (h : InStages imem p t)
    (hplain : Plain t.isa.core.model (t.isa.fields imem)) :
    let j := if p.eValid then 1 else 0
    Committed p ((Traced.next imem)^[j] t) ∧ Decoding imem p ((Traced.next imem)^[j] t) ∧
      p.writes = outputs (Traced.next imem) (Traced.writes imem) j t := by
  cases hvalid : p.eValid with
  | true =>
      have hdoes := Isa.does hplain
      obtain ⟨hwb, hst, _⟩ := h.executing hvalid
      have hdecoding := h.decoding
      rw [if_pos hvalid] at hdecoding
      refine ⟨⟨?_, ?_, h.regs.symm⟩, hdecoding, ?_⟩
      · rw [h.regs, h.mem, hwb]
        exact hdoes.regs.symm
      · rw [h.mem, hst]
        exact hdoes.mem.symm
      · rw [Pipe.writes, h.mem, hwb, hst]
        exact hdoes.writes.symm.trans (List.append_nil _).symm
  | false =>
      obtain ⟨hwb, hst, hbefore⟩ := h.idle hvalid
      have hdecoding := h.decoding
      rw [hvalid] at hdecoding
      refine ⟨⟨?_, ?_, ?_⟩, hdecoding, ?_⟩
      · rw [hwb]
        exact h.regs
      · rw [hst]
        exact h.mem
      · exact hbefore.trans h.regs.symm
      · rw [Pipe.writes, hwb, hst]
        rfl

/-- The decode stage resolves a branch as the sequential execution does. -/
theorem Decoding.taken_eq (h : Decoding imem p u) (hvalid : p.dValid = true) :
    p.taken = u.isa.taken imem := by
  obtain ⟨_, hd, ha, _⟩ := h.valid hvalid
  rw [Pipe.taken, hvalid, Bool.true_and, Fields.takes_congr ha, hd]
  rfl

/-- A branch taken leaves all stages empty, and the sequential execution goes to its target. -/
theorem Decoding.branch (h : Decoding imem p u) (hcommitted : Committed p u)
    (hpasses : u.Passes imem deliver) (htaken : p.taken = true) :
    InStages imem (p.next imem deliver) (u.next imem) ∧ u.writes imem = [] := by
  have hvalid : p.dValid = true := by
    by_contra hne
    rw [Pipe.taken_of_invalid (Bool.eq_false_iff.mpr hne)] at htaken
    cases htaken
  have hfetched : p.fValid = true := by
    by_contra hne
    obtain ⟨hempty, _⟩ := h.fetching (Bool.eq_false_iff.mpr hne)
    rw [hvalid] at hempty
    cases hempty
  have htakes : p.d.takes p.a = true := by
    rw [Pipe.taken, hvalid] at htaken
    exact htaken
  have hu : u.isa.taken imem = true := (h.taken_eq hvalid).symm.trans htaken
  obtain ⟨hloads, hstores⟩ : (u.isa.fields imem).loads (u.isa.a imem) (u.isa.b imem) = none ∧
      (u.isa.fields imem).stores (u.isa.a imem) (u.isa.b imem) = none :=
        Fields.not_writes_of_takes hu
  obtain ⟨hpc, hd, _⟩ := h.valid hvalid
  have hfetch := h.fetched hfetched
  rw [if_pos hvalid] at hfetch
  have hdoes := Isa.does hpasses.plain
  have hregs : (u.next imem).isa.core.regVal = u.isa.core.regVal :=
    hdoes.regs.trans (by rw [hloads, commitRegs])
  have hstore : p.d.stores p.a p.b = none := (Fields.not_writes_of_takes htakes).2
  have hne : p.d.opcode ≠ .stw := by
    intro hop
    rw [Fields.takes, hop] at htakes
    cases htakes
  rw [Pipe.next_of_taken htaken]
  refine ⟨⟨hcommitted.regs.trans hregs.symm, ?_, ?_, ?_, ?_, ?_, ?_, ?_⟩, ?_⟩
  · have hmem := hdoes.mem
    rw [hstores] at hmem
    exact hcommitted.mem.trans hmem.symm
  · intro hbad
    cases hbad
  · exact fun _ => ⟨rfl, hstore, hregs.symm⟩
  · intro hbad
    cases hbad
  · intro _
    refine ⟨rfl, hne, if_pos hu, ?_⟩
    intro hbad
    cases hbad
  · intro hbad
    cases hbad
  · intro _
    obtain ⟨_, hfInsn, _⟩ := hfetch
    have hnext := hdoes.pc
    rw [if_pos hu] at hnext
    dsimp only
    rw [hfInsn, hpc, hd]
    exact ⟨rfl, hnext.symm, hpasses.behind hu, (if_pos hu).symm⟩
  · rw [Traced.writes, hdoes.writes, hloads, hstores]
    rfl

/-- An instruction that does not branch goes on to the execute stage, and the one behind it is
decoded. -/
theorem Decoding.proceed (h : Decoding imem p u) (hcommitted : Committed p u)
    (hpasses : u.Passes imem deliver) (hnext : (u.next imem).Passes imem deliver)
    (hvalid : p.dValid = true) (htaken : p.taken = false) :
      InStages imem (p.next imem deliver) u := by
  have hfetched : p.fValid = true := by
    by_contra hne
    obtain ⟨hempty, _⟩ := h.fetching (Bool.eq_false_iff.mpr hne)
    rw [hvalid] at hempty
    cases hempty
  have hu : u.isa.taken imem = false := (h.taken_eq hvalid).symm.trans htaken
  obtain ⟨hpc, hd, ha, hb⟩ := h.valid hvalid
  have hfetch := h.fetched hfetched
  rw [if_pos hvalid] at hfetch
  obtain ⟨hfPc, hfInsn, hfetchPc⟩ := hfetch
  have hdoes := Isa.does hpasses.plain
  have hfollows : (u.next imem).isa.core.pc = u.isa.core.pc + 4 := by
    have hpc := hdoes.pc
    rw [hu] at hpc
    exact hpc
  have hfields : fieldsOf p.fInsn = (u.next imem).isa.fields imem := by
    rw [hfInsn, ← hfollows]
    rfl
  -- the operands are delivered from the registers before the instruction in the execute stage
  have hshadow : p.d = fieldsOf (u.next imem).shadow := by
    rw [hd, Traced.next, hu]
    rfl
  have hseen : p.regs = (u.next imem).seen := by
    rw [← hcommitted.before, Traced.next, hu]
    rfl
  rw [Pipe.next_of_not_taken htaken]
  refine ⟨hcommitted.regs, hcommitted.mem, ?_, ?_, ?_⟩
  · intro _
    refine ⟨?_, ?_, hu⟩
    · rw [hvalid, if_pos rfl, Fields.loads_congr ha hb, hd]
    · rw [Fields.stores_congr ha hb, hd]
  · intro hbad
    cases hvalid.symm.trans hbad
  · change Decoding imem _ (if p.dValid = true then u.next imem else u)
    rw [show (if p.dValid = true then u.next imem else u) = u.next imem from if_pos hvalid]
    refine ⟨?_, ?_, ?_, ?_⟩
    · intro _
      dsimp only
      rw [hfields, hshadow, hseen, hfollows]
      exact ⟨hfPc, rfl, hnext.rs1, hnext.rs2⟩
    · intro hbad
      cases hfetched.symm.trans hbad
    · intro _
      dsimp only
      rw [if_pos hfetched, hfollows, ← hfetchPc]
      exact ⟨rfl, rfl, rfl⟩
    · intro hbad
      cases hbad

/-- Into empty stages behind a branch comes what the sequential execution comes to. -/
theorem InStages.refill (h : InStages imem p t) (hpasses : t.Passes imem deliver)
    (hvalid : p.dValid = false) : InStages imem (p.next imem deliver) t := by
  have htaken := Pipe.taken_of_invalid hvalid
  have hnot : ¬ p.dValid = true := Bool.eq_false_iff.mp hvalid
  have hidle : p.eValid = false := by
    by_contra hne
    have hdecoding := h.decoding
    rw [if_pos (Bool.eq_true_of_not_eq_false hne)] at hdecoding
    exact hne (hdecoding.bubble hvalid).1
  have hdecoding := h.decoding
  rw [if_neg (Bool.eq_false_iff.mp hidle)] at hdecoding
  obtain ⟨hwb, hst, hbefore⟩ := h.idle hidle
  obtain ⟨_, hne, hseen, hshadow⟩ := hdecoding.bubble hvalid
  have hregs : commitRegs p.regs p.mem p.wb = t.isa.core.regVal := by
    rw [hwb]
    exact h.regs
  have hmem : commitMem p.mem p.st = t.isa.mem := by
    rw [hst]
    exact h.mem
  rw [Pipe.next_of_not_taken htaken]
  refine ⟨hregs, hmem, ?_, ?_, ?_⟩
  · intro hbad
    cases hvalid.symm.trans hbad
  · intro _
    dsimp only
    rw [hvalid]
    exact ⟨rfl, Fields.stores_of_ne hne, hbefore⟩
  · change Decoding imem _ (if p.dValid = true then t.next imem else t)
    rw [show (if p.dValid = true then t.next imem else t) = t from if_neg hnot]
    refine ⟨?_, ?_, ?_, ?_⟩
    · intro hfetched
      obtain ⟨hfPc, hfInsn, _⟩ := hdecoding.fetched hfetched
      rw [if_neg hnot] at hfPc hfInsn
      dsimp only
      rw [hshadow hfetched, h.regs, ← hseen, hfPc, hfInsn]
      exact ⟨rfl, rfl, hpasses.rs1, hpasses.rs2⟩
    · intro hempty
      obtain ⟨_, _, hnstw, hword⟩ := hdecoding.fetching hempty
      refine ⟨hvalid, hnstw, hseen, ?_⟩
      intro _
      dsimp only
      rw [hword]
    · intro _
      dsimp only
      cases hfetched : p.fValid with
      | true =>
          obtain ⟨_, _, hpc⟩ := hdecoding.fetched hfetched
          rw [if_neg hnot] at hpc
          rw [hpc]
          exact ⟨rfl, rfl, rfl⟩
      | false =>
          obtain ⟨_, hpc, _⟩ := hdecoding.fetching hfetched
          rw [hpc]
          exact ⟨rfl, rfl, rfl⟩
    · intro hbad
      cases hbad

/-- One cycle: what the execute stage holds makes its writes, and a branch in the decode stage is
resolved. -/
theorem InStages.step (h : InStages imem p t)
    (hpasses : ∀ k, ((Traced.next imem)^[k] t).Passes imem deliver) :
    ∃ k, InStages imem (p.next imem deliver) ((Traced.next imem)^[k] t) ∧
      p.writes = outputs (Traced.next imem) (Traced.writes imem) k t ∧
      (k = 0 → (p.next imem deliver).distance < p.distance) := by
  obtain ⟨hcommitted, hdecoding, hwrites⟩ := h.commit (hpasses 0).plain
  generalize hj : (if p.eValid then 1 else 0) = j at hcommitted hdecoding hwrites
  have hnext : ∀ k, (Traced.next imem)^[k + 1] t = ((Traced.next imem)^[k] t).next imem :=
    fun k => Function.iterate_succ_apply' _ _ _
  cases htaken : p.taken with
  | true =>
      obtain ⟨hstages, hnone⟩ := hdecoding.branch hcommitted (hpasses j) htaken
      refine ⟨j + 1, ?_, ?_, fun hzero => absurd hzero j.succ_ne_zero⟩
      · rw [hnext]
        exact hstages
      · rw [hwrites, outputs_add, outputs, hnone]
        exact (List.append_nil _).symm
  | false =>
      cases hvalid : p.dValid with
      | true =>
          refine ⟨j, ?_, hwrites, ?_⟩
          · exact hdecoding.proceed hcommitted (hpasses j) (hnext j ▸ hpasses (j + 1)) hvalid htaken
          · intro hzero
            have hidle : ¬ p.eValid = true := by
              intro hexecuting
              rw [if_pos hexecuting] at hj
              omega
            rw [Pipe.next_of_not_taken htaken]
            unfold Pipe.distance
            rw [if_neg hidle, if_pos hvalid, if_pos hvalid]
            exact Nat.zero_lt_one
      | false =>
          have hidle : p.eValid = false := (hdecoding.bubble hvalid).1
          rw [hidle] at hj
          obtain rfl : 0 = j := hj
          refine ⟨0, h.refill (hpasses 0) hvalid, hwrites, ?_⟩
          intro _
          rw [Pipe.next_of_not_taken htaken]
          unfold Pipe.distance
          simp only [hvalid, hidle, Bool.false_eq_true, if_false, if_true]
          split_ifs <;> decide

end Step

theorem regVal_start (model : PipelineModel) (mem : Nat → Byte) :
    (Isa.start model mem).core.regVal = fun _ => 0 := by
  have hregs : (Isa.start model mem).core.regs = fun _ => 0 :=
    Function.update_eq_self bradRegSp (fun _ => 0)
  funext r
  unfold CoreState.regVal
  rw [hregs]
  split_ifs <;> rfl

/-- The stages after the reset. -/
theorem inStages_start (imem : Word → Word) {p : Pipe} {t : Traced}
    (hregs : p.regs = t.isa.core.regVal)
    (hmem : p.mem = t.isa.mem) (hpc : p.pc = t.isa.core.pc) (hf : p.fValid = false)
    (hd : p.dValid = false) (he : p.eValid = false) (hwb : p.wb = none) (hst : p.st = none)
    (hinsn : p.fInsn = t.shadow) (hshadow : t.shadow = 0) (hop : p.d.opcode ≠ .stw)
    (hbefore : t.before = t.isa.core.regVal) (hseen : t.seen = t.isa.core.regVal) :
    InStages imem p t := by
  refine ⟨hregs, hmem, ?_, fun _ => ⟨hwb, hst, hbefore⟩, ?_⟩
  · intro hbad
    cases he.symm.trans hbad
  · rw [if_neg (Bool.eq_false_iff.mp he)]
    refine ⟨?_, ?_, ?_, ?_⟩
    · intro hbad
      cases hd.symm.trans hbad
    · intro _
      refine ⟨he, hop, hseen, ?_⟩
      intro hbad
      cases hf.symm.trans hbad
    · intro hbad
      cases hf.symm.trans hbad
    · intro _
      refine ⟨hd, hpc, ?_, hinsn⟩
      rw [hinsn, hshadow]
      decide

/-! ### Opcodes in the cores -/

theorem BradOp.nibble_ofNibble (n : BitVec 4) : (BradOp.ofNibble n).nibble = n := by
  revert n
  decide

/-- The shift amount of the cores is that of the emulator. -/
theorem shiftAmount_eq (b : Word) : (b.extractLsb' 0 5).toNat = (b &&& 0x1F).toNat := by
  rw [show b &&& 0x1F = _ from and_mask (by decide : 5 ≤ 32) b, BitVec.extractLsb'_toNat,
    BitVec.toNat_setWidth, BitVec.toNat_setWidth]
  have hlt := Nat.mod_lt b.toNat (show 0 < 2 ^ 5 by decide)
  rw [Nat.shiftRight_zero]
  omega

section Opcodes

variable {op rd rs1 rs2 : BitVec 4} {imm : Word}

/-- The branch condition of the cores. -/
theorem takes_eq (hcall : BradOp.ofNibble op ≠ .call) (hret : BradOp.ofNibble op ≠ .ret)
    (a : Word) :
    (⟨.ofNibble op, rd, rs1, rs2, imm⟩ : Fields).takes a =
      (op == bradOpBz && a == 0 || op == bradOpBnz && a != 0 || op == bradOpJmp ||
        op == bradOpCall || op == bradOpRet) := by
  have hn := (BradOp.nibble_ofNibble op).symm
  generalize BradOp.ofNibble op = o at hn hcall hret ⊢
  rw [hn]
  unfold Fields.takes
  cases o with
  | call => exact absurd rfl hcall
  | ret => exact absurd rfl hret
  | bz | bnz | jmp =>
      simp [BradOp.nibble, BradOp.toWord, bradOpBz, bradOpBnz, bradOpJmp, bradOpCall, bradOpRet]
  | add | sub | mul | and | or | xor | shl | shr | addi | ldw | stw => rfl

/-- The memory request of the cores. -/
theorem stores_eq (a b : Word) :
    (⟨.ofNibble op, rd, rs1, rs2, imm⟩ : Fields).stores a b =
      if (op == bradOpLdw || op == bradOpStw) && op == bradOpStw then some (a + imm, b)
        else none := by
  have hn := (BradOp.nibble_ofNibble op).symm
  generalize BradOp.ofNibble op = o at hn ⊢
  rw [hn]
  unfold Fields.stores
  cases o <;> rfl

end Opcodes

/-! ### Cores -/

section Cores

variable {σ : Type} {cycle : σ → σ} {out : σ → List Write} {view : σ → Pipe} {I : σ → Prop}
  {C : Traced → Prop} {imem : Word → Word} {deliver : Deliver} {s : σ} {t : Traced}

/-- What is in the decode stage is a plain instruction. -/
theorem InStages.plain {p : Pipe} (h : InStages imem p t)
    (hpasses : ∀ k, ((Traced.next imem)^[k] t).Passes imem deliver) (hvalid : p.dValid = true) :
    Plain t.isa.core.model p.d := by
  have hdecoding := h.decoding
  cases hexecuting : p.eValid with
  | true =>
      rw [if_pos hexecuting] at hdecoding
      have hmodel : (t.next imem).isa.core.model = t.isa.core.model :=
        (Isa.does (hpasses 0).plain).model
      rw [(hdecoding.valid hvalid).2.1, ← hmodel]
      exact (hpasses 1).plain
  | false =>
      rw [if_neg (Bool.eq_false_iff.mp hexecuting)] at hdecoding
      rw [(hdecoding.valid hvalid).2.1]
      exact (hpasses 0).plain

variable (view I) in
/-- A core that works as the stages do, as long as the instructions come through as in the
sequential execution, makes the writes of the sequential execution. -/
theorem sameOutputs_of_stages (hI : I s) (hstages : InStages imem (view s) t)
    (hC : ∀ k, C ((Traced.next imem)^[k] t)) (hpasses : ∀ t, C t → t.Passes imem deliver)
    (hcycle : ∀ s t, I s → InStages imem (view s) t → (∀ k, C ((Traced.next imem)^[k] t)) →
      view (cycle s) = (view s).next imem deliver ∧ I (cycle s) ∧ out s = (view s).writes) :
    SameOutputs cycle out (Isa.next imem) (Isa.writes imem) s t.isa := by
  let R := fun s t => I s ∧ InStages imem (view s) t ∧ ∀ k, C ((Traced.next imem)^[k] t)
  have hsteps : ∀ s t, R s t → StepMatches cycle out (Traced.next imem) (Traced.writes imem) R
      (fun s => (view s).distance) s t := by
    rintro s t ⟨hI, hstages, hC⟩
    obtain ⟨hview, hI', hout⟩ := hcycle s t hI hstages hC
    obtain ⟨k, hstages', hwrites, hdistance⟩ := hstages.step fun k => hpasses _ (hC k)
    refine ⟨k, ⟨hI', hview ▸ hstages', ?_⟩, hout.trans hwrites, ?_⟩
    · intro j
      rw [← Function.iterate_add_apply]
      exact hC (j + k)
    · intro hzero
      dsimp only
      rw [hview]
      exact hdistance hzero
  have hsame := sameOutputs_of_steps hsteps ⟨hI, hstages, hC⟩
  constructor
  · intro n
    obtain ⟨m, hm⟩ := hsame.sound n
    exact ⟨m, hm.trans (Traced.outputs_eq imem m t)⟩
  · intro m
    obtain ⟨n, hn⟩ := hsame.complete m
    exact ⟨n, Traced.outputs_eq imem m t ▸ hn⟩

end Cores

end BradVector.Rtl
