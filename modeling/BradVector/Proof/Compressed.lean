import BradVector.Proof.AsmBranches
import BradVector.Proof.Pipelines

/-!
# Compressed programs

What a line with a plain mnemonic says, how the two modes encode it, and what the emulator makes of
the halfword. Its fetch goes on at the next whole word, so that of the first word only the first
half is ever executed, and of what a first half may hold only a jump to itself is followed as it was
meant.
-/

namespace BradVector.Bradasm

open CSem CSem.Machine CoreEmu

/-! ### What a line says -/

/-- What a line with a plain mnemonic says, by the form of its operands. -/
inductive Said where
  | regs (op : BradOp) (rd rs1 rs2 : Word)
  | value (op : BradOp) (rd rs1 imm : Word)
  | store (rs2 rs1 imm : Word)
  | test (op : BradOp) (rs1 target : Word)
  | jump (op : BradOp) (target : Word)
  | ret
  deriving DecidableEq, Repr

/-- The operands of a plain mnemonic. -/
def readOp (op : BradOp) (ec : EvalCtx) (lx : Lexer) : Except AsError (Said × Lexer) :=
  match op with
  | .add | .sub | .mul | .and | .or | .xor | .shl | .shr => do
      let ((rd, rs1, rs2), lx) ← orErr (parseRegs lx)
      return (.regs op rd rs1 rs2, lx)
  | .addi => do
      let ((rd, rs1, imm), lx) ← orErr (parseRegsImm ec lx)
      return (.value op rd rs1 imm, lx)
  | .ldw => do
      let ((rd, rs1, imm), lx) ← orErr (parseMem ec lx)
      return (.value op rd rs1 imm, lx)
  | .stw => do
      let ((rs2, rs1, imm), lx) ← orErr (parseMem ec lx)
      return (.store rs2 rs1 imm, lx)
  | .bz | .bnz => do
      let ((rs1, target), lx) ← orErr (parseRegImm ec lx)
      return (.test op rs1 target, lx)
  | .jmp | .call => do
      let (target, lx) ← orErr (evalExpr ec lx)
      return (.jump op target, lx)
  | .ret => return (.ret, lx)

/-- The encoding of a line at `pc`, and the errors of what has no compressed form. -/
def Said.encode (compress : Bool) (pc : Word) (lx : Lexer) : Said → Except AsError Stmt
  | .regs op rd rs1 rs2 =>
      if compress then
        if op = .mul then throw (noCompressedForm "MUL" lx)
        else return .insn16 (bradCRRR (v1ToCop op) rd rs1 rs2)
      else return .insn32 (bradRRR op rd rs1 rs2)
  | .value op rd rs1 imm =>
      if compress then
        if op = .addi then
          if imm.toInt < -8 ∨ 7 < imm.toInt then throw (outOfRange "C.ADDI" imm lx)
          else return .insn16 (bradCRI .addi rd rs1 imm)
        else if imm.toInt < 0 ∨ 15 < imm.toInt then throw (outOfRange "C.LDW" imm lx)
        else return .insn16 (bradCRI .ldw rd rs1 imm)
      else return .insn32 (bradRI op rd rs1 imm)
  | .store rs2 rs1 imm =>
      if compress then
        if imm.toInt < 0 ∨ 15 < imm.toInt then throw (outOfRange "C.STW" imm lx)
        else return .insn16 (bradCRI .stw rs2 rs1 imm)
      else return .insn32 (bradStore rs2 rs1 imm)
  | .test op rs1 target =>
      if compress then
        return .insn16 (bradCBR (if op = .bz then .bz else .bnz) rs1 (branchOffset 2 target pc))
      else return .insn32 (bradBR op rs1 (branchOffset 4 target pc))
  | .jump op target =>
      if compress then
        return .insn16 (bradCBR (if op = .jmp then .jmp else .call) 0 (branchOffset 2 target pc))
      else return .insn32 (bradJMP op (branchOffset 4 target pc))
  | .ret => if compress then throw (noCompressedForm "RET" lx) else return .insn32 bradRetRaw

/-- A plain mnemonic is read in the same way in both modes and then encoded. -/
theorem parseOp_eq (op : BradOp) (compress : Bool) (ec : EvalCtx) (lx : Lexer) :
    parseOp op compress ec lx = do
      let (said, lx) ← readOp op ec lx
      let stmt ← said.encode compress ec.pc lx
      return (stmt, lx) := by
  cases op with
  | add | sub | mul | and | or | xor | shl | shr =>
      unfold parseOp readOp
      cases orErr (parseRegs lx) with
      | error e => rfl
      | ok res => cases compress <;> rfl
  | addi =>
      unfold parseOp readOp
      cases orErr (parseRegsImm ec lx) with
      | error e => rfl
      | ok res =>
          cases compress with
          | false => rfl
          | true =>
              by_cases hrange : res.1.2.2.toInt < -8 ∨ 7 < res.1.2.2.toInt <;>
                simp [bind, Except.bind, pure, Except.pure, throw, throwThe, MonadExceptOf.throw,
                  Said.encode, hrange]
  | ldw | stw =>
      unfold parseOp readOp
      cases orErr (parseMem ec lx) with
      | error e => rfl
      | ok res =>
          cases compress with
          | false => rfl
          | true =>
              by_cases hrange : res.1.2.2.toInt < 0 ∨ 15 < res.1.2.2.toInt <;>
                simp [bind, Except.bind, pure, Except.pure, throw, throwThe, MonadExceptOf.throw,
                  Said.encode, hrange]
  | bz | bnz =>
      unfold parseOp readOp
      cases orErr (parseRegImm ec lx) with
      | error e => rfl
      | ok res => cases compress <;> rfl
  | jmp | call =>
      unfold parseOp readOp
      cases orErr (evalExpr ec lx) with
      | error e => rfl
      | ok res => cases compress <;> rfl
  | ret => cases compress <;> rfl

/-- `JMP` and `CALL`. -/
def JumpOp (op : BradOp) : Prop := op = .jmp ∨ op = .call

def Said.op : Said → BradOp
  | .regs op _ _ _ | .value op _ _ _ | .test op _ _ | .jump op _ => op
  | .store _ _ _ => .stw
  | .ret => .ret

/-- The operation has operands of this form. -/
def Said.Formed : Said → Prop
  | .regs op _ _ _ | .value op _ _ _ => op.isBranch = false
  | .store _ _ _ | .ret => True
  | .test op _ _ => op = .bz ∨ op = .bnz
  | .jump op _ => JumpOp op

theorem readOp_formed {op : BradOp} {ec : EvalCtx} {lx lx' : Lexer} {said : Said}
    (h : readOp op ec lx = .ok (said, lx')) : said.op = op ∧ said.Formed := by
  unfold readOp at h
  cases op with
  | add | sub | mul | and | or | xor | shl | shr | addi | ldw =>
      obtain ⟨_, _, h⟩ := bind_eq_ok.mp h
      obtain ⟨rfl, _⟩ := Prod.mk.inj (Except.ok.inj h)
      exact ⟨rfl, rfl⟩
  | stw =>
      obtain ⟨_, _, h⟩ := bind_eq_ok.mp h
      obtain ⟨rfl, _⟩ := Prod.mk.inj (Except.ok.inj h)
      exact ⟨rfl, trivial⟩
  | bz | jmp =>
      obtain ⟨_, _, h⟩ := bind_eq_ok.mp h
      obtain ⟨rfl, _⟩ := Prod.mk.inj (Except.ok.inj h)
      exact ⟨rfl, .inl rfl⟩
  | bnz | call =>
      obtain ⟨_, _, h⟩ := bind_eq_ok.mp h
      obtain ⟨rfl, _⟩ := Prod.mk.inj (Except.ok.inj h)
      exact ⟨rfl, .inr rfl⟩
  | ret =>
      obtain ⟨rfl, _⟩ := Prod.mk.inj (Except.ok.inj h)
      exact ⟨rfl, trivial⟩

/-! ### Programs under the two directives -/

def underCompress (body : List Byte) : List Byte := cstr ".compress\n" ++ body
def underNocompress (body : List Byte) : List Byte := cstr ".nocompress\n" ++ body

/-- The second pass behind the directive. -/
def bodyStart (body : List Byte) (compress : Bool) : Pass2 :=
  ⟨⟨body, 2, .plain .newline⟩, 0, compress, .init, 0⟩

theorem pass2Step_compress (symbols : List Symbol) (body : List Byte) :
    pass2Step symbols (pass2Init (underCompress body)) = .ok (bodyStart body true) := rfl

theorem pass2Step_nocompress (symbols : List Symbol) (body : List Byte) :
    pass2Step symbols (pass2Init (underNocompress body)) = .ok (bodyStart body false) := rfl

/-- The second pass comes to a statement. -/
def Pass2.AtStmt (s : Pass2) : Prop := (lexNext s.lx).head = .stmt

/-- Every statement behind `.compress` is a line with a plain mnemonic. -/
def PlainBody (body : List Byte) : Prop :=
  Along (pass2Step (pass1 (underCompress body)))
    (fun s => s.AtStmt → ∃ op, (lexNext s.lx).tok.kind = .op op) (bodyStart body true)

/-- What the line says that the second pass stands at. -/
def Pass2.says? (symbols : List Symbol) (s : Pass2) : Option Said :=
  let lx := lexNext s.lx
  match lx.head, lx.tok.kind with
  | .stmt, .op op =>
      match readOp op ⟨symbols, s.pc⟩ (lexNext lx) with
      | .ok (said, _) => some said
      | .error _ => none
  | _, _ => none

/-- A line of the program under `.compress` says `said`, and its halfword is placed at `offset`. -/
def LinePlaced (body : List Byte) (said : Said) (offset : Nat) : Prop :=
  ∃ n s stmt, after (pass2Step (pass1 (underCompress body))) n (bodyStart body true) = .ok s ∧
    s.says? (pass1 (underCompress body)) = some said ∧
    s.Places (pass1 (underCompress body)) stmt offset

/-! ### Execution in compressed mode -/

/-- The decoded instruction at `insnPc` is the one a line says: its operation, the registers and the
immediate it uses, and where it branches to. -/
def Denotes (d : BradInsn) (insnPc : Word) : Said → Prop
  | .regs op rd rs1 rs2 =>
      d.opcode = op ∧ d.rd = rd.setWidth 4 ∧ d.rs1 = rs1.setWidth 4 ∧ d.rs2 = rs2.setWidth 4
  | .value op rd rs1 imm =>
      d.opcode = op ∧ d.rd = rd.setWidth 4 ∧ d.rs1 = rs1.setWidth 4 ∧ d.imm = imm
  | .store rs2 rs1 imm =>
      d.opcode = .stw ∧ d.rs2 = rs2.setWidth 4 ∧ d.rs1 = rs1.setWidth 4 ∧ d.imm = imm
  | .test op rs1 target =>
      d.opcode = op ∧ d.rs1 = rs1.setWidth 4 ∧ insnPc + 4 + d.imm = target
  | .jump op target => d.opcode = op ∧ insnPc + 4 + d.imm = target
  | .ret => d.opcode = .ret

/-- An instruction fetched and executed: the address that `fetchStage` notes for it, and the
result. -/
structure Cycle where
  insn : BradInsn
  pc : Word
  done : Executed

def cycle (memSize : Nat) (q : Emu) : Option Cycle :=
  let f := fetch q.core q.mem memSize
  f.insn.map fun d => ⟨d, f.core.pc - 4, execute f.core d q.mem memSize (f.core.pc - 4)⟩

/-- One instruction after the other; a fetch that faults ends the run. -/
def cycleStep (memSize : Nat) (q : Emu) : Except Unit Emu :=
  match cycle memSize q with
  | some c => .ok ⟨c.done.core, c.done.mem⟩
  | none => .error ()

/-- The memory begins with the words of the output. -/
def Output.In (out : Output) (mem : Nat → Byte) : Prop :=
  ∀ i w, out.code[i]? = some w → wordAt mem (4 * i) = w

/-- The same effects on registers and memory; the link that `CALL` leaves is a code address. -/
structure SameResults (op : BradOp) (e e' : Executed) : Prop where
  regs : ∀ r, (op = .call → r ≠ bradRegLr) → e.core.regs r = e'.core.regs r
  mem : e.mem = e'.mem
  ret : e.ret = e'.ret
  taken : e.taken = e'.taken

/-- The emulator at a line: it executes what the line says, goes on at the next halfword or the
target, and does to the registers and the memory what the line's word under `.nocompress` does. -/
structure LineHonoured (body : List Byte) (memSize : Nat) (q : Emu) (said : Said) (offset : Nat)
    (c : Cycle) : Prop where
  executed : cycle memSize q = some c
  denotes : Denotes c.insn c.pc said
  next : c.done.taken = false → c.done.core.pc = q.core.pc + 2
  effects : ∀ out, bradAsAssemble (underNocompress body) = .ok out →
    SameResults c.insn.opcode c.done
      (execute q.core (bradIsaDecode (out.code.getD (offset / 2) 0)) q.mem memSize (2 * offset))

/-- A core in compressed mode before the first instruction of the program in its memory. -/
structure Loaded (out : Output) (memSize : Nat) (q : Emu) : Prop where
  compressed : q.core.compressed = true
  start : q.core.pc = 0
  code : out.In q.mem
  room : 4 * out.code.length ≤ memSize

/-- Wherever control comes in the program, as long as it is in memory, the emulator honours the
line. -/
def CompressedHonoured (body : List Byte) (out : Output) : Prop :=
  ∀ memSize q, Loaded out memSize q →
    Along (cycleStep memSize)
      (fun q => out.In q.mem → ∀ said (offset : Nat), LinePlaced body said offset →
        q.core.pc = offset →
        ∃ c, LineHonoured body memSize q said offset c) q

/-- If there is a line, the first one is a jump or a call to address 0, its own. -/
def FirstStays (body : List Byte) : Prop :=
  ∀ said, LinePlaced body said 0 → said = .jump .jmp 0 ∨ said = .jump .call 0

/-! ### Jumps in the first halfword -/

theorem cjump_fields (cop : BradCop) (off : Word) :
    (bradIsaCdecode (bradCBR cop 0 off)).cop = cop ∧
      (bradCBR cop 0 off).setWidth 8 = off.setWidth 8 := by
  have hword : bradCBR cop 0 off =
      ((cop.nibble).setWidth 32 <<< 12 ||| (off.setWidth 8).setWidth 32).setWidth 16 := by
    unfold bradCBR
    rw [show off &&& 0xFF = _ from and_mask (by decide : 8 ≤ 32) off, BradCop.toWord_eq]
    simp
  rw [hword]
  generalize hn : cop.nibble = n
  generalize off.setWidth 8 = b
  have hnibble :
      ((n.setWidth 32 <<< 12 ||| b.setWidth 32 : Word).setWidth 16).extractLsb' 12 4 = n := by
    ext i hi
    simp (disch := omega) [BitVec.getLsbD_eq_getElem]
  constructor
  · unfold bradIsaCdecode
    dsimp only
    rw [hnibble, ← hn]
    cases cop <;> rfl
  · ext i hi
    simp (disch := omega)

/-- What the emulator adds for the offset of a compressed jump: four times the low byte. -/
theorem cjump_imm_toInt {cop : BradCop} (hcop : cop = .jmp ∨ cop = .call) (off : Word) :
    (expandCinsn (bradIsaCdecode (bradCBR cop 0 off))).imm.toInt = 4 * (off.setWidth 8).toInt := by
  obtain ⟨hdecode, hlow⟩ := cjump_fields cop off
  have himm : (expandCinsn (bradIsaCdecode (bradCBR cop 0 off))).immediate =
      (off.setWidth 8).signExtend 16 * 4 := by
    rw [← hlow]
    unfold expandCinsn
    dsimp only
    rw [hdecode]
    obtain rfl | rfl := hcop <;> rfl
  unfold BradInsn.imm
  rw [himm, signExtend_toInt, BitVec.toInt_mul, BitVec.toInt_signExtend_of_le (by decide)]
  have hlow := BitVec.le_toInt (off.setWidth 8)
  have hhigh := BitVec.toInt_lt (x := off.setWidth 8)
  have hfour : (4 : Hword).toInt = 4 := by decide
  rw [hfour]
  unfold Int.bmod
  dsimp only
  split_ifs <;> omega

/-- The jump in the first halfword goes to its target exactly if that is the first halfword. -/
theorem cjump_returns_iff {cop : BradCop} (hcop : cop = .jmp ∨ cop = .call) (target : Word) :
    0 + 4 + (expandCinsn (bradIsaCdecode (bradCBR cop 0 (branchOffset 2 target 0)))).imm = target ↔
      target = 0 := by
  constructor
  · intro hreturns
    have himm := cjump_imm_toInt hcop (branchOffset 2 target 0)
    generalize hoff : branchOffset 2 target 0 = off at hreturns himm
    have hlow := BitVec.le_toInt (off.setWidth 8)
    have hhigh := BitVec.toInt_lt (x := off.setWidth 8)
    have htwo : (2 : Word).toInt = 2 := by decide
    have hdistance : (target - (0 + 2)).toInt = 2 + 4 * (off.setWidth 8).toInt := by
      have hsum : target - (0 + 2) = 2 +
          (expandCinsn (bradIsaCdecode (bradCBR cop 0 off))).imm := by
        rw [← hreturns]
        ring
      rw [hsum, BitVec.toInt_add, himm, htwo]
      unfold Int.bmod
      dsimp only
      split_ifs <;> omega
    have hunits : off.toInt = 1 + 2 * (off.setWidth 8).toInt := by
      have hdiv := branchOffset_toInt (.inl rfl) target 0
      rw [hdistance, htwo, hoff] at hdiv
      rw [hdiv (by omega)]
      omega
    -- the low byte y of the offset 1 + 2 y is y, so that y is -1
    have hback : (off.setWidth 8).toInt = -1 := by
      have hbyte := BitVec.toInt_setWidth (v := 8) off
      rw [BitVec.toInt_eq_toNat_bmod] at hunits
      rw [hbyte] at hunits hlow hhigh ⊢
      unfold Int.bmod at hunits hlow hhigh ⊢
      dsimp only at hunits hlow hhigh ⊢
      split_ifs at hunits hlow hhigh ⊢ <;> omega
    rw [hback] at himm
    rw [← hreturns, BitVec.eq_of_toInt_eq (himm.trans (by decide : _ = (-4 : Word).toInt))]
    rfl
  · rintro rfl
    have himm := cjump_imm_toInt hcop (branchOffset 2 0 0)
    have hback : ((branchOffset 2 0 0).setWidth 8).toInt = -1 := by decide
    rw [hback] at himm
    rw [BitVec.eq_of_toInt_eq (himm.trans (by decide : _ = (-4 : Word).toInt))]
    rfl

theorem cycle_at_start {q : Emu} {memSize : Nat} (hcompressed : q.core.compressed = true)
    (hstart : q.core.pc = 0) (hsize : 4 ≤ memSize) :
    cycle memSize q =
      let d := expandCinsn (bradIsaCdecode ((wordAt q.mem 0).setWidth 16))
      some ⟨d, 0, execute { q.core with pc := 4 } d q.mem memSize 0⟩ := by
  unfold cycle fetch
  dsimp only
  have hroom : ¬ memSize < ((0 : Word) + 4).toNat := Nat.not_lt.mpr hsize
  have hnext : ((0 : Word) &&& ~~~3) + 4 = 4 := by decide
  have hback : (4 : Word) - 4 = 0 := by decide
  rw [if_pos hcompressed, hstart, if_neg hroom, hnext, Option.map_some]
  dsimp only
  rw [hback]
  rfl

/-! ### The first line -/

theorem pass2Step_of_quiet {symbols : List Symbol} {s t : Pass2} (hquiet : ¬ s.AtStmt)
    (hstep : pass2Step symbols s = .ok t) (symbols' : List Symbol) {s' : Pass2}
    (hlx : s'.lx = s.lx) :
    pass2Step symbols' s' = .ok { s' with lx := t.lx } := by
  unfold Pass2.AtStmt at hquiet
  unfold pass2Step at hstep ⊢
  dsimp only at hstep ⊢
  rw [hlx]
  cases hhead : (lexNext s.lx).head with
  | eof => simp [hhead] at hstep
  | stmt => exact absurd hhead hquiet
  | newline | label | colon =>
      simp only [hhead] at hstep
      obtain rfl := Except.ok.inj hstep
      rfl

/-- Up to the first statement the second pass moves through the text alone. -/
theorem pass2_of_quiet {symbols : List Symbol} {s t : Pass2} {n : Nat}
    (h : after (pass2Step symbols) n s = .ok t)
    (hquiet : ∀ m u, m < n → after (pass2Step symbols) m s = .ok u → ¬ u.AtStmt)
    (symbols' : List Symbol) (s' : Pass2) (hlx : s'.lx = s.lx) :
    after (pass2Step symbols') n s' = .ok { s' with lx := t.lx } := by
  induction n generalizing t with
  | zero =>
      cases h
      rw [after_zero, ← hlx]
  | succ n ih =>
      obtain ⟨u, hu, hlast⟩ := after_succ_eq_ok_iff.mp h
      have hbefore := ih hu fun m v hlt => hquiet m v (hlt.trans n.lt_succ_self)
      exact after_succ_eq_ok_iff.mpr ⟨_, hbefore,
        pass2Step_of_quiet (hquiet n u n.lt_succ_self hu) hlast symbols' rfl⟩

/-- The second pass of an accepted source reads the statements it comes to. -/
theorem parse_of_accepted {symbols : List Symbol} {s : Pass2} {out : Output}
    (hends : EndsWith (pass2Step symbols) s (.ok out)) (hstmt : s.AtStmt) :
    ∃ stmt lx, parseStmt s.compress ⟨symbols, s.pc⟩ (lexNext s.lx) = .ok (stmt, lx) := by
  cases hparse : parseStmt s.compress ⟨symbols, s.pc⟩ (lexNext s.lx) with
  | ok res => exact ⟨res.1, res.2, rfl⟩
  | error e =>
      have hstep : pass2Step symbols s = .error (.error e) := by
        unfold pass2Step
        dsimp only
        rw [show (lexNext s.lx).head = .stmt from hstmt]
        simp [pass2Stmt, hparse, bind, Except.bind, Except.mapError]
      cases hends.unique ⟨0, s, after_zero, hstep⟩

/-- At a plain mnemonic of an accepted source a line is read and encoded. -/
theorem line_of_accepted {symbols : List Symbol} {s : Pass2} {out : Output} {op : BradOp}
    (hends : EndsWith (pass2Step symbols) s (.ok out)) (hstmt : s.AtStmt)
    (hop : (lexNext s.lx).tok.kind = .op op) :
    ∃ said lx stmt, said.op = op ∧ said.Formed ∧ said.encode s.compress s.pc lx = .ok stmt ∧
      s.says? symbols = some said ∧ s.stmt? symbols = some stmt := by
  obtain ⟨stmt, lx, hparse⟩ := parse_of_accepted hends hstmt
  have hhead : (lexNext s.lx).head = .stmt := hstmt
  have hread := hparse
  rw [parseStmt, hop] at hread
  dsimp only at hread
  rw [parseOp_eq] at hread
  obtain ⟨⟨said, lx₁⟩, hsaid, hread⟩ := bind_eq_ok.mp hread
  obtain ⟨stmt', hencode, hread⟩ := bind_eq_ok.mp hread
  obtain ⟨hsaidop, hformed⟩ := readOp_formed hsaid
  obtain ⟨rfl, rfl⟩ := Prod.mk.inj (Except.ok.inj hread)
  refine ⟨said, lx₁, stmt', hsaidop, hformed, hencode, ?_, ?_⟩
  · simp [Pass2.says?, hhead, hop, hsaid]
  · simp [Pass2.stmt?, hhead, hparse]

/-- With nothing in the output yet, what a statement emits is placed at its start. -/
theorem places_first {symbols : List Symbol} {s : Pass2} {stmt : Stmt}
    (hstands : s.stmt? symbols = some stmt)
    (hout : s.out = .init) (hitem : stmt.item ≠ []) : s.Places symbols stmt 0 := by
  have hbase : stmt.base Emitter.init = Emitter.init := by
    cases stmt <;> rfl
  have hroom : ¬ Emitter.init.Full := by decide
  refine ⟨hstands, ?_⟩
  rw [hout, Stmt.place, hbase, if_neg (not_or.mpr ⟨hitem, hroom⟩)]
  rfl

theorem Said.encode_compressed {said : Said} {pc : Word} {lx : Lexer} {stmt : Stmt}
    (h : said.encode true pc lx = .ok stmt) : ∃ insn, stmt = .insn16 insn := by
  unfold Said.encode at h
  cases said with
  | regs | store =>
      dsimp only at h
      rw [if_pos rfl] at h
      split_ifs at h
      exact ⟨_, (Except.ok.inj h).symm⟩
  | value =>
      dsimp only at h
      rw [if_pos rfl] at h
      split_ifs at h
      · exact ⟨_, (Except.ok.inj h).symm⟩
      · exact ⟨_, (Except.ok.inj h).symm⟩
  | test | jump => exact ⟨_, (Except.ok.inj h).symm⟩
  | ret => cases h

section FirstLine

variable {body : List Byte} {out : Output} {said : Said} {offset m : Nat} {t : Pass2}

/-- The first statement behind the directive. -/
def FirstStmt (body : List Byte) (m : Nat) (t : Pass2) : Prop :=
  First (pass2Step (pass1 (underCompress body))) Pass2.AtStmt (bodyStart body true) m t

theorem FirstStmt.state (h : FirstStmt body m t) : t = { bodyStart body true with lx := t.lx } := by
  have hself := pass2_of_quiet h.reached h.earlier (pass1 (underCompress body))
    (bodyStart body true) rfl
  exact Except.ok.inj (h.reached.symm.trans hself)

theorem bodyStart_ends (hout : bradAsAssemble (underCompress body) = .ok out) :
    EndsWith (pass2Step (pass1 (underCompress body))) (bodyStart body true) (.ok out) := by
  have hends := pass2_ends (underCompress body)
  rw [hout] at hends
  exact hends.of_after (after_one.trans (pass2Step_compress _ body))

/-- The first statement is a line, and its halfword the first of the output. -/
theorem FirstStmt.line (h : FirstStmt body m t) (hplain : PlainBody body)
    (hout : bradAsAssemble (underCompress body) = .ok out) :
    ∃ said lx insn, said.Formed ∧ said.encode true 0 lx = .ok (.insn16 insn) ∧
      (lexNext t.lx).tok.kind = .op said.op ∧ t.says? (pass1 (underCompress body)) = some said ∧
      t.Places (pass1 (underCompress body)) (.insn16 insn) 0 := by
  obtain ⟨op, hop⟩ := hplain m t h.reached h.holds
  have hstate := h.state
  obtain ⟨said, lx, stmt, rfl, hformed, hencode, hevent, hstands⟩ :=
    line_of_accepted ((bodyStart_ends hout).of_after h.reached) h.holds hop
  rw [show t.compress = true by rw [hstate]; rfl, show t.pc = 0 by rw [hstate]; rfl] at hencode
  obtain ⟨insn, rfl⟩ := Said.encode_compressed hencode
  have hempty : t.out = .init := by rw [hstate]; rfl
  exact ⟨said, lx, insn, hformed, hencode, hop, hevent,
    places_first hstands hempty (List.cons_ne_nil _ _)⟩

theorem says_atStmt {symbols : List Symbol} {s : Pass2} (h : s.says? symbols = some said) :
    s.AtStmt := by
  unfold Pass2.says? at h
  dsimp only at h
  split at h
  · assumption
  · cases h

/-- A line at the start of the output is the first statement. -/
theorem LinePlaced.first (h : LinePlaced body said 0) (hplain : PlainBody body)
    (hout : bradAsAssemble (underCompress body) = .ok out) :
    ∃ m t, FirstStmt body m t ∧ t.says? (pass1 (underCompress body)) = some said := by
  obtain ⟨n, s, stmt, hs, hevent, hplaces⟩ := h
  obtain ⟨m, t, hfirst⟩ := exists_first hs (says_atStmt hevent)
  have hle : m ≤ n := by
    by_contra hlt
    exact hfirst.earlier n s (Nat.lt_of_not_le hlt) hs (says_atStmt hevent)
  obtain ⟨u, hu, hrest⟩ := exists_after_of_le hs hle
  obtain rfl : u = t := Except.ok.inj (hu.symm.trans hfirst.reached)
  cases hgap : n - m with
  | zero =>
      rw [hgap] at hrest
      obtain rfl : u = s := Except.ok.inj hrest
      exact ⟨m, u, hfirst, hevent⟩
  | succ k =>
      -- the first statement has left a halfword in the output
      rw [hgap] at hrest
      obtain ⟨v, hv, hlater⟩ := after_head_eq_ok_iff.mp hrest
      obtain ⟨_, _, insn, _, _, _, _, hfirstPlaces⟩ := FirstStmt.line hfirst hplain hout
      obtain ⟨hnone, _⟩ | ⟨stmt', w, lx, hstands, hperform, rfl⟩ := pass2Step_cases hv
      · rw [hfirstPlaces.stands] at hnone
        cases hnone
      · obtain rfl := Option.some.inj (hfirstPlaces.stands.symm.trans hstands)
        have hitem : w.out.halves = u.out.halves ++ [insn] :=
          Pass2.perform_placed hperform hfirstPlaces.placed
        have hgrows := (pass2_halves hlater).length_le
        have hbase := (Stmt.halves_base s.out stmt).length_le
        obtain ⟨_, _, hzero⟩ := Stmt.place_eq_some hplaces.placed
        have hpos : 0 < w.out.halves.length := by
          rw [hitem, List.length_append]
          exact Nat.succ_pos _
        unfold Emitter.bytes at hzero
        change w.out.halves.length ≤ s.out.halves.length at hgrows
        omega

/-- The first halfword of the output is that of the first line. -/
theorem FirstStmt.code (h : FirstStmt body m t)
    (hout : bradAsAssemble (underCompress body) = .ok out)
    {insn : Hword} (hplaces : t.Places (pass1 (underCompress body)) (.insn16 insn) 0) :
    ∃ w, out.code[0]? = some w ∧ w.setWidth 16 = insn := by
  have hreached : after (pass2Step (pass1 (underCompress body))) (1 + m)
      (pass2Init (underCompress body)) = .ok t := by
    rw [after_add_of_ok (after_one.trans (pass2Step_compress _ body))]
    exact h.reached
  have hitem := placed_in_output hout hreached hplaces
  cases hcode : out.code with
  | nil =>
      rw [hcode] at hitem
      exact absurd (List.prefix_nil.mp hitem) (List.cons_ne_nil _ _)
  | cons w rest =>
      rw [hcode] at hitem
      exact ⟨w, rfl, (List.cons_prefix_cons.mp hitem).1.symm⟩

end FirstLine

/-! ### What the first line has to be -/

/-- The program in an otherwise empty memory. -/
def Output.image (out : Output) (a : Nat) : Byte :=
  (toLE 4 (out.code.getD (a / 4) 0).toNat).getD (a % 4) 0

theorem Output.image_in (out : Output) : out.In out.image := by
  intro i w hw
  have hread : readBytes out.image (4 * i) 4 = toLE 4 w.toNat := by
    apply List.ext_getElem (by simp)
    intro j hj _
    have hlt : j < 4 := by simpa using hj
    have hdiv : (4 * i + j) / 4 = i := by omega
    have hmod : (4 * i + j) % 4 = j := by omega
    have hcode : out.code.getD i 0 = w := by
      rw [List.getD_eq_getElem?_getD, hw]
      rfl
    simp only [readBytes, List.getElem_map, List.getElem_range, Output.image]
    rw [hdiv, hmod, hcode]
    exact (List.getElem_eq_getD 0).symm
  rw [wordAt, hread, ofLE_toLE_of_lt w.isLt, BitVec.ofNat_toNat, BitVec.setWidth_eq]

theorem execute_not_taken {core : CoreState} {d : BradInsn} (hop : d.opcode.isBranch = false)
    (mem : Nat → Byte) (memSize : Nat) (insnPc : Word) :
    (execute core d mem memSize insnPc).taken = false := by
  unfold execute
  cases hcase : d.opcode with
  | add | sub | mul | and | or | xor | shl | shr | ldw | stw =>
      dsimp only
      split_ifs <;> rfl
  | addi => rfl
  | bz | bnz | jmp | call | ret =>
      rw [hcase] at hop
      cases hop

/-- A line that is no jump is not taken by the core whose registers all hold a certain value. -/
theorem exists_not_taken {said : Said} (hformed : said.Formed)
    (hjump : ∀ op target, said ≠ .jump op target) (hret : said ≠ .ret) :
    ∃ v : Word, ∀ (core : CoreState) d mem memSize, core.model = .phoenix → (∀ r, core.regs r = v) →
      Denotes d 0 said → (execute core d mem memSize 0).taken = false := by
  cases said with
  | jump op target => exact absurd rfl (hjump op target)
  | ret => exact absurd rfl hret
  | regs op | value op =>
      refine ⟨0, ?_⟩
      rintro core d mem memSize - - ⟨rfl, -⟩
      exact execute_not_taken hformed mem memSize 0
  | store =>
      refine ⟨0, ?_⟩
      rintro core d mem memSize - - ⟨hop, -⟩
      exact execute_not_taken (by rw [hop]; rfl) mem memSize 0
  | test op =>
      obtain rfl | rfl := hformed
      · refine ⟨1, ?_⟩
        rintro core d mem memSize hmodel hregs ⟨hop, -⟩
        have hreg : d.rs1.toNat < 16 := d.rs1.isLt
        simp [execute, hop, CoreState.count, CoreState.regVal, hmodel, hregs, PipelineModel.numRegs,
          hreg]
      · refine ⟨0, ?_⟩
        rintro core d mem memSize hmodel hregs ⟨hop, -⟩
        simp [execute, hop, CoreState.count, CoreState.regVal, hregs]

theorem firstStays_of_honoured {body : List Byte} {out : Output} (hplain : PlainBody body)
    (hout : bradAsAssemble (underCompress body) = .ok out) (h : CompressedHonoured body out) :
    FirstStays body := by
  intro said hline
  obtain ⟨m, t, hfirst, hevent⟩ := hline.first hplain hout
  obtain ⟨said', lx, insn, hformed, hencode, _, hevent', hplaces⟩ := hfirst.line hplain hout
  obtain rfl := Option.some.inj (hevent.symm.trans hevent')
  obtain ⟨w, hcode, hinsn⟩ := hfirst.code hout hplaces
  have hlength : 0 < out.code.length := by
    by_contra hempty
    rw [List.getElem?_eq_none (Nat.le_of_not_lt hempty)] at hcode
    cases hcode
  have hword : wordAt out.image 0 = w := out.image_in 0 w hcode
  -- every core starts with the first line
  have hstart : ∀ v : Word, ∃ core : CoreState, core.model = .phoenix ∧ (∀ r, core.regs r = v) ∧
      core.pc = 4 ∧
      let d := expandCinsn (bradIsaCdecode insn)
      let e := execute core d out.image (4 * out.code.length) 0
      Denotes d 0 said ∧ (e.taken = false → e.core.pc = 2) := by
    intro v
    let core : CoreState := { coreInit .phoenix 0 0 with regs := fun _ => v, compressMode := true }
    have hloaded : Loaded out (4 * out.code.length) ⟨core, out.image⟩ := by
      refine ⟨?_, rfl, out.image_in, le_rfl⟩
      simp [core, CoreState.compressed]
    obtain ⟨c, hc⟩ := h _ _ hloaded 0 _ after_zero out.image_in said 0 hline rfl
    have hcycle :=
      cycle_at_start hloaded.compressed hloaded.start (by omega : 4 ≤ 4 * out.code.length)
    have hexecuted := hc.executed
    rw [hcycle] at hexecuted
    obtain rfl := Option.some.inj hexecuted
    have hdenotes := hc.denotes
    have hnext := hc.next
    dsimp only at hdenotes hnext
    rw [hword, hinsn] at hdenotes hnext
    exact ⟨{ core with pc := 4 }, rfl, fun _ => rfl, rfl, hdenotes, hnext⟩
  have hret : said ≠ .ret := by
    rintro rfl
    obtain ⟨_, _, _, _, hdenotes, _⟩ := hstart 0
    exact BradCop.toOp_ne_ret _ hdenotes
  by_cases hjump : ∃ op target, said = .jump op target
  · obtain ⟨op, target, rfl⟩ := hjump
    obtain ⟨_, _, _, _, hdenotes, _⟩ := hstart 0
    obtain rfl := Stmt.insn16.inj (Except.ok.inj hencode)
    obtain rfl | rfl := hformed
    · obtain rfl := (cjump_returns_iff (.inl rfl) target).mp hdenotes.2
      exact .inl rfl
    · obtain rfl := (cjump_returns_iff (.inr rfl) target).mp hdenotes.2
      exact .inr rfl
  · simp only [not_exists] at hjump
    obtain ⟨v, hnot⟩ := exists_not_taken hformed hjump hret
    obtain ⟨core, hmodel, hregs, hpc, hdenotes, hnext⟩ := hstart v
    have htaken := hnot core _ out.image (4 * out.code.length) hmodel hregs hdenotes
    have hnext := hnext htaken
    rw [execute_pc_of_not_taken _ _ _ _ _ htaken, hpc] at hnext
    exact absurd hnext (by decide)

/-! ### A first line that stays -/

theorem execute_jump (core : CoreState) {d : BradInsn} (hop : JumpOp d.opcode) (mem : Nat → Byte)
    (memSize : Nat) (insnPc : Word) :
    let e := execute core d mem memSize insnPc
    e.taken = true ∧ e.ret = 0 ∧ e.mem = mem ∧ e.core.pc = insnPc + 4 + d.imm ∧
      ∀ r, (d.opcode = .call → r ≠ bradRegLr) → e.core.regs r = core.regs r := by
  obtain hop | hop := hop
  · simp [execute, hop, Executed.jump, CoreState.count]
  · simp only [execute, hop, Executed.jump, CoreState.count, true_and]
    intro r hr
    exact Function.update_of_ne (hr trivial) _ _

/-- Jumps do the same wherever they stand and go, but for the link. -/
theorem sameResults_of_jumps (core core' : CoreState) {d d' : BradInsn} (hop : JumpOp d.opcode)
    (hsame : d'.opcode = d.opcode) (hregs : core.regs = core'.regs) (mem : Nat → Byte)
    (memSize : Nat) (insnPc insnPc' : Word) :
    SameResults d.opcode (execute core d mem memSize insnPc)
      (execute core' d' mem memSize insnPc') := by
  obtain ⟨htaken, hret, hmem, _, hkeep⟩ := execute_jump core hop mem memSize insnPc
  obtain ⟨htaken', hret', hmem', _, hkeep'⟩ :=
    execute_jump core' (hsame ▸ hop) mem memSize insnPc'
  refine ⟨?_, hmem.trans hmem'.symm, hret.trans hret'.symm, htaken.trans htaken'.symm⟩
  intro r hr
  rw [hkeep r hr, hkeep' r (hsame ▸ hr), hregs]

section Stays

variable {body : List Byte} {out : Output} {m : Nat} {t : Pass2} {op : BradOp}

/-- Under `.nocompress` the first word is that of the same jump. -/
theorem FirstStmt.jump_uncompressed (h : FirstStmt body m t)
    (hkind : (lexNext t.lx).tok.kind = .op op) (hop : JumpOp op)
    (hout : bradAsAssemble (underNocompress body) = .ok out) :
    (bradIsaDecode (out.code.getD 0 0)).opcode = op := by
  have hquiet := pass2_of_quiet h.reached h.earlier (pass1 (underNocompress body))
    (bodyStart body false) rfl
  have hreached : after (pass2Step (pass1 (underNocompress body))) (1 + m)
      (pass2Init (underNocompress body)) = .ok { bodyStart body false with lx := t.lx } := by
    rw [after_add_of_ok (after_one.trans (pass2Step_nocompress _ body))]
    exact hquiet
  have hends := pass2_ends (underNocompress body)
  rw [hout] at hends
  obtain ⟨said, lx, stmt, rfl, hformed, hencode, _, hstands⟩ :=
    line_of_accepted (hends.of_after hreached) h.holds hkind
  obtain ⟨op, target, rfl⟩ : ∃ op target, said = .jump op target := by
    cases said with
    | jump op target => exact ⟨op, target, rfl⟩
    | regs op | value op => obtain rfl | rfl := hop <;> cases hformed
    | test op => obtain rfl | rfl := hop <;> obtain h | h := hformed <;> cases h
    | store => obtain h | h := hop <;> cases h
    | ret => obtain h | h := hop <;> cases h
  obtain rfl := Except.ok.inj hencode
  have hplaces := places_first hstands rfl (halvesOf_ne_nil _)
  have hitem := placed_in_output hout hreached hplaces
  have hword : out.code.getD 0 0 = _ := getD_of_halves hitem
  rw [hword, bradJMP_eq, bradIsaDecode_encodedWord]
  rfl

theorem stays_denotes {said : Said} {lx : Lexer} {insn : Hword}
    (h : said = .jump .jmp 0 ∨ said = .jump .call 0)
    (hencode : said.encode true 0 lx = .ok (.insn16 insn)) :
    let d := expandCinsn (bradIsaCdecode insn)
    JumpOp d.opcode ∧ d.opcode = said.op ∧ 0 + 4 + d.imm = 0 ∧ Denotes d 0 said := by
  obtain rfl | rfl := h
  · obtain rfl := Stmt.insn16.inj (Except.ok.inj hencode)
    have himm := (cjump_returns_iff (.inl rfl) 0).mpr rfl
    exact ⟨.inl rfl, rfl, himm, rfl, himm⟩
  · obtain rfl := Stmt.insn16.inj (Except.ok.inj hencode)
    have himm := (cjump_returns_iff (.inr rfl) 0).mpr rfl
    exact ⟨.inr rfl, rfl, himm, rfl, himm⟩

theorem LinePlaced.offset_lt {said : Said} {offset : Nat} (h : LinePlaced body said offset) :
    offset < 2 ^ 32 := by
  obtain ⟨_, _, _, _, _, hplaces⟩ := h
  obtain ⟨_, hfull, rfl⟩ := Stmt.place_eq_some hplaces.placed
  exact Emitter.bytes_lt_of_not_full hfull

theorem honoured_of_firstStays (hplain : PlainBody body)
    (hout : bradAsAssemble (underCompress body) = .ok out) (h : FirstStays body) :
    CompressedHonoured body out := by
  intro memSize q₀ hloaded
  by_cases hlines : ∃ said offset, LinePlaced body said offset
  · obtain ⟨said, offset, n, s, stmt, hs, hevent, _⟩ := hlines
    obtain ⟨m, t, hfirst⟩ := exists_first hs (says_atStmt hevent)
    obtain ⟨said, lx, insn, hformed, hencode, hkind, hevent, hplaces⟩ :=
      FirstStmt.line hfirst hplain hout
    have hline : LinePlaced body said 0 := ⟨m, t, _, hfirst.reached, hevent, hplaces⟩
    obtain ⟨w, hcode, hinsn⟩ := FirstStmt.code hfirst hout hplaces
    obtain ⟨hop, hsaid, himm, hdenotes⟩ := stays_denotes (h said hline) hencode
    have hroom : 4 ≤ memSize := by
      obtain ⟨hlt, _⟩ := List.getElem?_eq_some_iff.mp hcode
      have hsize := hloaded.room
      omega
    -- control stays at the first halfword, which is never written
    have hcycle : ∀ q : Emu, q.core.compressed = true → q.core.pc = 0 → out.In q.mem →
        cycle memSize q =
          let d := expandCinsn (bradIsaCdecode insn)
          some ⟨d, 0, execute { q.core with pc := 4 } d q.mem memSize 0⟩ := by
      intro q hcompressed hpc hin
      have hword : wordAt q.mem 0 = w := hin 0 w hcode
      rw [cycle_at_start hcompressed hpc hroom, hword, hinsn]
    have hstays : Along (cycleStep memSize)
        (fun q => q.core.compressed = true ∧ q.core.pc = 0 ∧ out.In q.mem) q₀ := by
      have hall : Along (cycleStep memSize) (fun _ => True) q₀ := fun _ _ _ => trivial
      apply hall.invariant (Q := fun q => q.core.compressed = true ∧ q.core.pc = 0 ∧ out.In q.mem)
        ⟨hloaded.compressed, hloaded.start, hloaded.code⟩
      rintro q u - ⟨hcompressed, hpc, hin⟩ hstep
      unfold cycleStep at hstep
      rw [hcycle q hcompressed hpc hin] at hstep
      obtain rfl := Except.ok.inj hstep
      obtain ⟨_, _, hmem, hnext, _⟩ :=
        execute_jump { q.core with pc := 4 } hop q.mem memSize 0
      refine ⟨?_, hnext.trans himm, ?_⟩
      · exact (execute_frame _ _ _ _ _).compressed.trans hcompressed
      · dsimp only
        rw [hmem]
        exact hin
    intro n q hq _ said' offset' hline' hat
    obtain ⟨hcompressed, hpc, hin⟩ := hstays n q hq
    obtain rfl : offset' = 0 := by
      have hzero := congrArg BitVec.toNat (hat.symm.trans hpc)
      rw [BitVec.natCast_eq_ofNat, BitVec.toNat_ofNat, Nat.mod_eq_of_lt hline'.offset_lt] at hzero
      exact hzero
    obtain rfl : said = said' := by
      obtain ⟨m', t', hfirst', hevent'⟩ := hline'.first hplain hout
      obtain rfl := First.unique hfirst hfirst'
      exact Option.some.inj (hevent.symm.trans hevent')
    refine ⟨_, hcycle q hcompressed hpc hin, hdenotes, ?_, ?_⟩
    · intro hnot
      rw [(execute_jump _ hop q.mem memSize 0).1] at hnot
      cases hnot
    · intro out' hout'
      have hsame := FirstStmt.jump_uncompressed hfirst hkind (hsaid ▸ hop) hout'
      exact sameResults_of_jumps { q.core with pc := 4 } q.core hop
        (hsame.trans hsaid.symm) rfl q.mem memSize _ _
  · intro n q _ _ said offset hline _
    exact absurd ⟨said, offset, hline⟩ hlines

end Stays

/-- The emulator honours a program of compressed lines exactly if there is no line or the first is a
jump to itself. -/
theorem compressed_honoured_iff {body : List Byte} {out : Output} (hplain : PlainBody body)
    (hout : bradAsAssemble (underCompress body) = .ok out) :
    CompressedHonoured body out ↔ FirstStays body :=
  ⟨firstStays_of_honoured hplain hout, honoured_of_firstStays hplain hout⟩

theorem plainBody_jump : PlainBody (cstr "JMP 0\n") := by
  apply along_of_step
  · intro _
    exact ⟨.jmp, rfl⟩
  · intro s hs
    obtain rfl := Except.ok.inj hs
    apply along_of_step
    · intro hstmt
      cases hstmt
    · intro t ht
      cases ht

theorem compressed_honoured_iff_jump :
    CompressedHonoured (cstr "JMP 0\n") ⟨[0xD000E0FF], 0, []⟩ ↔ FirstStays (cstr "JMP 0\n") :=
  compressed_honoured_iff plainBody_jump rfl

/-- The second of two additions is never executed. -/
theorem twoAdditions_not_honoured :
    ¬ ∀ body out, PlainBody body → bradAsAssemble (underCompress body) = .ok out →
      CompressedHonoured body out := by
  intro hall
  have hout : bradAsAssemble (underCompress (cstr "ADD r1, r1, r1\nADD r2, r2, r2\n")) =
      .ok ⟨[0x02220111], 0, []⟩ := rfl
  have hplain : PlainBody (cstr "ADD r1, r1, r1\nADD r2, r2, r2\n") := by
    apply along_of_step
    · intro _
      exact ⟨.add, rfl⟩
    · intro s hs
      obtain rfl := Except.ok.inj hs
      apply along_of_step
      · intro _
        exact ⟨.add, rfl⟩
      · intro t ht
        obtain rfl := Except.ok.inj ht
        apply along_of_step
        · intro hstmt
          cases hstmt
        · intro u hu
          cases hu
  have hline : LinePlaced (cstr "ADD r1, r1, r1\nADD r2, r2, r2\n") (.regs .add 1 1 1) 0 :=
    ⟨0, bodyStart _ true, _, rfl, rfl, rfl, rfl⟩
  obtain h | h := firstStays_of_honoured hplain hout (hall _ _ hplain hout) _ hline <;> cases h

end BradVector.Bradasm
