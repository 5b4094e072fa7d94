import BradVector.Proof.Labels

/-!
# What is written and what is encoded

The operands an instruction line is written with, at their exact values, against the fields of the
word it is assembled to. They agree when the operands fit the instruction; the assembler does not
check that they do.
-/

namespace BradVector

open CSem

/-! ### The written line -/

/-- A written item: a number at its exact value, a word, or anything else. -/
inductive Item where
  | num (v : Int)
  | word (text : List Byte)
  | other
  deriving DecidableEq, Repr

/-- The item the lexer takes next. A word that goes on behind the 63 bytes of a token is none. -/
def itemAt (lx : Lexer) : Item :=
  let next := lexTake lx
  match next.t.kind with
  | .num => .num (readNumeral (lx.p.dropWhile isBlank) 0).1
  | .id =>
      if next.t.text.length = tokTextSize - 1 ∧ isIdChar (next.p.headD 0) then .other
      else .word next.t.text
  | _ => .other

/-- The items behind the current token, without the commas, with `fuel` tokens left. -/
def itemsAfter : Nat → Lexer → List Item
  | 0, _ => []
  | fuel + 1, lx =>
      let next := lexTake lx
      match next.t.kind with
      | .nl | .eof => []
      | .comma => itemsAfter fuel next
      | _ => itemAt lx :: itemsAfter fuel next

/-- The items behind the current token to the end of the line. -/
def operandsAfter (lx : Lexer) : List Item := itemsAfter (lx.p.length + 1) lx

structure Written where
  mnemonic : List Byte
  pred : Option Item
  operands : List Item
  deriving DecidableEq, Repr

/-- An instruction line as it is written; a predicate stands right behind the mnemonic. -/
def written (h : Lexer) : Written :=
  if (lexTake h).t.kind = .at then
    { mnemonic := h.t.text
      pred := some (itemAt (lexTake h))
      operands := operandsAfter (lexTake (lexTake h)) }
  else { mnemonic := h.t.text, pred := none, operands := operandsAfter h }

/-- The number behind the letter of a register name. -/
def regIndex (text : List Byte) : Option Int :=
  let (v, rest) := readNumeral (text.drop 1) 10
  if text.drop 1 ≠ [] ∧ rest = [] then some v else none

/-! ### The operands of an instruction -/

inductive Field where
  | dst | src1 | src2
  deriving DecidableEq, Repr

def BvInsn.field (i : BvInsn) : Field → BitVec 8
  | .dst => i.dst
  | .src1 => i.src1
  | .src2 => i.src2

/-- An operand of an instruction: a register the executor looks up in a class, an immediate, or a
branch target. -/
inductive Slot where
  | reg (field : Field) (cls : OperandClass)
  | imm
  | target
  deriving DecidableEq, Repr

/-- The operands of a mnemonic in the order they are written, with the register files `execute_insn`
takes them from. `LOADV` writes scalar registers, and `VREDUCE` works on its destination alone. -/
def Opcode.slots : Opcode → List Slot
  | ret | exit | bar | trap => []
  | br | brCond | call => [.target]
  | laneId | warpSz | clock => [.reg .dst .s]
  | addi => [.reg .dst .s, .reg .src1 .s, .imm]
  | cmp => [.reg .dst .p, .reg .src1 .s, .reg .src2 .s]
  | load | loadv => [.reg .dst .s, .reg .src1 .s, .imm]
  | store => [.reg .src1 .s, .reg .dst .s, .imm]
  | storev => [.reg .src1 .s, .reg .dst .v, .imm]
  | vadd | vmul | vmad | vdot => [.reg .dst .v, .reg .src1 .v, .reg .src2 .v]
  | vbroadcast => [.reg .dst .v, .reg .src1 .s]
  | vreduce => [.reg .dst .v]
  | abs | neg | not | popc | clz | sqrt | rsqrt | rcp | sin | cos | exp2 | log2 =>
      [.reg .dst .s, .reg .src1 .s]
  | _ => [.reg .dst .s, .reg .src1 .s, .reg .src2 .s]

/-- `MOV` is written with two registers. -/
def slots (mn : List Byte) (op : Opcode) : List Slot :=
  if mn = cstr "MOV" then [.reg .dst .s, .reg .src1 .s] else op.slots

/-- The decoded instruction has the operand as it is written. -/
def Slot.Faithful (i : BvInsn) : Slot → Item → Prop
  | .reg f c, .word text => letterClass (text.headD 0) = c ∧
    regIndex text = some ((i.field f).toNat : Int)
  | .imm, .num v => i.imm.toInt = v
  | .target, .num v => i.imm.toInt = v
  | .target, .word _ => True
  | _, _ => False

/-- The written operand is of the right kind and class, and an immediate lies in -128 .. 127. -/
def Slot.Fits : Slot → Item → Prop
  | .reg _ c, .word text => letterClass (text.headD 0) = c ∧ (regIndex text).isSome
  | .imm, .num v => -128 ≤ v ∧ v ≤ 127
  | .target, .num v => -128 ≤ v ∧ v ≤ 127
  | .target, .word _ => True
  | _, _ => False

/-- The PRED field is the written predicate's index plus one, 0 without a predicate. -/
def PredFaithful (i : BvInsn) : Option Item → Prop
  | none => i.pred = 0
  | some (.word text) =>
      text.headD 0 = ch 'P' ∧ ∃ k, regIndex text = some k ∧ (i.pred.toNat : Int) = k + 1
  | some _ => False

def PredFits : Option Item → Prop
  | none => True
  | some (.word text) => text.headD 0 = ch 'P' ∧ (regIndex text).isSome
  | some _ => False

/-- Decoding `w` gives back what is written on the line. -/
def Written.Faithful (l : Written) (w : BitVec 64) : Prop :=
  ∃ op, opOf l.mnemonic = some op ∧ (bvDecode w).op = op.toByte ∧ PredFaithful (bvDecode w) l.pred ∧
    List.Forall₂ (Slot.Faithful (bvDecode w)) (slots l.mnemonic op) l.operands

/-- The line is written with the operands of its mnemonic, no more and no fewer, each one
fitting. -/
def Written.Fits (l : Written) : Prop :=
  ∃ op, opOf l.mnemonic = some op ∧ PredFits l.pred ∧
    List.Forall₂ Slot.Fits (slots l.mnemonic op) l.operands

theorem Slot.Faithful.fits {i : BvInsn} {s : Slot} {it : Item} (h : s.Faithful i it) :
    s.Fits it := by
  have hlo := i.imm.le_toInt
  have hhi := i.imm.toInt_lt
  cases s <;> cases it <;> simp only [Slot.Faithful, Slot.Fits] at h ⊢
  · exact ⟨h.1, by simp [h.2]⟩
  · omega
  · omega

theorem PredFaithful.fits {i : BvInsn} {pred : Option Item} (h : PredFaithful i pred) :
    PredFits pred := by
  match pred, h with
  | none, _ => trivial
  | some (.word text), ⟨hletter, k, hk, _⟩ => exact ⟨hletter, by simp [hk]⟩

theorem Written.Faithful.fits {l : Written} {w : BitVec 64} (h : l.Faithful w) : l.Fits := by
  obtain ⟨op, hop, -, hpred, hops⟩ := h
  exact ⟨op, hop, hpred.fits, hops.imp fun _ _ h => h.fits⟩

/-! ### Items and tokens -/

theorem itemsAfter_eq {fuel fuel' : Nat} {lx : Lexer} (h : lx.p.length < fuel)
    (h' : lx.p.length < fuel') : itemsAfter fuel lx = itemsAfter fuel' lx := by
  apply fuel_induction (fun lx => lx.p.length)
    (P := fun fuel fuel' lx => itemsAfter fuel lx = itemsAfter fuel' lx) _ h h'
  intro fuel fuel' lx _ ih
  have hroom := lexTake_room_le lx
  by_cases hend : (lexTake lx).t.kind = .eof
  · simp [itemsAfter, hend]
  · rw [Lexer.room, if_neg hend] at hroom
    have hrest := ih (lexTake lx) (by omega)
    simp only [itemsAfter, hrest]

section Items

variable {lx : Lexer}

theorem itemsAfter_lexTake (hend : (lexTake lx).t.kind ≠ .eof) :
    itemsAfter lx.p.length (lexTake lx) = operandsAfter (lexTake lx) := by
  have hroom := lexTake_room_le lx
  rw [Lexer.room, if_neg hend] at hroom
  exact itemsAfter_eq (by omega) (by omega)

theorem operandsAfter_comma (h : (lexTake lx).t.kind = .comma) :
    operandsAfter lx = operandsAfter (lexTake lx) := by
  rw [← itemsAfter_lexTake (by simp [h]), operandsAfter, itemsAfter]
  simp [h]

theorem operandsAfter_item (h : (lexTake lx).t.kind = .num ∨ (lexTake lx).t.kind = .id) :
    operandsAfter lx = itemAt lx :: operandsAfter (lexTake lx) := by
  rw [← itemsAfter_lexTake (by rcases h with h | h <;> simp [h]), operandsAfter, itemsAfter]
  rcases h with h | h <;> simp [h]

theorem nextSrc_eq (lx : Lexer) :
    ∃ l, nextSrc lx = lexTake l ∧ operandsAfter l = operandsAfter lx := by
  by_cases h : (lexTake lx).t.kind = .comma
  · exact ⟨lexTake lx, by simp [nextSrc, h], (operandsAfter_comma h).symm⟩
  · exact ⟨lx, by simp [nextSrc, h], rfl⟩

theorem lexTake_ival (h : (lexTake lx).t.kind = .num) :
    (lexTake lx).t.ival = BitVec.ofInt 32 (strtol (lx.p.dropWhile isBlank) 0).1 := by
  have hform := lexTake_form lx
  generalize lx.p.dropWhile isBlank = s at hform ⊢
  generalize lexTake lx = lx' at h hform ⊢
  cases hform with
  | numeral => rfl
  | mark c rest kind hkind =>
      rcases hkind with rfl | rfl | rfl | rfl
      all_goals cases h
  | _ => cases h

theorem setWidth_ofInt_toInt {v : Int} (hlo : -128 ≤ v) (hhi : v ≤ 127) :
    ((BitVec.ofInt 32 v).setWidth 8).toInt = v := by
  have hval : (BitVec.ofInt 32 v).setWidth 8 = BitVec.ofInt 8 v := by
    apply BitVec.eq_of_toNat_eq
    simp only [BitVec.toNat_setWidth, BitVec.toNat_ofInt]
    omega
  rw [hval, toInt_ofInt_8 hlo hhi]

theorem imm_of_item {v : Int} (hkind : (lexTake lx).t.kind = .num) (hitem : itemAt lx = .num v)
    (hlo : -128 ≤ v) (hhi : v ≤ 127) : ((lexTake lx).t.ival.setWidth 8).toInt = v := by
  have hv : (readNumeral (lx.p.dropWhile isBlank) 0).1 = v := by
    simpa [itemAt, hkind] using hitem
  have hstrtol : (strtol (lx.p.dropWhile isBlank) 0).1 = v := by
    rw [strtol_fst_of_le] <;> simp only [hv, longMin, longMax] <;> omega
  rw [lexTake_ival hkind, hstrtol, setWidth_ofInt_toInt hlo hhi]

theorem word_of_item {text : List Byte} (hitem : itemAt lx = .word text) :
    (lexTake lx).t.kind = .id ∧ (lexTake lx).t.text = text := by
  unfold itemAt at hitem
  dsimp only at hitem
  split at hitem
  · cases hitem
  · split_ifs at hitem
    exact ⟨‹_›, Item.word.inj hitem⟩
  · cases hitem

/-- A written index that `strtol` brought into the range of a register file. -/
theorem strtol_of_regIndex {text : List Byte} {k : Int} (hk : regIndex text = some k)
    (hnonneg : 0 ≤ (strtol (text.drop 1) 10).1) (hlt : (strtol (text.drop 1) 10).1 < 256) :
    (strtol (text.drop 1) 10).1 = k := by
  have hread : (readNumeral (text.drop 1) 10).1 = (strtol (text.drop 1) 10).1 :=
    readNumeral_fst_of_strtol (by simp only [longMin]; omega) (by simp only [longMax]; omega)
  unfold regIndex at hk
  dsimp only at hk
  split_ifs at hk
  rw [← hread]
  exact Option.some.inj hk

theorem OperandClass.regs_le (c : OperandClass) : c.regs ≤ 256 := by
  cases c <;> decide

theorem operand_of_item {o : Operand} {text : List Byte}
    (hparse : parseOperand (lexTake lx).t = some o) (hitem : itemAt lx = .word text) :
    o.cls = letterClass (text.headD 0) ∧ ∀ k, regIndex text = some k →
    (o.byte.toNat : Int) = k := by
  obtain ⟨hkind, htext⟩ := word_of_item hitem
  have hform := parseOperand_form hparse
  cases hform with
  | number hnum => simp [hkind] at hnum
  | register _ _ hstop hnonneg hlt =>
      have hregs := OperandClass.regs_le (letterClass ((lexTake lx).t.text.headD 0))
      rw [htext] at hnonneg hlt hregs ⊢
      refine ⟨rfl, fun k hk => ?_⟩
      have hval := strtol_of_regIndex hk hnonneg (by omega)
      simp only [Operand.byte, BitVec.toNat_setWidth, BitVec.toNat_ofInt]
      omega

end Items

/-! ### Lines that fit are encoded as written -/

section Accepted

variable {h lx lx' : Lexer} {pred : BitVec 8}

/-- The first operand's token follows the items already read. -/
theorem PredForm.start_eq (hform : PredForm h lx pred) :
    ∃ l, lx = lexTake l ∧ operandsAfter l = (written h).operands := by
  cases hform with
  | absent hat => exact ⟨h, rfl, by simp [written, hat]⟩
  | present hat =>
      obtain ⟨l, hl, hops⟩ := nextSrc_eq (lexTake (lexTake h))
      exact ⟨l, hl, by simp [written, hat, hops]⟩

theorem PredForm.faithful (hform : PredForm h lx pred) (hfits : PredFits (written h).pred)
    {i : BvInsn} (hi : i.pred = pred) : PredFaithful i (written h).pred := by
  cases hform with
  | absent hat => simpa [written, hat, PredFaithful] using hi
  | present hat hkind hletter hstop hnonneg hlt =>
      simp only [written, if_pos hat] at hfits ⊢
      cases hitem : itemAt (lexTake h) with
      | num v => simp [hitem, PredFits] at hfits
      | other => simp [hitem, PredFits] at hfits
      | word text =>
          obtain ⟨-, htext⟩ := word_of_item hitem
          rw [hitem] at hfits
          obtain ⟨hP, hindex⟩ := hfits
          obtain ⟨k, hk⟩ := Option.isSome_iff_exists.mp hindex
          simp only [htext, predRegs] at hnonneg hlt
          have hval := strtol_of_regIndex hk hnonneg (by omega)
          refine ⟨hP, k, hk, ?_⟩
          simp only [hi, htext, hval, BitVec.toNat_add, BitVec.toNat_ofInt,
            show (1 : BitVec 8).toNat = 1 from rfl]
          omega

theorem reg_faithful {o : Operand} {l : Lexer} {f : Field} {c : OperandClass} {i : BvInsn}
    (hparse : parseOperand (lexTake l).t = some o) (hfits : (Slot.reg f c).Fits (itemAt l))
    (hi : i.field f = o.byte) : o.cls = c ∧ (Slot.reg f c).Faithful i (itemAt l) := by
  cases hitem : itemAt l with
  | num v => simp [hitem, Slot.Fits] at hfits
  | other => simp [hitem, Slot.Fits] at hfits
  | word text =>
      rw [hitem] at hfits
      obtain ⟨hcls, hindex⟩ := hfits
      obtain ⟨k, hk⟩ := Option.isSome_iff_exists.mp hindex
      obtain ⟨hocls, hbyte⟩ := operand_of_item hparse hitem
      exact ⟨hocls.trans hcls, hcls, by rw [hi, hbyte k hk, hk]⟩

theorem imm_faithful {l : Lexer} {i : BvInsn} (hkind : (lexTake l).t.kind = .num)
    (hfits : Slot.imm.Fits (itemAt l)) (hi : i.imm = (lexTake l).t.ival.setWidth 8) :
    Slot.imm.Faithful i (itemAt l) := by
  cases hitem : itemAt l with
  | num v =>
      rw [hitem] at hfits
      exact (congrArg BitVec.toInt hi).trans (imm_of_item hkind hitem hfits.1 hfits.2)
  | word text => simp [hitem, Slot.Fits] at hfits
  | other => simp [hitem, Slot.Fits] at hfits

theorem target_faithful {a : BradcAsm} {l : Lexer} {op : BitVec 8} {w : BitVec 64}
    (hok : branchWord a (lexTake l) op pred = .ok w) (hfits : Slot.target.Fits (itemAt l)) :
    (bvDecode w).op = op ∧ (bvDecode w).pred = pred ∧
      Slot.target.Faithful (bvDecode w) (itemAt l) := by
  cases hkind : (lexTake l).t.kind with
  | num =>
      cases hitem : itemAt l with
      | num v =>
          rw [hitem] at hfits
          simp only [branchWord, hkind] at hok
          obtain rfl := Except.ok.inj hok
          rw [bvDecode_bven]
          exact ⟨rfl, rfl, imm_of_item hkind hitem hfits.1 hfits.2⟩
      | word text => simp [(word_of_item hitem).1] at hkind
      | other => simp [hitem, Slot.Fits] at hfits
  | id =>
      obtain ⟨s, -, -, -, -, rfl⟩ := branchWord_of_label hok hkind
      rw [bvDecode_bven]
      refine ⟨rfl, rfl, ?_⟩
      cases hitem : itemAt l with
      | num v =>
          unfold itemAt at hitem
          simp only [hkind] at hitem
          split_ifs at hitem
      | word text => trivial
      | other => simp [hitem, Slot.Fits] at hfits
  | _ => simp [branchWord, hkind, bErr] at hok

theorem branchWord_kind {a : BradcAsm} {op : BitVec 8} {w : BitVec 64}
    (hok : branchWord a lx op pred = .ok w) : lx.t.kind = .num ∨ lx.t.kind = .id := by
  unfold branchWord bErr at hok
  split at hok
  · exact Or.inl ‹_›
  · exact Or.inr ‹_›
  · cases hok

/-- The two-source opcodes are written with three registers, or have a vector destination. -/
theorem slots_twoSources {mn : List Byte} {op : Opcode} (hop : opOf mn = some op)
    (hplain : ¬ op.isPlain) (hjump : ¬ op.isJump) (hspecial : ¬ op.isSpecial) (hcmp : op ≠ .cmp)
    (hmem : op.isMemory = false) (haddi : op ≠ .addi) (hone : op.isOneSource = false) :
    op.dstClass = .s ∧ (op.slots = [.reg .dst .s, .reg .src1 .s, .reg .src2 .s] ∨
      op.slots.head? = some (.reg .dst .v)) := by
  have hall : ∀ op ∈ optab.map Prod.snd, ¬ op.isPlain → ¬ op.isJump → ¬ op.isSpecial → op ≠ .cmp →
      op.isMemory = false → op ≠ .addi → op.isOneSource = false →
      op.dstClass = .s ∧ (op.slots = [.reg .dst .s, .reg .src1 .s, .reg .src2 .s] ∨
        op.slots.head? = some (.reg .dst .v)) := by decide
  exact hall op (mem_of_opOf hop) hplain hjump hspecial hcmp hmem haddi hone

theorem slots_oneSource {op : Opcode} (hone : op.isOneSource = true) :
    op.dstClass = .s ∧ op.slots = [.reg .dst .s, .reg .src1 .s] := by
  cases op <;> first | exact ⟨rfl, rfl⟩ | cases hone

theorem opOf_mov : opOf (cstr "MOV") = some .addi := by decide

theorem slots_eq {mn : List Byte} {op : Opcode} (hop : opOf mn = some op) (hne : op ≠ .addi) :
    slots mn op = op.slots := by
  refine if_neg fun hmn => hne ?_
  rw [hmn, opOf_mov] at hop
  exact (Option.some.inj hop).symm

end Accepted

theorem operandsAfter_nextSrc {lx : Lexer}
    (hkind : (nextSrc lx).t.kind = .num ∨ (nextSrc lx).t.kind = .id) :
    ∃ l, nextSrc lx = lexTake l ∧ operandsAfter lx = itemAt l :: operandsAfter (nextSrc lx) := by
  obtain ⟨l, hl, hops⟩ := nextSrc_eq lx
  rw [hl] at hkind
  exact ⟨l, hl, by rw [← hops, operandsAfter_item hkind, hl]⟩

theorem kind_of_reg_fits {l : Lexer} {f : Field} {c : OperandClass}
    (hfits : (Slot.reg f c).Fits (itemAt l)) : (lexTake l).t.kind = .id := by
  cases hitem : itemAt l with
  | num v => simp [hitem, Slot.Fits] at hfits
  | word text => exact (word_of_item hitem).1
  | other => simp [hitem, Slot.Fits] at hfits

theorem cmpSource_kind {t : Tok} {b : Operand} (h : cmpSource t = some b) :
    t.kind = .num ∨ t.kind = .id := by
  unfold cmpSource at h
  split_ifs at h with hnum
  · exact Or.inl hnum
  · split at h
    · exact (parseOperand_form ‹_›).kind
    · cases h

theorem cmpSource_eq_parseOperand {t : Tok} {b : Operand} (h : cmpSource t = some b)
    (hkind : t.kind = .id) : parseOperand t = some b := by
  unfold cmpSource at h
  rw [if_neg (by simp [hkind])] at h
  split at h
  · rename_i b₂ hparse
    split_ifs at h
    rw [hparse, h]
  · cases h

theorem forall₂_nil {α β : Type} {R S : α → β → Prop} {l : List β} (h : List.Forall₂ R [] l) :
    List.Forall₂ S [] l := by
  cases h
  exact .nil

section Sources

variable {a : BradcAsm} {l₀ l₁ lx' : Lexer} {mn : List Byte} {op : Opcode} {pred : BitVec 8}
  {d a1 : Operand} {w : BitVec 64}

/-- An instruction with a destination at `l₀` and a first source at `l₁` whose operands fit is
encoded as written. -/
theorem SourcesForm.faithful (hform : SourcesForm (lexTake l₁) mn op pred d a1 lx' w)
    (hop : opOf mn = some op) (hplain : ¬ op.isPlain) (hjump : ¬ op.isJump)
    (hspecial : ¬ op.isSpecial) (hd : parseOperand (lexTake l₀).t = some d)
    (hdcls : d.cls = op.dstClass) (ha : parseOperand (lexTake l₁).t = some a1)
    (hfits : List.Forall₂ Slot.Fits (slots mn op)
      (itemAt l₀ :: itemAt l₁ :: operandsAfter (lexTake l₁))) :
    (bvDecode w).op = op.toByte ∧ (bvDecode w).pred = pred ∧
      List.Forall₂ (Slot.Faithful (bvDecode w)) (slots mn op)
        (itemAt l₀ :: itemAt l₁ :: operandsAfter (lexTake l₁)) := by
  cases hform with
  | compare hcmp hb =>
      subst hcmp
      obtain ⟨l₂, hl₂, hops⟩ := operandsAfter_nextSrc (cmpSource_kind hb)
      rw [slots_eq hop (by decide), hops] at hfits ⊢
      simp only [Opcode.slots, List.forall₂_cons] at hfits ⊢
      obtain ⟨hfd, hfa, hfb, hrest⟩ := hfits
      rw [hl₂] at hb
      have hb' := cmpSource_eq_parseOperand hb (kind_of_reg_fits hfb)
      rw [bvDecode_bven]
      exact ⟨rfl, rfl, (reg_faithful hd hfd rfl).2, (reg_faithful ha hfa rfl).2,
        (reg_faithful hb' hfb rfl).2, forall₂_nil hrest⟩
  | load hop' hbase hval hnum =>
      obtain ⟨l₂, hl₂, hops⟩ := operandsAfter_nextSrc (Or.inl hnum)
      rw [hl₂] at hnum hops ⊢
      rcases hop' with rfl | rfl
      · rw [slots_eq hop (by decide), hops] at hfits ⊢
        simp only [Opcode.slots, List.forall₂_cons] at hfits ⊢
        obtain ⟨hfd, hfa, hfi, hrest⟩ := hfits
        rw [bvDecode_bven]
        exact ⟨rfl, rfl, (reg_faithful hd hfd rfl).2, (reg_faithful ha hfa rfl).2,
          imm_faithful hnum hfi rfl, forall₂_nil hrest⟩
      · -- the destination of `LOADV` is asked to be a vector and a scalar register
        rw [hval] at hdcls
        cases hdcls
  | store hop' hbase hval hnum =>
      obtain ⟨l₂, hl₂, hops⟩ := operandsAfter_nextSrc (Or.inl hnum)
      rw [hl₂] at hnum hops ⊢
      rcases hop' with rfl | rfl
      all_goals
        rw [slots_eq hop (by decide), hops] at hfits ⊢
        simp only [Opcode.slots, List.forall₂_cons] at hfits ⊢
        obtain ⟨hfd, hfa, hfi, hrest⟩ := hfits
        rw [bvDecode_bven]
        exact ⟨rfl, rfl, (reg_faithful hd hfd rfl).2, (reg_faithful ha hfa rfl).2,
          imm_faithful hnum hfi rfl, forall₂_nil hrest⟩
  | move hmn =>
      obtain rfl : op = .addi := by
        rw [hmn, opOf_mov] at hop
        exact (Option.some.inj hop).symm
      simp only [slots, if_pos hmn, List.forall₂_cons] at hfits ⊢
      obtain ⟨hfd, hfa, hrest⟩ := hfits
      rw [bvDecode_bven]
      exact ⟨rfl, rfl, (reg_faithful hd hfd rfl).2, (reg_faithful ha hfa rfl).2, forall₂_nil hrest⟩
  | immediate haddi hmn hnum =>
      subst haddi
      obtain ⟨l₂, hl₂, hops⟩ := operandsAfter_nextSrc (Or.inl hnum)
      rw [hl₂] at hnum hops ⊢
      rw [hops] at hfits ⊢
      simp only [slots, if_neg hmn, Opcode.slots, List.forall₂_cons] at hfits ⊢
      obtain ⟨hfd, hfa, hfi, hrest⟩ := hfits
      rw [bvDecode_bven]
      exact ⟨rfl, rfl, (reg_faithful hd hfd rfl).2, (reg_faithful ha hfa rfl).2,
        imm_faithful hnum hfi rfl, forall₂_nil hrest⟩
  | oneSource hone =>
      have hne : op ≠ .addi := by
        rintro rfl
        cases hone
      rw [slots_eq hop hne, (slots_oneSource hone).2] at hfits ⊢
      simp only [List.forall₂_cons] at hfits ⊢
      obtain ⟨hfd, hfa, hrest⟩ := hfits
      rw [bvDecode_bven]
      exact ⟨rfl, rfl, (reg_faithful hd hfd rfl).2, (reg_faithful ha hfa rfl).2, forall₂_nil hrest⟩
  | twoSources hcmp hmem haddi hone hnum hparse hcls =>
      obtain ⟨l₂, hl₂, hops⟩ := operandsAfter_nextSrc (parseOperand_form hparse).kind
      rw [hl₂] at hparse hops
      rw [slots_eq hop haddi, hops] at hfits ⊢
      obtain ⟨hdst, hslots | hvector⟩ :=
        slots_twoSources hop hplain hjump hspecial hcmp hmem haddi hone
      · rw [hslots] at hfits ⊢
        simp only [List.forall₂_cons] at hfits ⊢
        obtain ⟨hfd, hfa, hfb, hrest⟩ := hfits
        rw [bvDecode_bven]
        exact ⟨rfl, rfl, (reg_faithful hd hfd rfl).2, (reg_faithful ha hfa rfl).2,
          (reg_faithful hparse hfb rfl).2, forall₂_nil hrest⟩
      · -- a scalar destination was accepted where the executor has a vector
        cases hs : op.slots with
        | nil => simp [hs] at hvector
        | cons s rest =>
            rw [hs, List.forall₂_cons] at hfits
            obtain rfl : s = .reg .dst .v := by simpa [hs] using hvector
            have hv := (reg_faithful (i := ⟨0, 0, 0, d.byte, 0, 0, 0, 0, 0⟩) hd hfits.1 rfl).1
            rw [hdcls, hdst] at hv
            cases hv

end Sources

/-- An accepted line whose operands fit is encoded as written. -/
theorem insnWord_faithful {a : BradcAsm} {h lx' : Lexer} {w : BitVec 64}
    (hok : insnWord a h = .ok (lx', w)) (hfits : (written h).Fits) : (written h).Faithful w := by
  obtain ⟨op, pred, start, hop, hpred, hform⟩ := insnWord_form hok
  have hmn : (written h).mnemonic = h.t.text := by
    unfold written
    split_ifs <;> rfl
  obtain ⟨op', hop', hpfits, hops⟩ := hfits
  rw [hmn] at hop' hops
  obtain rfl : op = op' := Option.some.inj (hop.symm.trans hop')
  obtain ⟨l₀, hl₀, hoperands⟩ := hpred.start_eq
  rw [← hoperands] at hops
  have hdone (hw : (bvDecode w).op = op.toByte ∧ (bvDecode w).pred = pred ∧
      List.Forall₂ (Slot.Faithful (bvDecode w)) (slots h.t.text op) (operandsAfter l₀)) :
      (written h).Faithful w :=
    ⟨op, hmn.symm ▸ hop, hw.1, hpred.faithful hpfits hw.2.1, by rw [hmn, ← hoperands]; exact hw.2.2⟩
  apply hdone
  cases hform with
  | plain hplain =>
      have hne : op ≠ .addi := by
        rintro rfl
        simp [Opcode.isPlain] at hplain
      have hnil : op.slots = [] := by rcases hplain with rfl | rfl | rfl | rfl <;> rfl
      rw [slots_eq hop hne, hnil] at hops ⊢
      rw [bvDecode_bven]
      exact ⟨rfl, rfl, forall₂_nil hops⟩
  | jump hjump hw =>
      have hne : op ≠ .addi := by
        rintro rfl
        simp [Opcode.isJump] at hjump
      have hone : op.slots = [.target] := by rcases hjump with rfl | rfl | rfl <;> rfl
      rw [hl₀] at hw
      rw [slots_eq hop hne, hone, operandsAfter_item (branchWord_kind hw),
        List.forall₂_cons] at hops ⊢
      obtain ⟨hfaithful, hpredw, htarget⟩ := target_faithful hw hops.1
      exact ⟨hfaithful, hpredw, htarget, forall₂_nil hops.2⟩
  | special hspecial hparse hcls =>
      have hne : op ≠ .addi := by
        rintro rfl
        simp [Opcode.isSpecial] at hspecial
      have hone : op.slots = [.reg .dst .s] := by rcases hspecial with rfl | rfl | rfl <;> rfl
      rw [hl₀] at hparse
      rw [slots_eq hop hne, hone, operandsAfter_item (parseOperand_form hparse).kind,
        List.forall₂_cons] at hops ⊢
      rw [bvDecode_bven]
      exact ⟨rfl, rfl, (reg_faithful hparse hops.1 rfl).2, forall₂_nil hops.2⟩
  | sources hplain hjump hspecial hparse hcls hparse' hform =>
      obtain ⟨l₁, hl₁, hrest⟩ := operandsAfter_nextSrc (parseOperand_form hparse').kind
      rw [hl₁] at hparse' hrest hform
      rw [hl₀] at hparse hrest
      rw [operandsAfter_item (parseOperand_form hparse).kind, hrest] at hops ⊢
      exact hform.faithful hop hplain hjump hspecial hparse hcls hparse' hops

/-- **Faithful encoding.** Decoding the word an instruction line of an accepted source is assembled
to gives back what is written exactly when the written operands are those of the mnemonic, each one
of the class the executor uses, with immediates and numeric branch offsets in -128 .. 127. -/
theorem bradcAssemble_faithful_iff {source : List Byte} {img img' : BvbcImage}
    {words : List (BitVec 64)} (hinsns : img.insns = .array words)
    (hok : bradcAssemble source img = .ok img') :
    ∀ n h, (sourceLines source)[n]? = some h → lineKind h = .insn →
      ((written h).Faithful (img'.insn (posAt (sourceLines source) n).ninsn) ↔
        (written h).Fits) := by
  intro n h hget hkind
  obtain ⟨syms, -, -, hemitted⟩ := bradcAssemble_emitted hinsns hok
  obtain ⟨-, a, lx', w, hword, -, -, hinsn⟩ := hemitted n h hget hkind
  rw [hinsn.insn_eq]
  exact ⟨Written.Faithful.fits, insnWord_faithful hword⟩

/-- A kernel that adds an immediate. -/
def addiSource (imm : String) : List Byte :=
  cstr ".kernel k\nADDi S1, S2, " ++ cstr imm ++ cstr "\n.end"

theorem addiSource_faithful_iff :
    ∃ img', bradcAssemble (addiSource "5") BvbcImage.zero = .ok img' ∧
      ∀ n h, (sourceLines (addiSource "5"))[n]? = some h → lineKind h = .insn →
        ((written h).Faithful (img'.insn (posAt (sourceLines (addiSource "5")) n).ninsn) ↔
          (written h).Fits) := by
  have hok : (bradcAssemble (addiSource "5") BvbcImage.zero).isOk = true := by decide
  cases h : bradcAssemble (addiSource "5") BvbcImage.zero with
  | error e => simp [h, Except.isOk, Except.toBool] at hok
  | ok img' =>
      exact ⟨img', rfl,
        bradcAssemble_faithful_iff (show BvbcImage.zero.insns = .array [] from rfl) h⟩

/-- The immediate 300 is accepted, and no immediate field holds it. -/
theorem not_forall_bradcAssemble_faithful :
    ¬ ∀ (source : List Byte) (img img' : BvbcImage) (words : List (BitVec 64)),
      img.insns = .array words → bradcAssemble source img = .ok img' →
        ∀ n h, (sourceLines source)[n]? = some h → lineKind h = .insn →
          (written h).Faithful (img'.insn (posAt (sourceLines source) n).ninsn) := by
  intro hall
  have hok : (bradcAssemble (addiSource "300") BvbcImage.zero).isOk = true := by decide
  cases h : bradcAssemble (addiSource "300") BvbcImage.zero with
  | error e => simp [h, Except.isOk, Except.toBool] at hok
  | ok img' =>
      obtain ⟨line, hline, hkind, hwritten⟩ : ∃ line,
          (sourceLines (addiSource "300"))[1]? = some line ∧
          lineKind line = .insn ∧ written line =
            ⟨cstr "ADDi", none, [.word (cstr "S1"), .word (cstr "S2"), .num 300]⟩ := by
        have hany : (sourceLines (addiSource "300"))[1]?.any (fun l =>
            lineKind l = .insn ∧ written l =
              ⟨cstr "ADDi", none, [.word (cstr "S1"), .word (cstr "S2"), .num 300]⟩) = true := by
          decide
        simpa [Option.any_eq_true] using hany
      obtain ⟨op, hop, -, -, hops⟩ := hall _ _ img' [] rfl h 1 line hline hkind
      have haddi : opOf (cstr "ADDi") = some .addi := by decide
      have hmov : cstr "ADDi" ≠ cstr "MOV" := by decide
      rw [hwritten] at hop hops
      obtain rfl : op = .addi := Option.some.inj (hop.symm.trans haddi)
      simp only [slots, if_neg hmov, Opcode.slots, List.forall₂_cons, Slot.Faithful] at hops
      have hlt :=
        (bvDecode (img'.insn (posAt (sourceLines (addiSource "300")) 1).ninsn)).imm.toInt_lt
      omega

end BradVector
