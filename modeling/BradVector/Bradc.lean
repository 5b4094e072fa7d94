import BradVector.Bvbc
import BradVector.Library.Ctype

/-!
# The `bradc` assembler

`bradc.c`: the tokenizer, the symbol table, the operands and the two passes of `bradc_assemble`. A
refused source comes with the line and the text of the error and the image as it then is.
-/

namespace BradVector

open CSem

def bradcMaxSymbols : Nat := 1024

/-! ### Tokenizer -/

/-- The part of the C library the builds differ in: the host's `strtol`, or the browser's own. -/
class Libc where
  strtol : List Byte → Nat → Int × List Byte

/-- The library of the host build. -/
instance hostLibc : Libc := ⟨CSem.strtol⟩

@[simp]
theorem host_strtol (s : List Byte) (base : Nat) : Libc.strtol s base = CSem.strtol s base := rfl

inductive TokKind where
  | eof | id | num | colon | comma | nl | at | dot
  deriving DecidableEq, Repr

/-- `struct tok`; `text` is the string in the 64-byte array. -/
structure Tok where
  kind : TokKind
  text : List Byte
  ival : Word
  deriving DecidableEq, Repr

/-- A token without text and value. -/
def Tok.plain (kind : TokKind) : Tok := ⟨kind, [], 0⟩

/-- `struct lexer`: the text from `p` on, the line and the current token. -/
structure Lexer where
  p : List Byte
  line : Nat
  t : Tok
  deriving DecidableEq, Repr

def tokTextSize : Nat := 64

def isBlank (b : Byte) : Bool := b == ch ' ' || b == ch '\t'

/-- The characters of an identifier behind its first one. -/
def isIdChar (b : Byte) : Bool := isAlnum b || b == ch '_' || b == ch '+' || b == ch '-'

def lexTake [Libc] (lx : Lexer) : Lexer :=
  match lx.p.dropWhile isBlank with
  | [] => { lx with p := [], t := .plain .eof }
  | c :: rest =>
      if c = 0 then { lx with p := c :: rest, t := .plain .eof }
      else if c = ch '\n' then ⟨rest, lx.line + 1, .plain .nl⟩
      else if c = ch ';' ∨ c = ch '#' then
        { lx with p := (c :: rest).dropWhile fun b => b ≠ 0 ∧ b ≠ ch '\n', t := .plain .nl }
      else if c = ch ',' then { lx with p := rest, t := .plain .comma }
      else if c = ch ':' then { lx with p := rest, t := .plain .colon }
      else if c = ch '@' then { lx with p := rest, t := .plain .at }
      else if c = ch '.' then { lx with p := rest, t := .plain .dot }
      else if isDigit c ∨ c = ch '-' ∧ isDigit (rest.headD 0) then
        let (v, stop) := Libc.strtol (c :: rest) 0
        { lx with p := stop, t := ⟨.num, [], BitVec.ofInt 32 v⟩ }
      else if isAlpha c ∨ c = ch '_' then
        let text := ((c :: rest).takeWhile isIdChar).take (tokTextSize - 1)
        { lx with p := (c :: rest).drop text.length, t := ⟨.id, text, 0⟩ }
      else { lx with p := rest, t := ⟨.id, [c], 0⟩ }

def lxInit (src : List Byte) : Lexer := ⟨src, 1, .plain .eof⟩

/-- The loop of `skip_line`, with `fuel` iterations left. -/
def skipLoop [Libc] : Nat → Lexer → Lexer
  | 0, lx => lx
  | fuel + 1, lx =>
      match lx.t.kind with
      | .eof => lx
      | .nl => lexTake lx
      | _ => skipLoop fuel (lexTake lx)

/-- `skip_line`. Every token but the last takes a byte, so the text bounds the iterations. -/
def skipLine [Libc] (lx : Lexer) : Lexer := skipLoop (lx.p.length + 2) lx

/-! ### Symbol table -/

structure BradcSymbol where
  name : List Byte
  addr : Nat
  deriving DecidableEq, Repr

/-- `struct bradc_asm`. An accepted source has at most `BVBC_MAX_INSN` instructions, so that the
counter of a kernel does not wrap. -/
structure BradcAsm where
  img : BvbcImage
  syms : List BradcSymbol
  inKernel : Bool
  kpc : Nat

structure BradcError where
  line : Nat
  msg : List Byte
  deriving DecidableEq, Repr

/-- A result, or the error `b_err` fills in and the image as left. -/
abbrev AsmResult := Except (BradcError × BvbcImage)

/-- The symbol `b_find` gives the index of. -/
def bFind (a : BradcAsm) (name : List Byte) : Option BradcSymbol :=
  a.syms.find? fun s => s.name = name

/-- A full table drops the symbol; no caller looks at the result. -/
def bAdd (a : BradcAsm) (name : List Byte) (addr : Nat) : BradcAsm :=
  if bradcMaxSymbols ≤ a.syms.length then a
  else { a with syms := a.syms ++ [⟨name, addr⟩] }

/-- `b_err` and the return of -1 after it. -/
def bErr {α : Type} (a : BradcAsm) (line : Nat) (msg : List Byte) : AsmResult α :=
  .error (⟨line, msg⟩, a.img)

/-! ### Operands -/

inductive OperandClass where
  | none | s | v | p
  deriving DecidableEq, Repr

structure Operand where
  isReg : Bool
  cls : OperandClass
  num : Word
  deriving DecidableEq, Repr

/-- The class a register name's first letter asks for. -/
def letterClass (r : Byte) : OperandClass :=
  if r = ch 'S' ∨ r = ch 's' then .s
  else if r = ch 'V' ∨ r = ch 'v' then .v
  else if r = ch 'P' ∨ r = ch 'p' then .p
  else .none

/-- The number of registers of a class. -/
def OperandClass.regs : OperandClass → Nat
  | .s => scalarRegs
  | .v => vecRegs
  | _ => predRegs

def parseReg [Libc] (t : Tok) (cls : OperandClass) : Option Operand :=
  if t.kind ≠ .id then none
  else if letterClass (t.text.headD 0) ≠ cls then none
  else
    let (v, stop) := Libc.strtol (t.text.drop 1) 10
    if stop ≠ [] ∨ v < 0 ∨ (cls.regs : Int) ≤ v then none
    else some { isReg := true, cls, num := BitVec.ofInt 32 v }

def parseOperand [Libc] (t : Tok) : Option Operand :=
  match t.kind with
  | .num => some { isReg := false, cls := .none, num := t.ival }
  | .id => parseReg t .s <|> parseReg t .v <|> parseReg t .p
  | _ => none

/-- `(uint8_t)o.num`. -/
def Operand.byte (o : Operand) : BitVec 8 := o.num.setWidth 8

def nextSrc [Libc] (lx : Lexer) : Lexer :=
  let lx := lexTake lx
  if lx.t.kind = .comma then lexTake lx else lx

/-! ### Instruction assembly -/

def bEmit (a : BradcAsm) (insn : BitVec 64) (line : Nat) : AsmResult BradcAsm :=
  if a.inKernel = false then bErr a line (cstr "instruction outside .kernel/.end")
  else
    match bvbcEmit a.img insn with
    | none => bErr a line (cstr "instruction stream full (65536)")
    | some img => .ok { a with img, kpc := a.kpc + 1 }

/-- `b_branch`, up to the word it hands to `b_emit`. -/
def branchWord (a : BradcAsm) (lx : Lexer) (op pred : BitVec 8) : AsmResult (BitVec 64) :=
  match lx.t.kind with
  | .num => .ok (bven op pred 0 0 0 (lx.t.ival.setWidth 8) 0 0)
  | .id =>
      match bFind a lx.t.text with
      | none => bErr a lx.line (cstr "undefined label '" ++ lx.t.text ++ cstr "'")
      | some sym =>
          let d : Int := sym.addr - (a.kpc + 1)
          if d < -128 ∨ 127 < d then
            bErr a lx.line (cstr "branch out of range (label " ++ lx.t.text ++ cstr ")")
          else .ok (bven op pred 0 0 0 (BitVec.ofInt 8 d) 0 0)
  | _ => bErr a lx.line (cstr "expected label or offset")

inductive LineType where
  | label | dir | insn
  deriving DecidableEq, Repr

def isDirective (t : Tok) : Bool := t.kind = .id ∧ (t.text = cstr "kernel" ∨ t.text = cstr "end")

/-- `peek_line`, which puts the lexer back. The directive test behind an identifier cannot succeed,
since the restored token is the identifier. -/
def peekLine [Libc] (lx : Lexer) : LineType :=
  match lx.t.kind with
  | .id => if (lexTake lx).t.kind = .colon then .label else .insn
  | .dot => if isDirective (lexTake lx).t then .dir else .insn
  | _ => .insn

/-! ### Opcode table -/

def optab : List (List Byte × Opcode) :=
  [(cstr "ADD", .add), (cstr "ADDi", .addi), (cstr "MOV", .addi), (cstr "SUB", .sub),
    (cstr "MUL", .mul), (cstr "MAD", .mad), (cstr "DIV", .div), (cstr "SQRT", .sqrt),
    (cstr "RSQRT", .rsqrt), (cstr "RCP", .rcp), (cstr "SIN", .sin), (cstr "COS", .cos),
    (cstr "EXP2", .exp2), (cstr "LOG2", .log2), (cstr "MIN", .min), (cstr "MAX", .max),
    (cstr "ABS", .abs), (cstr "NEG", .neg), (cstr "SEL", .sel), (cstr "CMP", .cmp),
    (cstr "IADD", .iadd), (cstr "ISUB", .isub), (cstr "IMUL", .imul), (cstr "IDIV", .idiv),
    (cstr "IMAD", .imad), (cstr "POPC", .popc), (cstr "CLZ", .clz), (cstr "SHL", .shl),
    (cstr "SHR", .shr), (cstr "AND", .and), (cstr "OR", .or), (cstr "XOR", .xor),
    (cstr "NOT", .not), (cstr "VADD", .vadd), (cstr "VMUL", .vmul), (cstr "VDOT", .vdot),
    (cstr "VMAD", .vmad), (cstr "VBROADCAST", .vbroadcast), (cstr "VREDUCE", .vreduce),
    (cstr "LOAD", .load), (cstr "LOADV", .loadv), (cstr "STORE", .store),
    (cstr "STOREV", .storev), (cstr "BR", .br), (cstr "BR_COND", .brCond), (cstr "CALL", .call),
    (cstr "RET", .ret), (cstr "BAR", .bar), (cstr "EXIT", .exit), (cstr "TRAP", .trap),
    (cstr "LANE_ID", .laneId), (cstr "WARP_SZ", .warpSz), (cstr "CLOCK", .clock)]

/-- `op_of`; `none` is its 0xFF. -/
def opOf (name : List Byte) : Option Opcode := (optab.find? fun e => e.1 = name).map Prod.snd

/-- The decimal digits `%ld` prints. -/
def printLong (v : Int) : List Byte := cstr (toString v)

/-- `parse_pred`: the lexer on the first operand, and the PRED field. -/
def parsePred [Libc] (a : BradcAsm) (lx : Lexer) : AsmResult (Lexer × BitVec 8) :=
  let lx := lexTake lx
  if lx.t.kind ≠ .at then .ok (lx, 0)
  else
    let lx := lexTake lx
    if lx.t.kind ≠ .id ∨ lx.t.text.headD 0 ≠ ch 'P' then
      bErr a lx.line (cstr "expected predicate after @")
    else
      let (p, stop) := Libc.strtol (lx.t.text.drop 1) 10
      if stop ≠ [] ∨ p < 0 ∨ (predRegs : Int) ≤ p then
        bErr a lx.line (cstr "bad predicate 'P" ++ printLong p ++ cstr "'")
      else .ok (nextSrc lx, BitVec.ofInt 8 p + 1)

/-- The opcodes that take one source. -/
def Opcode.isOneSource : Opcode → Bool
  | abs | neg | not | popc | clz | sqrt | rsqrt | rcp | sin | cos | exp2 | log2 => true
  | _ => false

def Opcode.isVector (op : Opcode) : Bool :=
  Opcode.vadd.toByte ≤ op.toByte && op.toByte ≤ Opcode.vreduce.toByte

def Opcode.isMemory (op : Opcode) : Bool :=
  Opcode.load.toByte ≤ op.toByte && op.toByte ≤ Opcode.storev.toByte

def Opcode.dstClass : Opcode → OperandClass
  | cmp => .p
  | loadv => .v
  | _ => .s

def bad (what : String) (mn : List Byte) : List Byte := cstr what ++ mn ++ cstr "'"

/-- The third operand of `CMP`, on token `t`; a number leaves it zeroed. -/
def cmpSource [Libc] (t : Tok) : Option Operand :=
  if t.kind = .num then some ⟨false, .none, 0⟩
  else
    match parseOperand t with
    | some b2 => if b2.isReg ∧ b2.cls ≠ .s then none else some b2
    | none => none

/-- The rest of an instruction with a destination `d` and a first source `a1`, the lexer still on
the latter: where the lexer stops, and the word to emit. -/
def sourcesWord [Libc] (a : BradcAsm) (lx : Lexer) (mn : List Byte) (op : Opcode) (pred : BitVec 8)
    (d a1 : Operand) : AsmResult (Lexer × BitVec 64) :=
  let src := nextSrc lx
  if op = .cmp then
    match cmpSource src.t with
    | none => bErr a src.line (cstr "CMP source must be S#")
    | some b2 => .ok (src, bven op.toByte pred d.byte a1.byte b2.byte 0 0 0)
  else if op.isMemory then
    let isStore := op = .store ∨ op = .storev
    let wantVal : OperandClass := if op = .storev then .v else .s
    if (if isStore then d.cls else a1.cls) ≠ .s then
      bErr a lx.line (cstr "memory base must be S#")
    else if (if isStore then a1.cls else d.cls) ≠ wantVal then
      bErr a lx.line (cstr "bad memory operand class")
    else if src.t.kind ≠ .num then bErr a src.line (cstr "memory access needs offset")
    else
      let dst := if isStore then a1.byte else d.byte
      let base := if isStore then d.byte else a1.byte
      .ok (src, bven op.toByte pred dst base 0 (src.t.ival.setWidth 8) 0 0)
  else if mn = cstr "MOV" then
    .ok (src, bven Opcode.addi.toByte pred d.byte a1.byte 0 0 0 0)
  else if op = .addi then
    if src.t.kind ≠ .num then bErr a src.line (mn ++ cstr " expects immediate")
    else .ok (src, bven op.toByte pred d.byte a1.byte 0 (src.t.ival.setWidth 8) 0 0)
  else if op.isOneSource then .ok (lx, bven op.toByte pred d.byte a1.byte 0 0 0 0)
  else if src.t.kind = .num then
    bErr a src.line (bad "'" mn ++ cstr " does not take an immediate; use ADDi")
  else
    let want : OperandClass := if op.isVector ∧ op ≠ .vbroadcast then .v else .s
    match parseOperand src.t with
    | none => bErr a src.line (bad "bad source class for '" mn)
    | some a2 =>
        if a2.cls ≠ want then bErr a src.line (bad "bad source class for '" mn)
        else .ok (src, bven op.toByte pred d.byte a1.byte a2.byte 0 0 0)

/-- The `LT_INSN` case of the second pass up to `b_emit`, which is the last thing that can fail in
each of its cases: where the lexer stops, and the word to emit. -/
def insnWord [Libc] (a : BradcAsm) (lx : Lexer) : AsmResult (Lexer × BitVec 64) := do
  let mn := lx.t.text
  let (lx, pred) ← parsePred a lx
  match opOf mn with
  | none => bErr a lx.line (bad "unknown opcode '" mn)
  | some op =>
      if op = .ret ∨ op = .exit ∨ op = .bar ∨ op = .trap then
        return (lx, bven op.toByte pred 0 0 0 0 0 0)
      else if op = .br ∨ op = .brCond ∨ op = .call then
        return (lx, ← branchWord a lx op.toByte pred)
      else if op = .laneId ∨ op = .warpSz ∨ op = .clock then
        match parseOperand lx.t with
        | none => bErr a lx.line (mn ++ cstr " expects S#")
        | some d =>
            if d.cls ≠ .s then bErr a lx.line (mn ++ cstr " expects S#")
            else return (lx, bven op.toByte pred d.byte 0 0 0 0 0)
      else
        match parseOperand lx.t with
        | none => bErr a lx.line (bad "bad destination for '" mn)
        | some d =>
            if d.cls ≠ op.dstClass then bErr a lx.line (bad "bad destination class for '" mn)
            else
              let lx := nextSrc lx
              match parseOperand lx.t with
              | none => bErr a lx.line (bad "bad source for '" mn)
              | some a1 => sourcesWord a lx mn op pred d a1

def asmInsn [Libc] (a : BradcAsm) (lx : Lexer) : AsmResult (Lexer × BradcAsm) := do
  let (lx, insn) ← insnWord a lx
  let a ← bEmit a insn lx.line
  return (lx, a)

/-! ### The two passes -/

/-- The loop both passes share. `body` works on the line whose first token is current and leaves the
lexer where the `skip_line` at the end of the line starts. -/
def lineLoop [Libc] {σ : Type} (body : Lexer → σ → AsmResult (Lexer × σ)) :
    Nat → Lexer → σ → AsmResult σ
  | 0, _, s => .ok s
  | fuel + 1, lx, s =>
      match lx.t.kind with
      | .eof => .ok s
      | .nl => lineLoop body fuel (lexTake lx) s
      | _ => do
          let (lx, s) ← body lx s
          lineLoop body fuel (skipLine lx) s

/-- A line of the first pass: labels and their kernel-relative addresses. -/
def pass1Line [Libc] (lx : Lexer) (a : BradcAsm) : AsmResult (Lexer × BradcAsm) :=
  match peekLine lx with
  | .dir =>
      let lx := lexTake lx
      .ok (lx, { a with inKernel := lx.t.text ≠ cstr "end", kpc := 0 })
  | .label =>
      .ok (lexTake (lexTake lx),
        if a.inKernel ∧ bFind a lx.t.text = none then bAdd a lx.t.text a.kpc else a)
  | .insn => .ok (lx, if a.inKernel then { a with kpc := a.kpc + 1 } else a)

/-- A directive line of the second pass. -/
def asmDirective [Libc] (a : BradcAsm) (lx : Lexer) : AsmResult (Lexer × BradcAsm) :=
  let lx := lexTake lx
  if lx.t.text = cstr "end" then
    if a.inKernel = false then bErr a lx.line (cstr ".end without .kernel")
    else .ok (lx, { a with inKernel := false, kpc := 0 })
  else if a.inKernel then bErr a lx.line (cstr "nested .kernel")
  else
    let lx := nextSrc lx
    if lx.t.kind ≠ .id then bErr a lx.line (cstr ".kernel expects a name")
    else
      match bvbcAddKernel a.img lx.t.text (BitVec.ofNat 32 a.img.ninsn) 0 with
      | none => bErr a lx.line (cstr "kernel table full")
      | some img => .ok (lx, { a with img, inKernel := true, kpc := 0 })

def pass2Line [Libc] (lx : Lexer) (a : BradcAsm) : AsmResult (Lexer × BradcAsm) :=
  match peekLine lx with
  | .dir => asmDirective a lx
  | .label => .ok (lx, a)
  | .insn => asmInsn a lx

/-- Enough iterations for a source: each but the last takes a byte of it. -/
def passFuel (source : List Byte) : Nat := source.length + 2

def bradcAssemble [Libc] (source : List Byte) (img : BvbcImage) : AsmResult BvbcImage := do
  let start := lexTake (lxInit source)
  let a ← lineLoop pass1Line (passFuel source) start
    { img, syms := [], inKernel := false, kpc := 0 }
  let a ← lineLoop pass2Line (passFuel source) start
    { a with
      img := { a.img with kernels := [], ninsn := 0, stringPool := [] }
      inKernel := false
      kpc := 0 }
  if a.inKernel then bErr a 0 (cstr "missing .end")
  else return { a.img with version := BitVec.ofNat 32 bvbcVersion }

end BradVector
