import BradVector.Bradisa
import BradVector.Library.Ctype
import BradVector.Library.Machine

/-!
# The `bradasm` assembler

`bradasm.c`: the tokenizer, the expressions and operands, the emission of halfwords and words, and
the two passes of `brad_as_assemble`. A refused source comes with the line and the text of the
error.
-/

namespace BradVector.Bradasm

open CSem CSem.Machine

/-! ### Tokenizer -/

inductive TokKind where
  | eof | id | num | colon | comma | lbrack | rbrack | plus | minus | newline
  | dirOrg | dirWord | dirByte | dirEntry | dirCompress | dirNocompress | dirHalf
  | op (o : BradOp) | cop (o : BradCop)
  deriving DecidableEq, Repr

/-- `struct token`; `text` is the string in the 64-byte array. -/
structure Token where
  kind : TokKind
  text : List Byte
  ival : Word
  deriving DecidableEq, Repr

/-- A token without text and value. -/
def Token.plain (kind : TokKind) : Token := ⟨kind, [], 0⟩

/-- `struct lexer`: the text from `p` on, the line and the current token. -/
structure Lexer where
  p : List Byte
  line : Nat
  tok : Token
  deriving DecidableEq, Repr

def lexInit (source : List Byte) : Lexer := ⟨source, 1, .plain .eof⟩

def lexSkipWs (s : List Byte) : List Byte := s.dropWhile fun b => b = ch ' ' ∨ b = ch '\t'

/-- The kind of a directive, from its name. A name the assembler does not know counts as `.org`. -/
def dirKind (name : List Byte) : TokKind :=
  if name = cstr "word" then .dirWord
  else if name = cstr "byte" then .dirByte
  else if name = cstr "org" then .dirOrg
  else if name = cstr "entry" then .dirEntry
  else if name = cstr "compress" then .dirCompress
  else if name = cstr "nocompress" then .dirNocompress
  else if name = cstr "half" then .dirHalf
  else .dirOrg

def ops : List (String × TokKind) :=
  [("ADD", .op .add), ("SUB", .op .sub), ("MUL", .op .mul),
    ("AND", .op .and), ("OR", .op .or), ("XOR", .op .xor),
    ("SHL", .op .shl), ("SHR", .op .shr),
    ("ADDI", .op .addi), ("LDW", .op .ldw), ("STW", .op .stw),
    ("BZ", .op .bz), ("BNZ", .op .bnz),
    ("JMP", .op .jmp), ("CALL", .op .call), ("RET", .op .ret),
    ("C.ADD", .cop .add), ("C.SUB", .cop .sub),
    ("C.AND", .cop .and), ("C.OR", .cop .or), ("C.XOR", .cop .xor),
    ("C.SHL", .cop .shl), ("C.SHR", .cop .shr),
    ("C.ADDI", .cop .addi), ("C.LDW", .cop .ldw), ("C.STW", .cop .stw),
    ("C.BZ", .cop .bz), ("C.BNZ", .cop .bnz),
    ("C.MV", .cop .mv), ("C.NOP", .cop .nop),
    ("C.JMP", .cop .jmp), ("C.CALL", .cop .call)]

/-- The kind of a word: an operation of the table, or an identifier. -/
def wordKind (text : List Byte) : TokKind :=
  match ops.find? fun op => cstr op.1 = text with
  | some op => op.2
  | none => .id

def isDirChar (b : Byte) : Bool := isAlpha b || b == ch '_'

/-- The characters of a word behind its first one. -/
def isWordChar (b : Byte) : Bool := isAlnum b || b == ch '_' || b == ch '.'

/-- The characters a number token takes: digits and dots, up to two dots in a row. -/
def takeNumber : List Byte → List Byte
  | [] => []
  | c :: rest =>
      if isDigit c ∨ c = ch '.' ∧ rest.headD 0 ≠ ch '.' then c :: takeNumber rest else []

/-- The length of the buffers a directive and a number are read into, and of the text of a token. -/
def dirTextSize : Nat := 32
def tokTextSize : Nat := 64

def lexNext (lx : Lexer) : Lexer :=
  match lexSkipWs lx.p with
  | [] => { lx with p := [], tok := .plain .eof }
  | c :: rest =>
      if c = 0 then { lx with p := c :: rest, tok := .plain .eof }
      else if c = ch '\n' then ⟨rest, lx.line + 1, .plain .newline⟩
      else if c = ch ';' then
        match (c :: rest).dropWhile fun b => b ≠ 0 ∧ b ≠ ch '\n' with
        | b :: after =>
            if b = ch '\n' then ⟨after, lx.line + 1, .plain .newline⟩
            else { lx with p := b :: after, tok := .plain .newline }
        | [] => { lx with p := [], tok := .plain .newline }
      else if c = ch ':' then { lx with p := rest, tok := .plain .colon }
      else if c = ch ',' then { lx with p := rest, tok := .plain .comma }
      else if c = ch '[' then { lx with p := rest, tok := .plain .lbrack }
      else if c = ch ']' then { lx with p := rest, tok := .plain .rbrack }
      else if c = ch '+' then { lx with p := rest, tok := .plain .plus }
      else if c = ch '-' then { lx with p := rest, tok := .plain .minus }
      else if c = ch '.' ∧ rest.headD 0 ≠ 0 then
        let name := (rest.takeWhile isDirChar).take (dirTextSize - 1)
        { lx with p := rest.drop name.length, tok := ⟨dirKind name, c :: name, 0⟩ }
      else if c = ch '.' ∨ isDigit c then
        let number := takeNumber (c :: rest)
        let value := (strtol (number.take (dirTextSize - 1)) 0).1
        { lx with p := (c :: rest).drop number.length, tok := ⟨.num, [], BitVec.ofInt 32 value⟩ }
      else if isAlpha c ∨ c = ch '_' then
        let text := ((c :: rest).takeWhile isWordChar).take (tokTextSize - 1)
        { lx with p := (c :: rest).drop text.length, tok := ⟨wordKind text, text, 0⟩ }
      else
        { lx with
          p := c :: rest
          tok := ⟨.eof, cstr "unexpected char '" ++ [c] ++ cstr "'", 0⟩ }

/-- The current token ends the line. -/
def Lexer.AtLineEnd (lx : Lexer) : Prop := lx.tok.kind = .newline ∨ lx.tok.kind = .eof

instance (lx : Lexer) : Decidable lx.AtLineEnd := inferInstanceAs (Decidable (_ ∨ _))

def skipLoop : Nat → Lexer → Lexer
  | 0, lx => lx
  | fuel + 1, lx => if lx.AtLineEnd then lx else skipLoop fuel (lexNext lx)

/-- The loop that takes the rest of a line. Every token but the last takes a byte, so the text
bounds the iterations. -/
def skipLine (lx : Lexer) : Lexer := skipLoop (lx.p.length + 2) lx

/-- The current token is a label: an identifier with a colon right behind it. -/
def Lexer.AtLabel (lx : Lexer) : Prop := lx.tok.kind = .id ∧ lx.p.headD 0 = ch ':'

instance (lx : Lexer) : Decidable lx.AtLabel := inferInstanceAs (Decidable (_ ∧ _))

/-! ### Expressions and operands -/

structure Symbol where
  name : List Byte
  addr : Word
  deriving DecidableEq, Repr

/-- `struct eval_ctx`; its `error` is the failure of `evalExpr`. -/
structure EvalCtx where
  symbols : List Symbol
  pc : Word
  deriving DecidableEq, Repr

def EvalCtx.find? (ec : EvalCtx) (name : List Byte) : Option Word :=
  if name = cstr "$" then some ec.pc
  else (ec.symbols.find? fun s => s.name = name).map Symbol.addr

/-- `eval_expr`: the value and the lexer behind it, or the lexer where it fails. -/
def evalExpr (ec : EvalCtx) (lx : Lexer) : Except Lexer (Word × Lexer) :=
  let minus := lx.tok.kind = .minus
  let lx := if lx.tok.kind = .plus ∨ lx.tok.kind = .minus then lexNext lx else lx
  let val :=
    match lx.tok.kind with
    | .num => some lx.tok.ival
    | .id => ec.find? lx.tok.text
    | _ => none
  match val with
  | some val => .ok (if minus then -val else val, lexNext lx)
  | none => .error lx

/-- `parse_reg`. -/
def parseReg (lx : Lexer) : Except Lexer (Word × Lexer) :=
  if lx.tok.kind = .id ∧ lx.tok.text.headD 0 = ch 'r' ∧ lx.tok.text.drop 1 ≠ [] then
    let r := BitVec.ofInt 32 (strtol (lx.tok.text.drop 1) 10).1
    if r < 16 then .ok (r, lexNext lx) else .error lx
  else .error lx

def skipComma (lx : Lexer) : Lexer := if lx.tok.kind = .comma then lexNext lx else lx

/-- Operands `rd, rs1, rs2`. -/
def parseRegs (lx : Lexer) : Except Lexer ((Word × Word × Word) × Lexer) := do
  let (rd, lx) ← parseReg lx
  let (rs1, lx) ← parseReg (skipComma lx)
  let (rs2, lx) ← parseReg (skipComma lx)
  return ((rd, rs1, rs2), lx)

/-- Operands `rd, imm`. -/
def parseRegImm (ec : EvalCtx) (lx : Lexer) : Except Lexer ((Word × Word) × Lexer) := do
  let (rd, lx) ← parseReg lx
  let (imm, lx) ← evalExpr ec (skipComma lx)
  return ((rd, imm), lx)

/-- Operands `rd, rs1, imm`. -/
def parseRegsImm (ec : EvalCtx) (lx : Lexer) : Except Lexer ((Word × Word × Word) × Lexer) := do
  let (rd, lx) ← parseReg lx
  let (rs1, lx) ← parseReg (skipComma lx)
  let (imm, lx) ← evalExpr ec (skipComma lx)
  return ((rd, rs1, imm), lx)

/-- Operands `rd, [rs1 + imm]` or `rd, rs1, imm`. -/
def parseMem (ec : EvalCtx) (lx : Lexer) : Except Lexer ((Word × Word × Word) × Lexer) := do
  let (rd, lx) ← parseReg lx
  let lx := skipComma lx
  if lx.tok.kind = .lbrack then
    let (rs1, lx) ← parseReg (lexNext lx)
    let lx := if lx.tok.kind = .plus ∨ lx.tok.kind = .comma then lexNext lx else lx
    let (imm, lx) ← evalExpr ec lx
    return ((rd, rs1, imm), if lx.tok.kind = .rbrack then lexNext lx else lx)
  else
    let (rs1, lx) ← parseReg lx
    let (imm, lx) ← evalExpr ec (skipComma lx)
    return ((rd, rs1, imm), lx)

/-- The distance of a branch from the instruction behind it, in units of `size` bytes; a fraction is
rounded away from 0. -/
def branchOffset (size target pc : Word) : Word :=
  let imm := target - (pc + size)
  if imm.srem size ≠ 0 then
    if imm.slt 0 then (imm - (size - 1)).sdiv size else (imm + (size - 1)).sdiv size
  else imm.sdiv size

/-! ### Errors -/

structure AsError where
  line : Nat
  msg : List Byte
  deriving DecidableEq, Repr

def syntaxError (lx : Lexer) : AsError :=
  let line := lx.line
  ⟨line, cstr s!"syntax error at line {line}"⟩

def undefinedSymbol (lx : Lexer) : AsError :=
  let line := lx.line
  ⟨line, cstr s!"undefined symbol at line {line}"⟩

def noCompressedForm (name : String) (lx : Lexer) : AsError :=
  let line := lx.line
  ⟨line, cstr s!"{name} has no compressed form at line {line} (use .nocompress)"⟩

def outOfRange (name : String) (imm : Word) (lx : Lexer) : AsError :=
  let line := lx.line
  let value := imm.toInt
  ⟨line, cstr s!"immediate {value} out of range for {name} at line {line} (use .nocompress)"⟩

/-- A failed operand of an instruction goes to `err`. -/
def orErr {α : Type} (r : Except Lexer α) : Except AsError α := r.mapError syntaxError

/-- A failed operand of a directive is reported when its line has been read. -/
def orUndefined {α : Type} (r : Except Lexer α) : Except AsError α :=
  r.mapError fun lx => undefinedSymbol (skipLine lx)

/-! ### Statements -/

/-- What a statement asks the second pass to do. `data` is `.word` or `.byte`, with what it
counts. -/
inductive Stmt where
  | org (addr : Option Word)
  | entry (addr : Option Word)
  | compress
  | nocompress
  | half (value : Word)
  | data (value size : Word)
  | insn16 (insn : Hword)
  | insn32 (insn : Word)
  deriving DecidableEq, Repr

def parseCop (cop : BradCop) (ec : EvalCtx) (lx : Lexer) : Except AsError (Hword × Lexer) :=
  match cop with
  | .add | .sub | .and | .or | .xor | .shl | .shr => do
      let ((rd, rs1, rs2), lx) ← orErr (parseRegs lx)
      return (bradCRRR cop rd rs1 rs2, lx)
  | .addi => do
      let ((rd, rs1, imm), lx) ← orErr (parseRegsImm ec lx)
      return (bradCRI cop rd rs1 imm, lx)
  | .ldw | .stw => do
      let ((rd, rs1, imm), lx) ← orErr (parseMem ec lx)
      return (bradCRI cop rd rs1 imm, lx)
  | .bz | .bnz => do
      let ((rs1, target), lx) ← orErr (parseRegImm ec lx)
      return (bradCBR cop rs1 (branchOffset 2 target ec.pc), lx)
  | .mv => do
      let ((rd, imm), lx) ← orErr (parseRegImm ec lx)
      return (bradCMV rd imm, lx)
  | .nop => return (bradCNOP, lx)
  | .jmp | .call => do
      let (target, lx) ← orErr (evalExpr ec lx)
      return (bradCBR cop 0 (branchOffset 2 target ec.pc), lx)

/-- `v1_to_cop`, from 0 for `MUL` on: the operations without an entry are not looked up. -/
def v1ToCop : BradOp → BradCop
  | .sub => .sub
  | .and => .and
  | .or => .or
  | .xor => .xor
  | .shl => .shl
  | .shr => .shr
  | _ => .add

def parseOp (op : BradOp) (compress : Bool) (ec : EvalCtx) (lx : Lexer) :
    Except AsError (Stmt × Lexer) :=
  match op with
  | .add | .sub | .mul | .and | .or | .xor | .shl | .shr => do
      let ((rd, rs1, rs2), lx) ← orErr (parseRegs lx)
      if compress then
        if op = .mul then throw (noCompressedForm "MUL" lx)
        return (.insn16 (bradCRRR (v1ToCop op) rd rs1 rs2), lx)
      else return (.insn32 (bradRRR op rd rs1 rs2), lx)
  | .addi => do
      let ((rd, rs1, imm), lx) ← orErr (parseRegsImm ec lx)
      if compress then
        if imm.toInt < -8 ∨ 7 < imm.toInt then throw (outOfRange "C.ADDI" imm lx)
        return (.insn16 (bradCRI .addi rd rs1 imm), lx)
      else return (.insn32 (bradRI .addi rd rs1 imm), lx)
  | .ldw => do
      let ((rd, rs1, imm), lx) ← orErr (parseMem ec lx)
      if compress then
        if imm.toInt < 0 ∨ 15 < imm.toInt then throw (outOfRange "C.LDW" imm lx)
        return (.insn16 (bradCRI .ldw rd rs1 imm), lx)
      else return (.insn32 (bradRI .ldw rd rs1 imm), lx)
  | .stw => do
      let ((rs2, rs1, imm), lx) ← orErr (parseMem ec lx)
      if compress then
        if imm.toInt < 0 ∨ 15 < imm.toInt then throw (outOfRange "C.STW" imm lx)
        return (.insn16 (bradCRI .stw rs2 rs1 imm), lx)
      else return (.insn32 (bradStore rs2 rs1 imm), lx)
  | .bz | .bnz => do
      let ((rs1, target), lx) ← orErr (parseRegImm ec lx)
      if compress then
        let cop : BradCop := if op = .bz then .bz else .bnz
        return (.insn16 (bradCBR cop rs1 (branchOffset 2 target ec.pc)), lx)
      else return (.insn32 (bradBR op rs1 (branchOffset 4 target ec.pc)), lx)
  | .jmp | .call => do
      let (target, lx) ← orErr (evalExpr ec lx)
      if compress then
        let cop : BradCop := if op = .jmp then .jmp else .call
        return (.insn16 (bradCBR cop 0 (branchOffset 2 target ec.pc)), lx)
      else return (.insn32 (bradJMP op (branchOffset 4 target ec.pc)), lx)
  | .ret =>
      if compress then throw (noCompressedForm "RET" lx) else return (.insn32 bradRetRaw, lx)

/-- The value of `.org`, if a number follows it. -/
def parseOrg (lx : Lexer) : Option Word × Lexer :=
  let lx := lexNext lx
  if lx.tok.kind = .num then (some lx.tok.ival, lexNext lx) else (none, lx)

/-- The statement whose first token is the current one, and the lexer behind its operands. -/
def parseStmt (compress : Bool) (ec : EvalCtx) (lx : Lexer) : Except AsError (Stmt × Lexer) :=
  match lx.tok.kind with
  | .dirOrg =>
      let (addr, lx) := parseOrg lx
      return (.org addr, lx)
  | .dirEntry => do
      let lx := lexNext lx
      if lx.tok.kind = .num ∨ lx.tok.kind = .id then
        let (addr, lx) ← orUndefined (evalExpr ec lx)
        return (.entry (some addr), lx)
      else return (.entry none, lx)
  | .dirCompress => return (.compress, lx)
  | .dirNocompress => return (.nocompress, lx)
  | .dirHalf => do
      let (value, lx) ← orUndefined (evalExpr ec (lexNext lx))
      return (.half value, lx)
  | .dirWord => do
      let (value, lx) ← orUndefined (evalExpr ec (lexNext lx))
      return (.data value 4, lx)
  | .dirByte => do
      let (value, lx) ← orUndefined (evalExpr ec (lexNext lx))
      return (.data (value &&& 0xFF) 1, lx)
  | .cop cop => do
      let (insn, lx) ← parseCop cop ec (lexNext lx)
      return (.insn16 insn, lx)
  | .op op => parseOp op compress ec (lexNext lx)
  | _ => throw (syntaxError (lexNext lx))

/-! ### Emission -/

def asmMaxOutput : Nat := 65536

/-- The words of the output that are complete, and the low half of the next one when it is
written. -/
structure Emitter where
  code : List Word
  half : Option Hword
  deriving DecidableEq, Repr

def Emitter.init : Emitter := ⟨[], none⟩

/-- A word of two halves, the low one first. -/
def joinHalves (lo hi : Hword) : Word := lo.setWidth 32 ||| hi.setWidth 32 <<< 16

/-- `emit_half`. -/
def Emitter.emitHalf (e : Emitter) (half : Hword) : Option Emitter :=
  if asmMaxOutput ≤ e.code.length then none
  else
    match e.half with
    | none => some { e with half := some half }
    | some lo => some ⟨e.code ++ [joinHalves lo half], none⟩

/-- `flush_half`. -/
def Emitter.flushHalf (e : Emitter) : Emitter :=
  match e.half with
  | none => e
  | some lo => ⟨e.code ++ [joinHalves lo bradCNOP], none⟩

/-- A whole word goes behind the flushed half, as long as there is room. -/
def Emitter.emitWord (e : Emitter) (word : Word) : Emitter :=
  let e := e.flushHalf
  if e.code.length < asmMaxOutput then { e with code := e.code ++ [word] } else e

/-! ### Passes -/

def asmMaxSymbols : Nat := 1024

/-- What the loop over the statements meets at a token. -/
inductive Head where
  | eof | newline | label | colon | stmt
  deriving DecidableEq, Repr

def Lexer.head (lx : Lexer) : Head :=
  if lx.tok.kind = .eof then .eof
  else if lx.tok.kind = .newline then .newline
  else if lx.AtLabel then .label
  else if lx.tok.kind = .colon then .colon
  else .stmt

structure Pass1 where
  lx : Lexer
  pc : Word
  compress : Bool
  symbols : List Symbol
  deriving DecidableEq, Repr

def pass1Init (source : List Byte) : Pass1 := ⟨lexInit source, 0, false, []⟩

/-- What the first pass counts for a token that is no directive. -/
def insnSize (compress : Bool) : TokKind → Word
  | .cop _ => 2
  | _ => if compress then 2 else 4

/-- A directive or an instruction in the first pass. -/
def pass1Stmt (s : Pass1) (lx : Lexer) : Pass1 :=
  match lx.tok.kind with
  | .dirOrg =>
      let (addr, lx) := parseOrg lx
      { s with lx, pc := addr.getD s.pc }
  | .dirWord => { s with lx := skipLine (lexNext lx), pc := s.pc + 4 }
  | .dirByte => { s with lx := skipLine (lexNext lx), pc := s.pc + 1 }
  | .dirHalf => { s with lx := skipLine (lexNext lx), pc := s.pc + 2 }
  | .dirEntry => { s with lx := lexNext lx }
  | .dirCompress => { s with lx, compress := true }
  | .dirNocompress => { s with lx, compress := false }
  | kind => { s with lx := skipLine lx, pc := s.pc + insnSize s.compress kind }

/-- One round of the first loop; at the end of the text it leaves the symbols. -/
def pass1Step (s : Pass1) : Except (List Symbol) Pass1 :=
  let lx := lexNext s.lx
  match lx.head with
  | .eof => .error s.symbols
  | .newline => .ok { s with lx }
  | .label =>
      .ok { s with
        lx := lexNext (lexNext lx)
        symbols :=
          if s.symbols.length < asmMaxSymbols then s.symbols ++ [⟨lx.tok.text, s.pc⟩]
          else s.symbols }
  | .colon => .ok { s with lx := lexNext lx }
  | .stmt => .ok (pass1Stmt s lx)

/-- `struct brad_as_output` of an accepted source, without the counts of its lists. -/
structure Output where
  code : List Word
  entryPoint : Word
  symbols : List Symbol
  deriving DecidableEq, Repr

structure Pass2 where
  lx : Lexer
  pc : Word
  compress : Bool
  out : Emitter
  entryPoint : Word
  deriving DecidableEq, Repr

def pass2Init (source : List Byte) : Pass2 := ⟨lexInit source, 0, false, .init, 0⟩

/-- The effect of a statement, none when an instruction does not fit the output. -/
def Pass2.perform (s : Pass2) : Stmt → Option Pass2
  | .org addr => some { s with pc := addr.getD s.pc }
  | .entry addr => some { s with entryPoint := addr.getD s.entryPoint }
  | .compress => some { s with compress := true }
  | .nocompress => some { s with out := s.out.flushHalf, compress := false }
  | .half value =>
      some { s with out := (s.out.emitHalf (value.setWidth 16)).getD s.out, pc := s.pc + 2 }
  | .data value size => some { s with out := s.out.emitWord value, pc := s.pc + size }
  | .insn16 insn => (s.out.emitHalf insn).map fun out => { s with out, pc := s.pc + 2 }
  | .insn32 insn => some { s with out := s.out.emitWord insn, pc := s.pc + 4 }

/-- A directive or an instruction in the second pass, and the rest of its line. -/
def pass2Stmt (symbols : List Symbol) (s : Pass2) (lx : Lexer) : Except AsError Pass2 := do
  let (stmt, lx) ← parseStmt s.compress ⟨symbols, s.pc⟩ lx
  match s.perform stmt with
  | some t => return { t with lx := skipLine lx }
  | none => throw (syntaxError lx)

/-- One round of the second loop; at the end of the text it leaves the output. -/
def pass2Step (symbols : List Symbol) (s : Pass2) : Except (Except AsError Output) Pass2 :=
  let lx := lexNext s.lx
  match lx.head with
  | .eof => .error (.ok ⟨s.out.flushHalf.code, s.entryPoint, symbols⟩)
  | .newline => .ok { s with lx }
  | .label => .ok { s with lx := lexNext (lexNext lx) }
  | .colon => .ok { s with lx := lexNext lx }
  | .stmt => (pass2Stmt symbols s lx).mapError .error

/-- Enough rounds for a source: each but the last takes a byte of it. -/
def passFuel (source : List Byte) : Nat := source.length + 1

def pass1 (source : List Byte) : List Symbol :=
  resultWithin pass1Step (passFuel source) (pass1Init source) []

/-- `brad_as_assemble`. -/
def bradAsAssemble (source : List Byte) : Except AsError Output :=
  let symbols := pass1 source
  resultWithin (pass2Step symbols) (passFuel source) (pass2Init source) (.error ⟨0, []⟩)

end BradVector.Bradasm
