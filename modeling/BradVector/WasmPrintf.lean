import BradVector.WasmShim
import BradVector.Library.Outcome

/-!
# The formatter of the browser build

`ufmt`, `ffmt` and `vsnprintf` of `wasm_shim.c`. A local array is filled from its start, so that it
is the list of what has been stored in it.

C leaves the overflow of a signed integer undefined, and the models of the programs that are built
for any host say so where it can happen (`cInt` for the frame reconstructor). This file is built for
wasm32 alone, and the model is of what runs there: `int` and `long` have 32 bits, and their
arithmetic wraps. The formatter needs it only for `-(long)v` of the least value.
-/

namespace BradVector.Wasm

open CSem

/-- What the language gives no meaning to. -/
inductive PrintfFault where
  | store (i : Nat)
  | load (i : Nat)
  | format
  | argument
  deriving DecidableEq, Repr

abbrev PrintfM (α : Type) := Outcome PrintfFault Empty α

/-- The next store into an array of `size` elements. -/
def push (size : Nat) (b : List Byte) (c : Byte) : PrintfM (List Byte) :=
  if b.length < size then .ok (b ++ [c]) else .undefined (.store b.length)

/-- A read of what has been stored. -/
def load (b : List Byte) (i : Nat) : PrintfM Byte :=
  match b[i]? with
  | some c => .ok c
  | none => .undefined (.load i)

/-! ### Digits -/

/-- The sizes of the arrays `tmp` of `vsnprintf` and `t` of `ufmt` and `ffmt`. -/
def tmpSize : Nat := 128
def ufmtSize : Nat := 24
def ffmtSize : Nat := 32

/-- `"0123456789ABCDEF"[d]` or `"0123456789abcdef"[d]`. -/
def digitChar (upper : Bool) (d : Nat) : Byte :=
  if d < 10 then BitVec.ofNat 8 (48 + d) else if upper then BitVec.ofNat 8 (55 + d)
    else BitVec.ofNat 8 (87 + d)

/-- `while (v) { t[i++] = digits[v % base]; v /= base; }`. -/
def pushDigits (size : Nat) (base : { b : Nat // 2 ≤ b }) (upper : Bool) (v : Nat) (t : List Byte) :
    PrintfM (List Byte) :=
  if _hv : v = 0 then .ok t
  else do
    let t ← push size t (digitChar upper (v % base))
    pushDigits size base upper (v / base) t
termination_by v
decreasing_by exact Nat.div_lt_self (Nat.pos_of_ne_zero _hv) base.2

/-- The digits of a number, the last one first: both arrays `t`. -/
def digitArray (size : Nat) (base : { b : Nat // 2 ≤ b }) (upper : Bool) (v : Nat) :
    PrintfM (List Byte) := do
  let t ← (if v = 0 then push size [] (ch '0') else .ok [])
  pushDigits size base upper v t

/-- `while (i > 0) b[n++] = t[--i];`. -/
def unstack (t : List Byte) : Nat → List Byte → PrintfM (List Byte)
  | 0, b => .ok b
  | i + 1, b => do
      let b ← push tmpSize b (← load t i)
      unstack t i b

/-- `ufmt`, into `tmp`. -/
def ufmt (v : Word) (base : { b : Nat // 2 ≤ b }) (upper : Bool) : PrintfM (List Byte) := do
  let t ← digitArray ufmtSize base upper v.toNat
  unstack t t.length []

def decimalBase : { b : Nat // 2 ≤ b } := ⟨10, by decide⟩
def hexBase : { b : Nat // 2 ≤ b } := ⟨16, by decide⟩
def octalBase : { b : Nat // 2 ≤ b } := ⟨8, by decide⟩

/-- What the formatter asks of `double`. -/
structure Doubles (δ : Type) where
  /-- `v < 0.0` -/
  negative : δ → Bool
  /-- `-v` -/
  neg : δ → δ
  /-- `(unsigned long long)(v * 10.0 ^ prec + 0.5)` -/
  scaled : δ → Nat → Size

/-- `for (int k = ti - 1; k >= 0 && o + 1 < n; k--) b[o++] = t[k];`, with `n` the size of `tmp`. -/
def unstackShort (t : List Byte) : Nat → List Byte → PrintfM (List Byte)
  | 0, b => .ok b
  | k + 1, b =>
      if b.length + 1 < tmpSize then do
        let b ← push tmpSize b (← load t k)
        unstackShort t k b
      else .ok b

/-- `for (int k = 0; k < prec && o + 1 < n; k++)`, over the digits that are left. -/
def pushFraction (fp : Nat) : Nat → Nat → List Byte → PrintfM (List Byte)
  | 0, _, b => .ok b
  | left + 1, d, b =>
      if b.length + 1 < tmpSize then do
        let b ← push tmpSize b (digitChar false (fp / d % 10))
        pushFraction fp left (if 1 < d then d / 10 else d) b
      else .ok b

/-- `ffmt`, into `tmp`. The scale is exact. -/
def ffmt {δ : Type} (D : Doubles δ) (v : δ) (prec : Word) : PrintfM (List Byte) := do
  let prec := (max 0 (min 9 prec.toInt)).toNat
  let r := D.scaled v prec
  let ip := r.toNat / 10 ^ prec
  let fp := r.toNat % 10 ^ prec
  let t ← digitArray ffmtSize decimalBase false ip
  let b ← unstackShort t t.length []
  let b ← (if 0 < prec ∧ b.length + 1 < tmpSize then push tmpSize b (ch '.') else .ok b)
  pushFraction fp prec (10 ^ (prec - 1)) b

/-! ### The format -/

/-- An argument of a call: 32 bits of an integer, a `double`, or a pointer to a string. -/
inductive VaArg (δ : Type) where
  | word (v : Word)
  | double (v : δ)
  | string (v : Option (List Byte))

/-- What stands between the `%` and the conversion. -/
structure ConvSpec where
  left : Bool
  zero : Bool
  width : Word
  prec : Word
  deriving DecidableEq, Repr

/-- `while (*f >= '0' && *f <= '9') { n = n * 10 + (*f - '0'); f++; }`. -/
def parseNumber (n : Word) : List Byte → Word × List Byte
  | [] => (n, [])
  | c :: f => if isDigit c then parseNumber (n * 10 + (c - ch '0').setWidth 32) f else (n, c :: f)

/-- The flags, the width, the precision and the length modifiers, and what follows them. -/
def parseSpec (f : List Byte) : ConvSpec × List Byte :=
  let left := f.headD 0 == ch '-'
  let f := f.dropWhile (· == ch '-')
  let zero := f.headD 0 == ch '0'
  let f := f.dropWhile (· == ch '0')
  let (width, f) := parseNumber 0 f
  let (prec, f) := if f.headD 0 = ch '.' then parseNumber 0 f.tail else (6, f)
  (⟨left, zero, width, prec⟩, f.dropWhile fun c => c == ch 'l' || c == ch 'z' || c == ch 'h')

/-- The conversion: whether a minus goes in front, what is in `tmp`, and the arguments that are
left. `none` for a character that is no conversion. -/
def convert {δ : Type} (D : Doubles δ) (spec : ConvSpec) (c : Byte) (args : List (VaArg δ)) :
    PrintfM (Option (Bool × List Byte × List (VaArg δ))) :=
  if c = ch 'd' ∨ c = ch 'i' then
    match args with
    | .word v :: args =>
        if v.slt 0 then do .ok (some (true, ← ufmt (-v) decimalBase false, args))
        else do .ok (some (false, ← ufmt v decimalBase false, args))
    | _ => .undefined .argument
  else if c = ch 'u' then
    match args with
    | .word v :: args => do .ok (some (false, ← ufmt v decimalBase false, args))
    | _ => .undefined .argument
  else if c = ch 'x' ∨ c = ch 'X' then
    match args with
    | .word v :: args => do .ok (some (false, ← ufmt v hexBase (c == ch 'X'), args))
    | _ => .undefined .argument
  else if c = ch 'o' then
    match args with
    | .word v :: args => do .ok (some (false, ← ufmt v octalBase false, args))
    | _ => .undefined .argument
  else if c = ch 'c' then
    match args with
    | .word v :: args => do .ok (some (false, ← push tmpSize [] (v.setWidth 8), args))
    | _ => .undefined .argument
  else if c = ch 'f' then
    match args with
    | .double v :: args =>
        if D.negative v then do .ok (some (true, ← ffmt D (D.neg v) spec.prec, args))
        else do .ok (some (false, ← ffmt D v spec.prec, args))
    | _ => .undefined .argument
  else if c = ch 's' then
    match args with
    | .string v :: args => do
        let v := v.getD ("(null)".toList.map ch)
        .ok (some (false, ← (v.take (tmpSize - 1)).foldlM (push tmpSize) [], args))
    | _ => .undefined .argument
  else .ok none

/-! ### The output -/

/-- The buffer, the place `o` of the next character in it, and the room `rem` that is left. -/
structure OutBuf where
  buf : List Byte
  o : Nat
  rem : Nat

namespace OutBuf

variable (s : OutBuf)

/-- A store into the buffer. -/
def store (i : Nat) (c : Byte) : PrintfM (List Byte) :=
  if i < s.buf.length then .ok (s.buf.set i c) else .undefined (.store i)

/-- `*o++ = c; rem--;`. -/
def append (c : Byte) : PrintfM OutBuf := do
  .ok ⟨← s.store s.o c, s.o + 1, s.rem - 1⟩

/-- `if (rem > 1) { *o++ = c; rem--; }`. -/
def put (c : Byte) : PrintfM OutBuf := if 1 < s.rem then s.append c else .ok s

/-- `for (; lead > 0 && rem > 1; lead--) { *o++ = c; rem--; }`. -/
def pad (c : Byte) : Nat → OutBuf → PrintfM OutBuf
  | 0, s => .ok s
  | lead + 1, s => if 1 < s.rem then do pad c lead (← s.append c) else .ok s

/-- `for (size_t i = 0; i < tn && rem > 1; i++) { *o++ = tmp[i]; rem--; }`. -/
def copy : List Byte → OutBuf → PrintfM OutBuf
  | [], s => .ok s
  | c :: tmp, s => if 1 < s.rem then do copy tmp (← s.append c) else .ok s

end OutBuf

/-- How many characters the width asks for besides those of the conversion. -/
def ConvSpec.lead (spec : ConvSpec) (sg : Bool) (tn : Nat) : Nat :=
  let n : Int := tn + if sg then 1 else 0
  if n < spec.width.toInt then (spec.width.toInt - n).toNat else 0

/-- A conversion that is done, with its padding. -/
def emit (spec : ConvSpec) (sg : Bool) (tmp : List Byte) (s : OutBuf) : PrintfM OutBuf := do
  let lead := spec.lead sg tmp.length
  let s ← (if spec.left then .ok s else s.pad (if spec.zero && !sg then ch '0' else ch ' ') lead)
  let s ← (if sg then s.put (ch '-') else .ok s)
  let s ← s.copy tmp
  if spec.left then s.pad (ch ' ') lead else .ok s

theorem parseNumber_length_le (n : Word) (f : List Byte) :
    (parseNumber n f).2.length ≤ f.length := by
  induction f generalizing n with
  | nil => exact le_rfl
  | cons c f ih =>
      unfold parseNumber
      split_ifs
      · exact (ih _).trans (Nat.le_succ _)
      · exact le_rfl

theorem parseSpec_length_le (f : List Byte) : (parseSpec f).2.length ≤ f.length := by
  have hflags : ((f.dropWhile (· == ch '-')).dropWhile (· == ch '0')).length ≤ f.length :=
    (List.length_dropWhile_le _ _).trans (List.length_dropWhile_le _ _)
  unfold parseSpec
  refine (List.length_dropWhile_le _ _).trans ?_
  have hwidth := parseNumber_length_le 0 ((f.dropWhile (· == ch '-')).dropWhile (· == ch '0'))
  split_ifs
  · calc
      _ ≤ _ := parseNumber_length_le 0 _
      _ ≤ _ := List.tail_sublist _ |>.length_le
      _ ≤ _ := hwidth
      _ ≤ _ := hflags
  · exact hwidth.trans hflags

/-- The loop of `vsnprintf`. -/
def vsnprintfLoop {δ : Type} (D : Doubles δ) (f : List Byte) (args : List (VaArg δ)) (s : OutBuf) :
    PrintfM OutBuf :=
  match f with
  | [] => .ok s
  | c :: f =>
      if c ≠ ch '%' then do vsnprintfLoop D f args (← s.put c)
      else if f.headD 0 = ch '%' then do vsnprintfLoop D f.tail args (← s.put (ch '%'))
      else
        match _hf : parseSpec f with
        | (_, []) => .undefined .format
        | (spec, c :: rest) => do
            match ← convert D spec c args with
            | none =>
                let s ← s.put (ch '%')
                vsnprintfLoop D rest args (← s.put c)
            | some (sg, tmp, args) => vsnprintfLoop D rest args (← emit spec sg tmp s)
termination_by f.length
decreasing_by
  · exact Nat.lt_succ_self _
  · exact Nat.lt_succ_of_le (List.tail_sublist _).length_le
  all_goals
    have hlen := parseSpec_length_le f
    rw [_hf] at hlen
    simp only [List.length_cons] at hlen ⊢
    omega

/-- `vsnprintf`, on a buffer of `sz` bytes: what is in it in the end, and the result. -/
def vsnprintf {δ : Type} (D : Doubles δ) (out : List Byte) (fmt : List Byte)
    (args : List (VaArg δ)) :
    PrintfM (List Byte × Nat) :=
  let sz := out.length
  if sz = 0 then .ok (out, 0)
  else do
    let s ← vsnprintfLoop D fmt args ⟨out, 0, sz⟩
    let buf ← (if 0 < s.rem then s.store s.o 0 else s.store (sz - 1) 0)
    .ok (buf, s.o)

end BradVector.Wasm
