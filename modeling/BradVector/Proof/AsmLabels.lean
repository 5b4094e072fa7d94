import BradVector.Proof.AsmTokens
import Mathlib.Data.BitVec

/-!
# Label addresses and the output of `bradasm`

The output is a sequence of halfwords; every item of a statement is appended to it, behind a pad
where a whole word does not start in the middle of one. The location counter counts by other rules,
and the amount by which it and the output drift apart decides which labels get the address of their
item.
-/

namespace BradVector.Bradasm

open CSem CSem.Machine

/-! ### The output as halfwords -/

def halvesOf (w : Word) : List Hword := [w.setWidth 16, (w >>> 16).setWidth 16]

/-- The halfwords written so far. -/
def Emitter.halves (e : Emitter) : List Hword := e.code.flatMap halvesOf ++ e.half.toList

/-- The bytes written so far. -/
def Emitter.bytes (e : Emitter) : Nat := 2 * e.halves.length

/-- The bytes a pad takes: those of the other half of a word that is begun. -/
def Emitter.pad (e : Emitter) : Nat := if e.half.isSome then 2 else 0

/-- No room is left. -/
def Emitter.Full (e : Emitter) : Prop := asmMaxOutput ≤ e.code.length

instance (e : Emitter) : Decidable e.Full := inferInstanceAs (Decidable (_ ≤ _))

theorem halvesOf_joinHalves (lo hi : Hword) : halvesOf (joinHalves lo hi) = [lo, hi] := by
  have hlo : (joinHalves lo hi).setWidth 16 = lo := by
    ext i
    simp [joinHalves]
  have hhi : (joinHalves lo hi >>> 16).setWidth 16 = hi := by
    ext i hlt
    have hword : i < 32 := by omega
    have hshift : 16 + i < 32 := by omega
    simp [joinHalves, hword, hshift, BitVec.getLsbD_eq_getElem hlt]
  rw [halvesOf, hlo, hhi]

theorem length_flatMap_halvesOf (code : List Word) :
    (code.flatMap halvesOf).length = 2 * code.length := by
  induction code with
  | nil => rfl
  | cons w code ih =>
      rw [List.flatMap_cons, List.length_append, ih, List.length_cons]
      simp only [halvesOf, List.length_cons, List.length_nil]
      omega

theorem Emitter.bytes_eq (e : Emitter) : e.bytes = 4 * e.code.length + e.pad := by
  unfold Emitter.bytes Emitter.halves Emitter.pad
  rw [List.length_append, length_flatMap_halvesOf]
  cases e.half with
  | none =>
      rw [Option.toList_none, List.length_nil, if_neg (by simp)]
      omega
  | some lo =>
      rw [Option.toList_some, List.length_singleton, Option.isSome_some, if_pos rfl]
      omega

section Emission

variable {e e' : Emitter} {half : Hword} {word : Word}

theorem Emitter.emitHalf_of_full (h : e.Full) : e.emitHalf half = none := if_pos h

theorem Emitter.emitHalf_of_not_full (h : ¬ e.Full) (half : Hword) :
    ∃ e', e.emitHalf half = some e' ∧ e'.halves = e.halves ++ [half] ∧
      e.code.length ≤ e'.code.length := by
  have hroom : ¬ asmMaxOutput ≤ e.code.length := h
  unfold Emitter.emitHalf
  rw [if_neg hroom]
  obtain ⟨code, pending⟩ := e
  cases pending with
  | none => exact ⟨⟨code, some half⟩, rfl, by simp [Emitter.halves], le_rfl⟩
  | some lo =>
      refine ⟨⟨code ++ [joinHalves lo half], none⟩, rfl, ?_, ?_⟩
      · simp [Emitter.halves, halvesOf_joinHalves]
      · simp

theorem Emitter.flushHalf_half (e : Emitter) : e.flushHalf.half = none := by
  obtain ⟨code, pending⟩ := e
  cases pending <;> rfl

theorem Emitter.flushHalf_halves (e : Emitter) :
    e.flushHalf.halves = e.halves ++ List.replicate (e.pad / 2) bradCNOP := by
  obtain ⟨code, pending⟩ := e
  cases pending with
  | none => simp [Emitter.flushHalf, Emitter.pad]
  | some lo => simp [Emitter.flushHalf, Emitter.pad, Emitter.halves, halvesOf_joinHalves]

theorem Emitter.flushHalf_of_none (h : e.half = none) : e.flushHalf = e := by
  rw [Emitter.flushHalf, h]

theorem Emitter.flushHalf_flushHalf (e : Emitter) : e.flushHalf.flushHalf = e.flushHalf :=
  Emitter.flushHalf_of_none (Emitter.flushHalf_half e)

theorem Emitter.flushHalf_bytes (e : Emitter) : e.flushHalf.bytes = e.bytes + e.pad := by
  unfold Emitter.bytes
  rw [Emitter.flushHalf_halves, List.length_append, List.length_replicate]
  unfold Emitter.pad
  split_ifs <;> omega

theorem Emitter.length_le_flushHalf (e : Emitter) : e.code.length ≤ e.flushHalf.code.length := by
  obtain ⟨code, pending⟩ := e
  cases pending <;> simp [Emitter.flushHalf]

theorem Emitter.emitWord_of_full (h : e.flushHalf.Full) : e.emitWord word = e.flushHalf :=
  if_neg (Nat.not_lt.mpr h)

theorem Emitter.emitWord_of_not_full (h : ¬ e.flushHalf.Full) :
    (e.emitWord word).halves = e.flushHalf.halves ++ halvesOf word := by
  have hroom : e.flushHalf.code.length < asmMaxOutput := Nat.not_le.mp h
  unfold Emitter.emitWord
  dsimp only
  rw [if_pos hroom]
  simp [Emitter.halves, Emitter.flushHalf_half]

theorem Emitter.length_le_emitWord (e : Emitter) (word : Word) :
    e.flushHalf.code.length ≤ (e.emitWord word).code.length := by
  unfold Emitter.emitWord
  dsimp only
  split_ifs
  · simp
  · exact le_rfl

end Emission

/-! ### The effect of a statement -/

/-- The halfwords a statement emits. -/
def Stmt.item : Stmt → List Hword
  | .half value => [value.setWidth 16]
  | .insn16 insn => [insn]
  | .data value _ => halvesOf value
  | .insn32 insn => halvesOf insn
  | _ => []

/-- The output a statement's item goes behind: a whole word and `.nocompress` flush a pending
half. -/
def Stmt.base (e : Emitter) : Stmt → Emitter
  | .data _ _ | .insn32 _ | .nocompress => e.flushHalf
  | .org _ | .entry _ | .compress | .half _ | .insn16 _ => e

/-- The offset in the output at which the item of a statement is placed, if one is. -/
def Stmt.place (e : Emitter) (stmt : Stmt) : Option Nat :=
  if stmt.item = [] ∨ (stmt.base e).Full then none else some (stmt.base e).bytes

/-- By how many bytes more the output grows with a statement than the location counter. -/
def Stmt.drift (e : Emitter) (pc : Word) : Stmt → Word
  | .org addr => pc - addr.getD pc
  | .nocompress | .insn32 _ => (e.pad : Word)
  | .data _ size => (e.pad : Word) + (4 - size)
  | .entry _ | .compress | .half _ | .insn16 _ => 0

theorem halvesOf_ne_nil (w : Word) : halvesOf w ≠ [] := List.cons_ne_nil _ _

theorem Stmt.place_eq_some {e : Emitter} {stmt : Stmt} {offset : Nat}
    (h : stmt.place e = some offset) :
    stmt.item ≠ [] ∧ ¬ (stmt.base e).Full ∧ (stmt.base e).bytes = offset := by
  unfold Stmt.place at h
  split_ifs at h with hnone
  obtain ⟨hitem, hfull⟩ := not_or.mp hnone
  exact ⟨hitem, hfull, Option.some.inj h⟩

theorem Stmt.place_eq_none {e : Emitter} {stmt : Stmt} (h : stmt.place e = none) :
    stmt.item = [] ∨ (stmt.base e).Full := by
  by_contra hplaced
  unfold Stmt.place at h
  rw [if_neg hplaced] at h
  cases h

theorem Stmt.length_le_base (e : Emitter) (stmt : Stmt) :
    e.code.length ≤ (stmt.base e).code.length := by
  cases stmt with
  | nocompress | data | insn32 => exact Emitter.length_le_flushHalf e
  | org | entry | compress | half | insn16 => exact le_rfl

/-- A placed item stands behind what was there, at the next halfword or, padded, at the next
word. -/
theorem Pass2.perform_placed {s u : Pass2} {stmt : Stmt} {offset : Nat}
    (h : s.perform stmt = some u) (hplace : stmt.place s.out = some offset) :
    u.out.halves = (stmt.base s.out).halves ++ stmt.item := by
  obtain ⟨hitem, hfull, _⟩ := Stmt.place_eq_some hplace
  cases stmt with
  | org addr => exact absurd rfl hitem
  | entry addr => exact absurd rfl hitem
  | compress => exact absurd rfl hitem
  | nocompress => exact absurd rfl hitem
  | half value =>
      have hroom : ¬ s.out.Full := hfull
      obtain ⟨e', hemit, hhalves, _⟩ := Emitter.emitHalf_of_not_full hroom (value.setWidth 16)
      obtain rfl := Option.some.inj h
      dsimp only
      rw [hemit]
      exact hhalves
  | data value size =>
      obtain rfl := Option.some.inj h
      exact Emitter.emitWord_of_not_full hfull
  | insn16 insn =>
      have hroom : ¬ s.out.Full := hfull
      obtain ⟨e', hemit, hhalves, _⟩ := Emitter.emitHalf_of_not_full hroom insn
      rw [Pass2.perform] at h
      obtain ⟨out, hout, rfl⟩ := Option.map_eq_some_iff.mp h
      obtain rfl := Option.some.inj (hemit.symm.trans hout)
      exact hhalves
  | insn32 insn =>
      obtain rfl := Option.some.inj h
      exact Emitter.emitWord_of_not_full hfull

/-- Where nothing is placed, at most a pending half is flushed. -/
theorem Pass2.perform_unplaced {s u : Pass2} {stmt : Stmt} (h : s.perform stmt = some u)
    (hplace : stmt.place s.out = none) : u.out = stmt.base s.out := by
  have hnone := Stmt.place_eq_none hplace
  cases stmt with
  | org addr =>
      obtain rfl := Option.some.inj h
      rfl
  | entry addr =>
      obtain rfl := Option.some.inj h
      rfl
  | compress =>
      obtain rfl := Option.some.inj h
      rfl
  | nocompress =>
      obtain rfl := Option.some.inj h
      rfl
  | half value =>
      have hfull : s.out.Full := hnone.resolve_left (List.cons_ne_nil _ _)
      obtain rfl := Option.some.inj h
      rw [Emitter.emitHalf_of_full hfull]
      rfl
  | data value size =>
      obtain rfl := Option.some.inj h
      exact Emitter.emitWord_of_full (hnone.resolve_left (halvesOf_ne_nil value))
  | insn16 insn =>
      have hfull : s.out.Full := hnone.resolve_left (List.cons_ne_nil _ _)
      simp [Pass2.perform, Emitter.emitHalf_of_full hfull] at h
  | insn32 insn =>
      obtain rfl := Option.some.inj h
      exact Emitter.emitWord_of_full (hnone.resolve_left (halvesOf_ne_nil insn))

theorem Pass2.perform_length_le {s u : Pass2} {stmt : Stmt} (h : s.perform stmt = some u) :
    (stmt.base s.out).code.length ≤ u.out.code.length := by
  cases stmt with
  | org | entry | compress | nocompress =>
      obtain rfl := Option.some.inj h
      exact le_rfl
  | data value size =>
      obtain rfl := Option.some.inj h
      exact Emitter.length_le_emitWord s.out value
  | insn32 insn =>
      obtain rfl := Option.some.inj h
      exact Emitter.length_le_emitWord s.out insn
  | half value =>
      obtain rfl := Option.some.inj h
      dsimp only
      by_cases hfull : s.out.Full
      · rw [Emitter.emitHalf_of_full hfull]
        exact le_rfl
      · obtain ⟨e', hemit, _, hle⟩ := Emitter.emitHalf_of_not_full hfull (value.setWidth 16)
        rw [hemit]
        exact hle
  | insn16 insn =>
      rw [Pass2.perform] at h
      obtain ⟨out, hout, rfl⟩ := Option.map_eq_some_iff.mp h
      by_cases hfull : s.out.Full
      · rw [Emitter.emitHalf_of_full hfull] at hout
        cases hout
      · obtain ⟨e', hemit, _, hle⟩ := Emitter.emitHalf_of_not_full hfull insn
        obtain rfl := Option.some.inj (hemit.symm.trans hout)
        exact hle

theorem Stmt.halves_base (e : Emitter) (stmt : Stmt) : e.halves <+: (stmt.base e).halves := by
  cases stmt with
  | nocompress | data | insn32 =>
      change e.halves <+: e.flushHalf.halves
      rw [Emitter.flushHalf_halves]
      exact List.prefix_append _ _
  | org | entry | compress | half | insn16 => exact List.prefix_rfl

/-- What has been written stays. -/
theorem Pass2.perform_halves {s u : Pass2} {stmt : Stmt} (h : s.perform stmt = some u) :
    s.out.halves <+: u.out.halves := by
  apply (Stmt.halves_base s.out stmt).trans
  cases hplace : stmt.place s.out with
  | some offset =>
      rw [Pass2.perform_placed h hplace]
      exact List.prefix_append _ _
  | none => rw [Pass2.perform_unplaced h hplace]

/-- As long as the output is not full, a statement's item is in it. -/
theorem Pass2.perform_bytes {s u : Pass2} {stmt : Stmt} (h : s.perform stmt = some u)
    (hfull : ¬ u.out.Full) : u.out.bytes = (stmt.base s.out).bytes + 2 * stmt.item.length := by
  have hbase : ¬ (stmt.base s.out).Full :=
    fun hbase => hfull (Nat.le_trans hbase (Pass2.perform_length_le h))
  cases hplace : stmt.place s.out with
  | some offset =>
      rw [Emitter.bytes, Pass2.perform_placed h hplace, List.length_append, Nat.mul_add]
      rfl
  | none =>
      have hitem : stmt.item = [] := (Stmt.place_eq_none hplace).resolve_right hbase
      rw [Pass2.perform_unplaced h hplace, hitem]
      rfl

/-- What a statement adds to the distance between the output and the location counter. -/
theorem Pass2.perform_drift {s u : Pass2} {stmt : Stmt} (h : s.perform stmt = some u)
    (hfull : ¬ u.out.Full) :
    (u.out.bytes : Word) - u.pc = s.out.bytes - s.pc + stmt.drift s.out s.pc := by
  rw [Pass2.perform_bytes h hfull]
  cases stmt with
  | org addr =>
      obtain rfl := Option.some.inj h
      simp only [Stmt.base, Stmt.item, Stmt.drift, List.length_nil, Nat.mul_zero, Nat.add_zero]
      ring
  | entry addr =>
      obtain rfl := Option.some.inj h
      exact (add_zero _).symm
  | compress =>
      obtain rfl := Option.some.inj h
      exact (add_zero _).symm
  | nocompress =>
      obtain rfl := Option.some.inj h
      simp only [Stmt.base, Stmt.item, Stmt.drift, List.length_nil, Nat.mul_zero, Nat.add_zero,
        Emitter.flushHalf_bytes]
      push_cast
      ring
  | half value =>
      obtain rfl := Option.some.inj h
      simp only [Stmt.base, Stmt.item, Stmt.drift, List.length_singleton, add_zero]
      push_cast
      ring
  | data value size =>
      obtain rfl := Option.some.inj h
      simp only [Stmt.base, Stmt.item, Stmt.drift, halvesOf, List.length_cons, List.length_nil,
        Emitter.flushHalf_bytes]
      push_cast
      ring
  | insn16 insn =>
      rw [Pass2.perform] at h
      obtain ⟨out, _, rfl⟩ := Option.map_eq_some_iff.mp h
      simp only [Stmt.base, Stmt.item, Stmt.drift, List.length_singleton, add_zero]
      push_cast
      ring
  | insn32 insn =>
      obtain rfl := Option.some.inj h
      simp only [Stmt.base, Stmt.item, Stmt.drift, halvesOf, List.length_cons, List.length_nil,
        Emitter.flushHalf_bytes]
      push_cast
      ring

/-! ### The rounds of the second pass -/

/-- The statement the second pass stands at. -/
def Pass2.stmt? (symbols : List Symbol) (s : Pass2) : Option Stmt :=
  let lx := lexNext s.lx
  match lx.head, parseStmt s.compress ⟨symbols, s.pc⟩ lx with
  | .stmt, .ok (stmt, _) => some stmt
  | _, _ => none

/-- The second pass stands at `stmt` and places its item at `offset`. -/
structure Pass2.Places (symbols : List Symbol) (s : Pass2) (stmt : Stmt) (offset : Nat) : Prop where
  stands : s.stmt? symbols = some stmt
  placed : stmt.place s.out = some offset

/-- What the statement here adds to the distance between the output and the location counter. -/
def Pass2.drift (symbols : List Symbol) (s : Pass2) : Word :=
  match s.stmt? symbols with
  | some stmt => stmt.drift s.out s.pc
  | none => 0

section Rounds

variable {symbols : List Symbol} {s t : Pass2}

theorem pass2Step_cases (h : pass2Step symbols s = .ok t) :
    (s.stmt? symbols = none ∧ ∃ lx, t = { s with lx }) ∨
      ∃ stmt u lx, s.stmt? symbols = some stmt ∧ s.perform stmt = some u ∧ t = { u with lx } := by
  unfold pass2Step at h
  unfold Pass2.stmt?
  dsimp only at h ⊢
  cases hhead : (lexNext s.lx).head with
  | eof => simp [hhead] at h
  | newline =>
      simp only [hhead] at h
      exact .inl ⟨rfl, _, (Except.ok.inj h).symm⟩
  | label =>
      simp only [hhead] at h
      exact .inl ⟨rfl, _, (Except.ok.inj h).symm⟩
  | colon =>
      simp only [hhead] at h
      exact .inl ⟨rfl, _, (Except.ok.inj h).symm⟩
  | stmt =>
      simp only [hhead] at h
      cases hstmt : pass2Stmt symbols s (lexNext s.lx) with
      | error e => simp [hstmt, Except.mapError] at h
      | ok u =>
          rw [hstmt] at h
          obtain rfl : u = t := Except.ok.inj h
          obtain ⟨stmt, lx', v, hparse, hperform, rfl⟩ := pass2Stmt_eq_ok hstmt
          rw [hparse]
          exact .inr ⟨stmt, v, _, rfl, hperform, rfl⟩

theorem pass2Step_length_le (h : pass2Step symbols s = .ok t) :
    s.out.code.length ≤ t.out.code.length := by
  obtain ⟨_, lx, rfl⟩ | ⟨stmt, u, lx, _, hperform, rfl⟩ := pass2Step_cases h
  · exact le_rfl
  · exact (Stmt.length_le_base s.out stmt).trans (Pass2.perform_length_le (u := u) hperform)

theorem pass2Step_not_full (h : pass2Step symbols s = .ok t) (hfull : ¬ t.out.Full) :
    ¬ s.out.Full :=
  fun hs => hfull (Nat.le_trans hs (pass2Step_length_le h))

theorem pass2Step_drift (h : pass2Step symbols s = .ok t) (hfull : ¬ t.out.Full) :
    (t.out.bytes : Word) - t.pc = s.out.bytes - s.pc + s.drift symbols := by
  unfold Pass2.drift
  obtain ⟨hnone, lx, rfl⟩ | ⟨stmt, u, lx, hstmt, hperform, rfl⟩ := pass2Step_cases h
  · rw [hnone]
    exact (add_zero _).symm
  · rw [hstmt]
    exact Pass2.perform_drift (u := u) hperform hfull

/-- A round that places nothing leaves the output as it was or flushes it. -/
theorem pass2Step_unplaced (h : pass2Step symbols s = .ok t)
    (hnone : ∀ stmt offset, ¬ s.Places symbols stmt offset) :
    t.out = s.out ∨ t.out = s.out.flushHalf := by
  obtain ⟨_, lx, rfl⟩ | ⟨stmt, u, lx, hstmt, hperform, rfl⟩ := pass2Step_cases h
  · exact .inl rfl
  · cases hplace : stmt.place s.out with
    | some offset => exact absurd ⟨hstmt, hplace⟩ (hnone stmt offset)
    | none =>
        change u.out = s.out ∨ u.out = s.out.flushHalf
        rw [Pass2.perform_unplaced hperform hplace]
        cases stmt with
        | data | insn32 | nocompress => exact .inr rfl
        | org | entry | compress | half | insn16 => exact .inl rfl

/-- The distance between the output and the location counter is what has been added to it. -/
theorem pass2_drift {n : Nat} (h : after (pass2Step symbols) n s = .ok t) (hfull : ¬ t.out.Full) :
    (t.out.bytes : Word) - t.pc =
      s.out.bytes - s.pc + total (pass2Step symbols) (Pass2.drift symbols) n s :=
  (eq_add_total (fun _ _ hstep ht => ⟨pass2Step_not_full hstep ht, pass2Step_drift hstep ht⟩)
    h hfull).2

theorem pass2Step_halves (h : pass2Step symbols s = .ok t) : s.out.halves <+: t.out.halves := by
  obtain ⟨_, lx, rfl⟩ | ⟨stmt, u, lx, _, hperform, rfl⟩ := pass2Step_cases h
  · exact List.prefix_rfl
  · exact Pass2.perform_halves (u := u) hperform

theorem pass2_halves {n : Nat} (h : after (pass2Step symbols) n s = .ok t) :
    s.out.halves <+: t.out.halves :=
  rel_of_after (R := fun s t => s.out.halves <+: t.out.halves) (fun _ => List.prefix_rfl)
    (fun _ _ _ => List.IsPrefix.trans) (fun _ _ => pass2Step_halves) h

theorem pass2_code_le {n : Nat} (h : after (pass2Step symbols) n s = .ok t) :
    s.out.code.length ≤ t.out.code.length :=
  rel_of_after (R := fun s t => s.out.code.length ≤ t.out.code.length) (fun _ => le_rfl)
    (fun _ _ _ => le_trans) (fun _ _ => pass2Step_length_le) h

theorem pass2_rest_le {n : Nat} (h : after (pass2Step symbols) n s = .ok t) :
    t.lx.p.length ≤ s.lx.p.length :=
  rel_of_after (R := fun s t => t.lx.p.length ≤ s.lx.p.length) (fun _ => le_rfl)
    (fun _ _ _ h h' => h'.trans h) (fun _ _ hstep => (pass2Step_length_lt hstep).le) h

theorem pass2_unplaced {n : Nat} (h : after (pass2Step symbols) n s = .ok t)
    (hnone : ∀ m u stmt offset, m < n → after (pass2Step symbols) m s = .ok u →
      ¬ u.Places symbols stmt offset) : t.out = s.out ∨ t.out = s.out.flushHalf := by
  induction n generalizing t with
  | zero =>
      cases h
      exact .inl rfl
  | succ n ih =>
      obtain ⟨u, hu, hlast⟩ := after_succ_eq_ok_iff.mp h
      have hstart :=
        ih hu fun m v stmt offset hlt => hnone m v stmt offset (hlt.trans n.lt_succ_self)
      have hstep :=
        pass2Step_unplaced hlast fun stmt offset => hnone n u stmt offset n.lt_succ_self hu
      rcases hstart with hstart | hstart <;> rw [hstart] at hstep
      · exact hstep
      · rw [Emitter.flushHalf_flushHalf, or_self] at hstep
        exact .inr hstep

end Rounds

/-! ### The recorded labels -/

theorem pass1Stmt_symbols (s : Pass1) (lx : Lexer) : (pass1Stmt s lx).symbols = s.symbols := by
  unfold pass1Stmt
  split <;> rfl

theorem pass1Step_symbols {s t : Pass1} (h : pass1Step s = .ok t) : s.symbols <+: t.symbols := by
  unfold pass1Step at h
  dsimp only at h
  cases hhead : (lexNext s.lx).head with
  | eof => simp [hhead] at h
  | newline =>
      simp only [hhead] at h
      obtain rfl := Except.ok.inj h
      exact List.prefix_rfl
  | label =>
      simp only [hhead] at h
      obtain rfl := Except.ok.inj h
      dsimp only
      split_ifs
      · exact List.prefix_append _ _
      · exact List.prefix_rfl
  | colon =>
      simp only [hhead] at h
      obtain rfl := Except.ok.inj h
      exact List.prefix_rfl
  | stmt =>
      simp only [hhead] at h
      obtain rfl := Except.ok.inj h
      rw [pass1Stmt_symbols]

theorem pass1Step_result {s : Pass1} {symbols : List Symbol} (h : pass1Step s = .error symbols) :
    symbols = s.symbols := by
  unfold pass1Step at h
  dsimp only at h
  cases hhead : (lexNext s.lx).head <;> simp only [hhead, Except.error.injEq, reduceCtorEq] at h
  exact h.symm

theorem symbols_earlier {s : Pass1} {symbols : List Symbol} (h : EndsWith pass1Step s symbols) :
    s.symbols <+: symbols := by
  obtain ⟨n, t, hn, ht⟩ := h
  rw [pass1Step_result ht]
  exact rel_of_after (R := fun s t => s.symbols <+: t.symbols) (fun _ => List.prefix_rfl)
    (fun _ _ _ => List.IsPrefix.trans) (fun _ _ => pass1Step_symbols) hn

/-- The first pass comes to a label in the state `s` and has room to record it. -/
structure Recorded (source : List Byte) (s : Pass1) : Prop where
  reached : ∃ n, after pass1Step n (pass1Init source) = .ok s
  label : (lexNext s.lx).head = .label
  room : s.symbols.length < asmMaxSymbols

/-- The label's symbol is in the table, with the location counter of the first pass. -/
theorem Recorded.symbol {source : List Byte} {s : Pass1} (h : Recorded source s) :
    (pass1 source)[s.symbols.length]? = some ⟨(lexNext s.lx).tok.text, s.pc⟩ := by
  obtain ⟨n, hn⟩ := h.reached
  have hstep : ∃ t, pass1Step s = .ok t ∧
      t.symbols = s.symbols ++ [⟨(lexNext s.lx).tok.text, s.pc⟩] := by
    unfold pass1Step
    dsimp only
    rw [h.label]
    exact ⟨_, rfl, if_pos h.room⟩
  obtain ⟨t, ht, hsymbols⟩ := hstep
  have hend : EndsWith pass1Step t (pass1 source) :=
    (pass1_ends source).of_after (after_succ_eq_ok_iff.mpr ⟨s, hn, ht⟩)
  obtain ⟨later, hlater⟩ := symbols_earlier hend
  rw [← hlater, hsymbols, List.append_assoc, List.getElem?_append_right le_rfl, Nat.sub_self]
  rfl

/-! ### The item behind a label -/

/-- The text of the second pass begins at the label of `s` or behind it. -/
def Pass2.Behind (s : Pass1) (t : Pass2) : Prop := t.lx.p.length ≤ s.lx.p.length

/-- After `n` rounds the second pass is in `t`, where it places the first item behind the label of
`s`: that of `stmt`, at `offset`. -/
structure FirstItem (source : List Byte) (s : Pass1) (n : Nat) (t : Pass2) (stmt : Stmt)
    (offset : Nat) : Prop where
  first : First (pass2Step (pass1 source))
    (fun u => u.Behind s ∧ ∃ stmt offset, u.Places (pass1 source) stmt offset)
      (pass2Init source) n t
  places : t.Places (pass1 source) stmt offset

/-- The address recorded for every label is the offset of the first item behind it. -/
def LabelsPlaced (source : List Byte) (out : Output) : Prop :=
  ∀ s n t stmt offset, Recorded source s → FirstItem source s n t stmt offset →
    (out.symbols[s.symbols.length]?).map (fun symbol => symbol.addr.toNat) = some offset

/-- The pad put in between the output `e` at a label and the item behind it, which goes to `e'`. -/
def padTo (e e' : Emitter) (stmt : Stmt) : Nat :=
  if (stmt.base e').half.isSome then 0 else e.pad

/-- Up to every label, the drifts of the second pass, the pad in front of the item and the distance
of the two location counters cancel out. -/
def CountsAgree (source : List Byte) : Prop :=
  ∀ s n t stmt offset k u, Recorded source s → FirstItem source s n t stmt offset →
    First (pass2Step (pass1 source)) (Pass2.Behind s) (pass2Init source) k u →
    total (pass2Step (pass1 source)) (Pass2.drift (pass1 source)) k (pass2Init source) +
      (padTo u.out t.out stmt : Word) + (u.pc - s.pc) = 0

theorem Stmt.base_eq (e : Emitter) (stmt : Stmt) :
    stmt.base e = e ∨ stmt.base e = e.flushHalf := by
  cases stmt with
  | data | insn32 | nocompress => exact .inr rfl
  | org | entry | compress | half | insn16 => exact .inl rfl

theorem base_bytes {e e' : Emitter} (stmt : Stmt) (h : e' = e ∨ e' = e.flushHalf) :
    (stmt.base e').bytes = e.bytes + padTo e e' stmt := by
  have hbase : stmt.base e' = e ∨ stmt.base e' = e.flushHalf := by
    rcases h with rfl | rfl
    · exact Stmt.base_eq _ stmt
    · have hflush := Stmt.base_eq e.flushHalf stmt
      rw [Emitter.flushHalf_flushHalf, or_self] at hflush
      exact .inr hflush
  unfold padTo
  rcases hbase with hbase | hbase <;> rw [hbase]
  · unfold Emitter.pad
    split_ifs <;> rfl
  · rw [Emitter.flushHalf_half, Emitter.flushHalf_bytes]
    rfl

section Placing

variable {source : List Byte} {s : Pass1} {n k : Nat} {t u : Pass2} {stmt : Stmt} {offset : Nat}

/-- From the label on nothing is placed before the item, so that only a pad comes in between. -/
theorem FirstItem.offset_eq (h : FirstItem source s n t stmt offset)
    (hu : First (pass2Step (pass1 source)) (Pass2.Behind s) (pass2Init source) k u) :
    ¬ u.out.Full ∧ offset = u.out.bytes + padTo u.out t.out stmt := by
  obtain ⟨_, hfull, hoffset⟩ := Stmt.place_eq_some h.places.placed
  have hle : k ≤ n := by
    by_contra hlt
    exact hu.earlier n t (Nat.lt_of_not_le hlt) h.first.reached h.first.holds.1
  obtain ⟨v, hv, hrest⟩ := exists_after_of_le h.first.reached hle
  obtain rfl : v = u := Except.ok.inj (hv.symm.trans hu.reached)
  have hsame : t.out = v.out ∨ t.out = v.out.flushHalf := by
    apply pass2_unplaced hrest
    intro m w stmt' offset' hlt hw hplaces
    have hreached : after (pass2Step (pass1 source)) (k + m) (pass2Init source) = .ok w := by
      rw [after_add_of_ok hv, hw]
    have hbehind : w.Behind s := (pass2_rest_le hw).trans hu.holds
    exact h.first.earlier (k + m) w (by omega) hreached ⟨hbehind, stmt', offset', hplaces⟩
  refine ⟨?_, hoffset.symm.trans (base_bytes stmt hsame)⟩
  intro hv
  exact hfull ((Nat.le_trans hv (pass2_code_le hrest)).trans (Stmt.length_le_base t.out stmt))

theorem Emitter.bytes_lt_of_not_full {e : Emitter} (h : ¬ e.Full) : e.bytes < 2 ^ 32 := by
  have hlen : e.code.length < asmMaxOutput := Nat.not_le.mp h
  have hpad : e.pad ≤ 2 := by
    unfold Emitter.pad
    split_ifs <;> omega
  rw [Emitter.bytes_eq]
  unfold asmMaxOutput at hlen
  omega

theorem FirstItem.offset_lt (h : FirstItem source s n t stmt offset) : offset < 2 ^ 32 := by
  obtain ⟨_, hfull, rfl⟩ := Stmt.place_eq_some h.places.placed
  exact Emitter.bytes_lt_of_not_full hfull

/-- The offset of the item, from the location counter of the first pass at its label. -/
theorem FirstItem.offset_drift (h : FirstItem source s n t stmt offset)
    (hu : First (pass2Step (pass1 source)) (Pass2.Behind s) (pass2Init source) k u) :
    (offset : Word) = s.pc +
      (total (pass2Step (pass1 source)) (Pass2.drift (pass1 source)) k (pass2Init source) +
        (padTo u.out t.out stmt : Word) + (u.pc - s.pc)) := by
  obtain ⟨hfull, hoffset⟩ := h.offset_eq hu
  have hdrift := pass2_drift hu.reached hfull
  have hinit : ((pass2Init source).out.bytes : Word) - (pass2Init source).pc = 0 := by
    simp [pass2Init,
    Emitter.init, Emitter.bytes, Emitter.halves]
  rw [hinit, zero_add] at hdrift
  rw [hoffset, ← hdrift]
  push_cast
  ring

theorem FirstItem.exists_behind (h : FirstItem source s n t stmt offset) :
    ∃ k u, First (pass2Step (pass1 source)) (Pass2.Behind s) (pass2Init source) k u :=
  h.first.exists_of_imp fun _ hu => hu.1

end Placing

theorem pass2Step_output {symbols : List Symbol} {s : Pass2} {out : Output}
    (h : pass2Step symbols s = .error (.ok out)) :
    out = ⟨s.out.flushHalf.code, s.entryPoint, symbols⟩ := by
  unfold pass2Step at h
  dsimp only at h
  cases hhead : (lexNext s.lx).head with
  | eof =>
      simp only [hhead] at h
      exact (Except.ok.inj (Except.error.inj h)).symm
  | newline | label | colon => simp [hhead] at h
  | stmt =>
      simp only [hhead] at h
      cases hstmt : pass2Stmt symbols s (lexNext s.lx) <;> simp [hstmt, Except.mapError] at h

theorem bradAsAssemble_symbols {source : List Byte} {out : Output}
    (h : bradAsAssemble source = .ok out) : out.symbols = pass1 source := by
  obtain ⟨n, t, _, ht⟩ := pass2_ends source
  rw [h] at ht
  rw [pass2Step_output ht]

/-- The second pass goes on from a statement or refuses the source. -/
theorem pass2Step_of_stands {symbols : List Symbol} {s : Pass2} {stmt : Stmt} {out : Output}
    (h : s.stmt? symbols = some stmt) : pass2Step symbols s ≠ .error (.ok out) := by
  intro herror
  have hhead : (lexNext s.lx).head = .stmt := by
    unfold Pass2.stmt? at h
    dsimp only at h
    split at h
    · assumption
    · cases h
  unfold pass2Step at herror
  simp only [hhead] at herror
  cases hstmt : pass2Stmt symbols s (lexNext s.lx) <;> simp [hstmt, Except.mapError] at herror

/-- The output of an accepted source holds the item of every statement at the offset at which it was
placed. -/
theorem placed_in_output {source : List Byte} {out : Output} {n : Nat} {t : Pass2} {stmt : Stmt}
    {offset : Nat} (h : bradAsAssemble source = .ok out)
    (ht : after (pass2Step (pass1 source)) n (pass2Init source) = .ok t)
    (hplaces : t.Places (pass1 source) stmt offset) :
    stmt.item <+: (out.code.flatMap halvesOf).drop (offset / 2) := by
  have hend : EndsWith (pass2Step (pass1 source)) t (.ok out) := by
    rw [← h]
    exact (pass2_ends source).of_after ht
  obtain ⟨m, v, hm, hv⟩ := hend
  obtain ⟨_, _, hoffset⟩ := Stmt.place_eq_some hplaces.placed
  cases m with
  | zero =>
      cases hm
      exact absurd hv (pass2Step_of_stands hplaces.stands)
  | succ m =>
      obtain ⟨u, hu, hrest⟩ := after_head_eq_ok_iff.mp hm
      have hitem : (stmt.base t.out).halves ++ stmt.item = u.out.halves := by
        obtain ⟨hnone, _⟩ | ⟨stmt', w, lx, hstands, hperform, rfl⟩ := pass2Step_cases hu
        · rw [hplaces.stands] at hnone
          cases hnone
        · obtain rfl := Option.some.inj (hplaces.stands.symm.trans hstands)
          exact (Pass2.perform_placed (u := w) hperform hplaces.placed).symm
      have hcode : out.code.flatMap halvesOf = v.out.flushHalf.halves := by
        rw [pass2Step_output hv]
        simp [Emitter.halves, Emitter.flushHalf_half]
      have hflush : v.out.halves <+: v.out.flushHalf.halves :=
        Stmt.halves_base v.out .nocompress
      obtain ⟨later, hlater⟩ := (pass2_halves hrest).trans hflush
      rw [hcode, ← hlater, ← hitem, ← hoffset, Emitter.bytes,
        Nat.mul_div_cancel_left _ Nat.two_pos, List.append_assoc, List.drop_left]
      exact List.prefix_append _ _

/-- An accepted source gives every label the address of the item behind it exactly when what the two
passes count apart from the output cancels out up to each label. -/
theorem labels_placed_iff {source : List Byte} {out : Output}
    (h : bradAsAssemble source = .ok out) :
    LabelsPlaced source out ↔ CountsAgree source := by
  have hsymbols := bradAsAssemble_symbols h
  constructor
  · intro hplaced s n t stmt offset k u hlabel hitem hu
    have haddr := hplaced s n t stmt offset hlabel hitem
    rw [hsymbols, hlabel.symbol, Option.map_some] at haddr
    have hpc : (offset : Word) = s.pc := by
      rw [← Option.some.inj haddr, BitVec.natCast_eq_ofNat, BitVec.ofNat_toNat, BitVec.setWidth_eq]
    have hoffset := hitem.offset_drift hu
    rw [hpc] at hoffset
    exact add_eq_left.mp hoffset.symm
  · intro hagree s n t stmt offset hlabel hitem
    obtain ⟨k, u, hu⟩ := hitem.exists_behind
    have hoffset := hitem.offset_drift hu
    rw [hagree s n t stmt offset k u hlabel hitem hu, add_zero] at hoffset
    rw [hsymbols, hlabel.symbol, Option.map_some, ← hoffset, BitVec.natCast_eq_ofNat,
      BitVec.toNat_ofNat]
    exact congrArg some (Nat.mod_eq_of_lt hitem.offset_lt)

theorem labels_placed_iff_words :
    LabelsPlaced (cstr ".word 7\nfoo:\n.word foo\n") ⟨[7, 4], 0, [⟨cstr "foo", 4⟩]⟩ ↔
      CountsAgree (cstr ".word 7\nfoo:\n.word foo\n") :=
  labels_placed_iff rfl

/-! ### A byte in front of a label -/

/-- A byte takes a whole word of the output and counts as one byte. -/
def byteSource : List Byte := cstr ".byte 1\nfoo:\n.word 2\n"

/-- The first pass at `foo`. -/
def byteLabel : Pass1 := ⟨⟨cstr "foo:\n.word 2\n", 2, .plain .newline⟩, 1, false, []⟩

/-- The second pass at the word behind `foo`. -/
def byteItem : Pass2 := ⟨⟨cstr ".word 2\n", 3, .plain .newline⟩, 1, false, ⟨[1], none⟩, 0⟩

theorem byteLabel_recorded : Recorded byteSource byteLabel :=
  ⟨⟨1, rfl⟩, by decide, by decide⟩

theorem byteItem_first : FirstItem byteSource byteLabel 2 byteItem (.data 2 4) 4 := by
  have hplaces : byteItem.Places (pass1 byteSource) (.data 2 4) 4 := ⟨rfl, rfl⟩
  have hbehind : byteItem.Behind byteLabel := by
    unfold Pass2.Behind
    decide
  refine ⟨⟨rfl, ⟨hbehind, _, _, hplaces⟩, ?_⟩, hplaces⟩
  intro m u hm hu hfirst
  obtain ⟨hbehind, stmt, offset, hstands, _⟩ := hfirst
  -- before the label the text is too long, and at the label no statement stands
  match m, hm, hu with
  | 0, _, hu =>
      obtain rfl := Except.ok.inj hu
      unfold Pass2.Behind at hbehind
      exact absurd hbehind (by decide)
  | 1, _, hu =>
      obtain rfl := Except.ok.inj hu
      cases hstands

theorem byteLabel_not_placed :
    ¬ ∀ source out, bradAsAssemble source = .ok out → LabelsPlaced source out := by
  intro hall
  have haccepted : bradAsAssemble byteSource = .ok ⟨[1, 2], 0, [⟨cstr "foo", 1⟩]⟩ := rfl
  have haddr := hall _ _ haccepted _ _ _ _ _ byteLabel_recorded byteItem_first
  exact absurd haddr (by decide)

end BradVector.Bradasm
