import BradVector.Proof.LaneResults
import BradVector.Proof.Written

/-!
# Moves

The assembler has no move instruction: `MOV Sd, Ss` is `ADDi Sd, Ss, 0`, a float addition of `+0`.
Where nothing is known of the host's addition but that `+0` is neutral for numbers and turns `-0`
into `+0`, the two bit patterns a move may change are those of `-0` and of the NaNs.
-/

namespace BradVector

open CSem

/-! ### The host's addition -/

/-- `-0.0f`. -/
def floatNegZero : Word := 0x80000000

/-- All exponent bits and some fraction bit are set. -/
def IsNan (x : Word) : Prop := 0x7F800000 < x &&& 0x7FFFFFFF

instance (x : Word) : Decidable (IsNan x) := by
  unfold IsNan
  infer_instance

/-- Adding `+0`, as far as IEEE 754 fixes the result. -/
structure HostMath.NeutralZero (F : HostMath) : Prop where
  exact : ∀ x, ¬ IsNan x → x ≠ floatNegZero → F.add x 0 = x
  negZero : F.add floatNegZero 0 = 0

/-- A host whose sums with `+0` are `nan` for every NaN. -/
def hostWithNan (nan : Word) : HostMath :=
  { HostMath.integer with
    add := fun x y =>
      if y = 0 then
        if IsNan x then nan
        else if x = floatNegZero then 0
        else x
      else x + y }

theorem hostWithNan_neutralZero (nan : Word) : (hostWithNan nan).NeutralZero := by
  constructor
  · intro x hx hne
    simp [hostWithNan, hx, hne]
  · have hnumber : ¬ IsNan floatNegZero := by decide
    simp [hostWithNan, hnumber]

theorem hostWithNan_of_nan {x nan : Word} (h : IsNan x) : (hostWithNan nan).add x 0 = nan := by
  simp [hostWithNan, h]

/-- Two hosts disagree on every NaN. -/
theorem exact_addZero_iff {x : Word} :
    (∀ F : HostMath, F.NeutralZero → F.add x 0 = x) ↔ x ≠ floatNegZero ∧ ¬ IsNan x := by
  constructor
  · intro h
    constructor
    · rintro rfl
      have hsame := h _ (hostWithNan_neutralZero 0)
      rw [(hostWithNan_neutralZero 0).negZero] at hsame
      exact absurd hsame (by decide)
    · intro hnan
      have hquiet := h _ (hostWithNan_neutralZero 0x7FC00000)
      have hnegative := h _ (hostWithNan_neutralZero 0xFFC00000)
      rw [hostWithNan_of_nan hnan] at hquiet hnegative
      exact absurd (hquiet.trans hnegative.symm) (by decide)
  · rintro ⟨hzero, hnan⟩ F hF
    exact hF.exact x hnan hzero

/-! ### The line and its word -/

/-- The text names the scalar register `r`. -/
def NamesScalar (text : List Byte) (r : BitVec 8) : Prop :=
  letterClass (text.headD 0) = .s ∧ regIndex text = some (r.toNat : Int)

/-- The line is `MOV Sd, Ss`, with a predicate or without. -/
structure MovesLine (h : Lexer) (dst src : BitVec 8) : Prop where
  mnemonic : (written h).mnemonic = cstr "MOV"
  pred : PredFits (written h).pred
  operands : ∃ td ts, (written h).operands = [.word td, .word ts] ∧ NamesScalar td dst ∧
    NamesScalar ts src

section Line

variable {h lx' : Lexer} {a : BradcAsm} {w : BitVec 64} {dst src : BitVec 8}

theorem written_mnemonic (h : Lexer) : (written h).mnemonic = h.t.text := by
  unfold written
  split_ifs <;> rfl

theorem MovesLine.fits (hmove : MovesLine h dst src) : (written h).Fits := by
  obtain ⟨td, ts, hops, ⟨hd, hdi⟩, ⟨hs, hsi⟩⟩ := hmove.operands
  refine ⟨.addi, ?_, hmove.pred, ?_⟩
  · rw [hmove.mnemonic]
    exact opOf_mov
  · rw [hmove.mnemonic, hops, slots, if_pos rfl]
    exact .cons ⟨hd, by simp [hdi]⟩ (.cons ⟨hs, by simp [hsi]⟩ .nil)

theorem NamesScalar.eq {text : List Byte} {r r' : BitVec 8} (h : NamesScalar text r)
    (h' : regIndex text = some (r'.toNat : Int)) : r' = r := by
  have heq : (r'.toNat : Int) = r.toNat := Option.some.inj (h'.symm.trans h.2)
  apply BitVec.eq_of_toNat_eq
  omega

/-- The word of a `MOV` is an `ADDi` with the immediate 0. -/
theorem insnWord_move (htext : h.t.text = cstr "MOV") (hok : insnWord a h = .ok (lx', w)) :
    ∃ pred d s, w = bven Opcode.addi.toByte pred d s 0 0 0 0 := by
  obtain ⟨op, pred, start, hop, -, hform⟩ := insnWord_form hok
  rw [htext, opOf_mov] at hop
  obtain rfl := Option.some.inj hop
  rw [htext] at hform
  cases hform with
  | plain hplain => simp [Opcode.isPlain] at hplain
  | jump hjump => simp [Opcode.isJump] at hjump
  | special hspecial => simp [Opcode.isSpecial] at hspecial
  | sources _ _ _ _ _ _ hform =>
      cases hform with
      | compare hcmp => cases hcmp
      | load hload => simp at hload
      | store hstore => simp at hstore
      | move => exact ⟨_, _, _, rfl⟩
      | immediate _ hmn => exact absurd rfl hmn
      | oneSource hone => cases hone
      | twoSources _ _ haddi => exact absurd rfl haddi

theorem MovesLine.word (hmove : MovesLine h dst src) (hok : insnWord a h = .ok (lx', w)) :
    Opcode.ofByte (bvDecode w).op = some .addi ∧ (bvDecode w).dst = dst ∧ (bvDecode w).src1 = src ∧
      (bvDecode w).imm = 0 := by
  have htext : h.t.text = cstr "MOV" := (written_mnemonic h).symm.trans hmove.mnemonic
  obtain ⟨op, -, -, -, hslots⟩ := insnWord_faithful hok hmove.fits
  obtain ⟨td, ts, hops, hd, hs⟩ := hmove.operands
  rw [hmove.mnemonic, hops, slots, if_pos rfl, List.forall₂_cons, List.forall₂_cons] at hslots
  have hdst : (bvDecode w).dst = dst := hd.eq hslots.1.2
  have hsrc : (bvDecode w).src1 = src := hs.eq hslots.2.1.2
  obtain ⟨pred, d, s, rfl⟩ := insnWord_move htext hok
  refine ⟨?_, hdst, hsrc, ?_⟩
  · rw [bvDecode_bven]
    exact Opcode.ofByte_toByte .addi
  · rw [bvDecode_bven]

end Line

/-! ### The move executed -/

section Move

variable {source : List Byte} {img img' : BvbcImage} {words : List (BitVec 64)} {n : Nat}
  {h : Lexer} {dst src : BitVec 8} {d : Device} {l : Fin warpSize}

/-- `ADDi` with the immediate 0 adds `+0` in every enabled lane. -/
theorem bvrtStep_addZero (F : HostMath) (hex : d.Executing)
    (hop : Opcode.ofByte d.fetch.op = some .addi) (himm : d.fetch.imm = 0)
    (hl : d.EnabledLane d.fetch.pred l) (hdst : d.fetch.dst ≠ sZero) :
    ∃ d', bvrtStep F d = .ok (.ok, d') ∧
      (d'.lane l).s d.fetch.dst = F.add ((d.lane l).s d.fetch.src1) 0 := by
  have hpred : ¬ PredOutOfRange d.fetch.pred := fun hout => not_predHolds_of_outOfRange hout hl.2
  have heff : effect F d.warp.pc d.warp.cycles d.fetch =
      .lanes fun _ => scalar1 d.fetch fun a => F.add a (floatOfImm d.fetch.imm) := by
    unfold effect
    rw [hop]
  obtain ⟨d', hstep, hlanes⟩ := bvrtStep_rewrites (F := F) hex hpred heff
    (g := fun _ r => r.wrS d.fetch.dst (F.add (r.s d.fetch.src1) (floatOfImm d.fetch.imm)))
    (fun _ _ _ _ => rfl)
  have hzero : floatOfImm 0 = 0 := rfl
  refine ⟨d', hstep, ?_⟩
  rw [hlanes.of_enabled hl, himm, hzero, Lane.wrS, if_neg hdst]
  exact Function.update_self ..

/-- **`MOV`.** The executed word of a `MOV` copies the source of an enabled lane, whatever the
host's additions of `+0` are where IEEE 754 leaves them open, exactly when the source is neither
`-0` nor a NaN. -/
theorem move_copies_iff (hinsns : img.insns = .array words)
    (hok : bradcAssemble source img = .ok img')
    (hget : (sourceLines source)[n]? = some h) (hkind : lineKind h = .insn)
    (hmove : MovesLine h dst src) (hdst : dst ≠ sZero) (himg : d.img = img') (hex : d.Executing)
    (hpc : d.warp.pc.toNat = (posAt (sourceLines source) n).ninsn)
    (hl : d.EnabledLane d.fetch.pred l) :
    (∀ F : HostMath, F.NeutralZero →
      ∃ d', bvrtStep F d = .ok (.ok, d') ∧ (d'.lane l).s dst = (d.lane l).s src) ↔
      (d.lane l).s src ≠ floatNegZero ∧ ¬ IsNan ((d.lane l).s src) := by
  obtain ⟨syms, -, -, hemitted⟩ := bradcAssemble_emitted hinsns hok
  obtain ⟨-, a, lx', w, hword, -, -, hinsn⟩ := hemitted n h hget hkind
  have hfetch : d.fetch = bvDecode w := by
    unfold Device.fetch
    rw [himg, hpc, hinsn.insn_eq]
  obtain ⟨hop, rfl, rfl, himm⟩ := hmove.word hword
  rw [← hfetch] at hop himm hdst ⊢
  rw [← exact_addZero_iff]
  apply forall₂_congr
  intro F hF
  obtain ⟨d', hstep, hsum⟩ := bvrtStep_addZero F hex hop himm hl hdst
  constructor
  · rintro ⟨e, he, hcopy⟩
    obtain rfl := (Prod.mk.inj (Except.ok.inj (hstep.symm.trans he))).2
    exact hsum.symm.trans hcopy
  · intro hexact
    exact ⟨d', hstep, hsum.trans hexact⟩

end Move

/-! ### A kernel that moves its argument -/

def moveSource : List Byte := cstr ".kernel k\nMOV S2, S16\n.end"

/-- The kernel launched with the argument `x`. -/
def moveLaunched (x : Word) : Device :=
  ((((bradcAssemble moveSource BvbcImage.zero).toOption).bind fun img =>
    bvrtLaunch (bvrtLoad (bvrtCreate 64 fun _ => 0) img) (cstr "k") [x])).getD
      (bvrtCreate 64 fun _ => 0)

def moveLine : Lexer := ((sourceLines moveSource)[1]?).getD (lxInit [])

theorem moveLine_moves : MovesLine moveLine 2 16 where
  mnemonic := by decide
  pred := by
    have hnone : (written moveLine).pred = none := by decide
    rw [hnone]
    trivial
  operands := ⟨cstr "S2", cstr "S16", by decide, ⟨by decide, by decide⟩, by decide, by decide⟩

theorem moveSource_accepted : bradcAssemble moveSource BvbcImage.zero = .ok (moveLaunched 0).img :=
  rfl

theorem moveSource_copies_iff :
    (∀ F : HostMath, F.NeutralZero → ∃ d', bvrtStep F (moveLaunched 5) = .ok (.ok, d') ∧
      (d'.lane ⟨3, by decide⟩).s 2 = ((moveLaunched 5).lane ⟨3, by decide⟩).s 16) ↔
      ((moveLaunched 5).lane ⟨3, by decide⟩).s 16 ≠ floatNegZero ∧
        ¬ IsNan (((moveLaunched 5).lane ⟨3, by decide⟩).s 16) :=
  move_copies_iff (show BvbcImage.zero.insns = .array [] from rfl) moveSource_accepted
    (show (sourceLines moveSource)[1]? = some moveLine from rfl) (by decide) moveLine_moves
      (by decide) rfl
    ⟨by decide, by decide, by decide⟩ (by decide) (by decide)

/-- The argument `-0` arrives as `+0`. -/
theorem not_forall_move_copies :
    ¬ ∀ (source : List Byte) (img img' : BvbcImage) (words : List (BitVec 64)) (n : Nat) (h : Lexer)
        (dst src : BitVec 8), img.insns = .array words → bradcAssemble source img = .ok img' →
      (sourceLines source)[n]? = some h → lineKind h = .insn → MovesLine h dst src → dst ≠ sZero →
        ∀ (F : HostMath) (d : Device), F.NeutralZero → Reachable F d → d.img = img' → d.Executing →
          d.warp.pc.toNat = (posAt (sourceLines source) n).ninsn →
            ∀ l, d.EnabledLane d.fetch.pred l →
              ∃ d', bvrtStep F d = .ok (.ok, d') ∧ (d'.lane l).s dst = (d.lane l).s src := by
  intro hall
  have hreach : Reachable (hostWithNan 0) (moveLaunched floatNegZero) :=
    ⟨bvrtLoad (bvrtCreate 64 fun _ => 0) (moveLaunched 0).img, cstr "k", [floatNegZero], _, rfl,
      .start⟩
  obtain ⟨d', hstep, hcopy⟩ :=
    hall moveSource BvbcImage.zero (moveLaunched 0).img [] 1 moveLine 2 16 rfl
    moveSource_accepted rfl (by decide) moveLine_moves (by decide) (hostWithNan 0)
    (moveLaunched floatNegZero) (hostWithNan_neutralZero 0) hreach rfl
      ⟨by decide, by decide, by decide⟩
    (by decide) ⟨0, by decide⟩ (by decide)
  obtain rfl := (Prod.mk.inj (Except.ok.inj hstep)).2
  exact absurd hcopy (by decide)

end BradVector
