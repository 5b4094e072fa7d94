import BradVector.Proof.Strtol

/-!
# Termination of the assembler

The loops of `skip_line` and of the two passes run until the lexer is at the end of a line or of the
text. They end if every token takes a byte, which is up to the `strtol` a build links: where it
reads nothing of a numeral, the lexer stays where it is for ever.
-/

namespace BradVector

open CSem

/-! ### The start of a numeral -/

theorem isBlank_of_numeral {c : Byte} (h : isDigit c = true ∨ c = ch '-') :
    isBlank c = false ∧ c ≠ 0 ∧ c ≠ ch '\n' ∧ ¬ (c = ch ';' ∨ c = ch '#') ∧ c ≠ ch ',' ∧
      c ≠ ch ':' ∧ c ≠ ch '@' ∧ c ≠ ch '.' := by
  revert c
  decide

theorem dropWhile_isBlank_of_numeral {s : List Byte} (h : StartsNumeral s) :
    s.dropWhile isBlank = s := by
  cases s with
  | nil => rfl
  | cons c rest =>
      have hblank := (isBlank_of_numeral (c := c) (h.imp id And.left)).1
      exact List.dropWhile_cons_of_neg (by simp [hblank])

/-! ### The loops, for as long as they run -/

section Runs

variable [Libc]

/-- The loop of `skip_line`, if it ends within `fuel` iterations. -/
def skipRuns : Nat → Lexer → Option Lexer
  | 0, _ => none
  | fuel + 1, lx =>
      match lx.t.kind with
      | .eof => some lx
      | .nl => some (lexTake lx)
      | _ => skipRuns fuel (lexTake lx)

/-- The loop of a pass, if it ends within `fuel` iterations and so do the loops inside it. -/
def lineRuns {σ : Type} (body : Lexer → σ → AsmResult (Lexer × σ)) :
    Nat → Lexer → σ → Option (AsmResult σ)
  | 0, _, _ => none
  | fuel + 1, lx, s =>
      match lx.t.kind with
      | .eof => some (.ok s)
      | .nl => lineRuns body fuel (lexTake lx) s
      | _ =>
          match body lx s with
          | .error e => some (.error e)
          | .ok (lx, s) => (skipRuns (fuel + 1) lx).bind fun lx => lineRuns body fuel lx s

/-- What `bradc_assemble` returns, if all its loops end within `fuel` iterations. -/
def assembleRuns (fuel : Nat) (source : List Byte) (img : BvbcImage) :
    Option (AsmResult BvbcImage) :=
  let start := lexTake (lxInit source)
  (lineRuns pass1Line fuel start { img, syms := [], inKernel := false, kpc := 0 }).bind fun
    | .error e => some (.error e)
    | .ok a =>
        (lineRuns pass2Line fuel start
          { a with
            img := { a.img with kernels := [], ninsn := 0, stringPool := [] }
            inKernel := false
            kpc := 0 }).map fun
          | .error e => .error e
          | .ok a =>
              if a.inKernel then bErr a 0 (cstr "missing .end")
              else .ok { a.img with version := BitVec.ofNat 32 bvbcVersion }

section Equations

variable {σ : Type} {body : Lexer → σ → AsmResult (Lexer × σ)} {fuel : Nat} {lx lx₁ : Lexer}
  {s s₁ : σ}

theorem skipRuns_of_line (h : ¬ lx.AtLineEnd) :
    skipRuns (fuel + 1) lx = skipRuns fuel (lexTake lx) := by
  obtain ⟨hnl, heof⟩ := not_or.mp h
  rw [skipRuns]
  split
  · exact absurd ‹_› heof
  · exact absurd ‹_› hnl
  · rfl

theorem skipLoop_of_line (h : ¬ lx.AtLineEnd) :
    skipLoop (fuel + 1) lx = skipLoop fuel (lexTake lx) := by
  obtain ⟨hnl, heof⟩ := not_or.mp h
  rw [skipLoop]
  split
  · exact absurd ‹_› heof
  · exact absurd ‹_› hnl
  · rfl

theorem lineRuns_of_line (h : ¬ lx.AtLineEnd) :
    lineRuns body (fuel + 1) lx s =
      match body lx s with
      | .error e => some (.error e)
      | .ok (lx, s) => (skipRuns (fuel + 1) lx).bind fun lx => lineRuns body fuel lx s := by
  obtain ⟨hnl, heof⟩ := not_or.mp h
  rw [lineRuns]
  split
  · exact absurd ‹_› heof
  · exact absurd ‹_› hnl
  · rfl

theorem lineLoop_of_line (h : ¬ lx.AtLineEnd) :
    lineLoop body (fuel + 1) lx s =
      match body lx s with
      | .error e => .error e
      | .ok (lx, s) => lineLoop body fuel (skipLine lx) s := by
  obtain ⟨hnl, heof⟩ := not_or.mp h
  rw [lineLoop]
  split
  · exact absurd ‹_› heof
  · exact absurd ‹_› hnl
  · cases body lx s <;> rfl

end Equations

/-! ### Tokens taken -/

/-- `lx'` comes from `lx` by taking tokens, at least `least` of them. -/
def Takes (least : Nat) (lx lx' : Lexer) : Prop := ∃ k, least ≤ k ∧ lx' = lexTake^[k] lx

theorem Takes.refl (lx : Lexer) : Takes 0 lx lx := ⟨0, le_rfl, rfl⟩

theorem Takes.one (lx : Lexer) : Takes 1 lx (lexTake lx) := ⟨1, le_rfl, rfl⟩

theorem Takes.trans {m n : Nat} {lx₁ lx₂ lx₃ : Lexer} (h : Takes m lx₁ lx₂) (h' : Takes n lx₂ lx₃) :
    Takes (m + n) lx₁ lx₃ := by
  obtain ⟨k, hk, rfl⟩ := h
  obtain ⟨j, hj, rfl⟩ := h'
  refine ⟨j + k, by omega, ?_⟩
  rw [Function.iterate_add_apply]

theorem Takes.mono {m n : Nat} {lx lx' : Lexer} (h : Takes m lx lx') (hle : n ≤ m) :
    Takes n lx lx' := by
  obtain ⟨k, hk, rfl⟩ := h
  exact ⟨k, hle.trans hk, rfl⟩

theorem takes_nextSrc (lx : Lexer) : Takes 1 lx (nextSrc lx) := by
  unfold nextSrc
  dsimp only
  split_ifs
  · exact ((Takes.one lx).trans (.one _)).mono (by decide)
  · exact .one lx

/-- A result that is no error has taken at least `least` tokens from `lx`. -/
def ResultTakes {σ : Type} (least : Nat) (lx : Lexer) : AsmResult (Lexer × σ) → Prop
  | .ok r => Takes least lx r.1
  | .error _ => True

theorem ResultTakes.of_eq_ok {σ : Type} {least : Nat} {lx lx' : Lexer} {s : σ}
    {r : AsmResult (Lexer × σ)} (h : ResultTakes least lx r) (hr : r = .ok (lx', s)) :
    Takes least lx lx' := by
  subst hr
  exact h

theorem ResultTakes.mono {σ : Type} {m n : Nat} {lx : Lexer} {r : AsmResult (Lexer × σ)}
    (h : ResultTakes m lx r) (hle : n ≤ m) : ResultTakes n lx r := by
  cases r with
  | error e => trivial
  | ok p => exact Takes.mono h hle

theorem Takes.result {σ : Type} {m n : Nat} {lx lx' : Lexer} {r : AsmResult (Lexer × σ)}
    (h : Takes m lx lx') (hr : ResultTakes n lx' r) : ResultTakes (m + n) lx r := by
  cases r with
  | error e => trivial
  | ok p => exact h.trans hr

theorem ResultTakes.bind {σ τ : Type} {m n : Nat} {lx : Lexer} {r : AsmResult (Lexer × σ)}
    {f : Lexer × σ → AsmResult (Lexer × τ)} (hr : ResultTakes m lx r)
    (hf : ∀ p, ResultTakes n p.1 (f p)) : ResultTakes (m + n) lx (r >>= f) := by
  cases r with
  | error e => trivial
  | ok p => exact Takes.result hr (hf p)

theorem ResultTakes.ite {σ : Type} {least : Nat} {lx : Lexer} {c : Prop} [Decidable c]
    {x y : AsmResult (Lexer × σ)} (hx : ResultTakes least lx x) (hy : ResultTakes least lx y) :
    ResultTakes least lx (if c then x else y) := by
  split_ifs
  · exact hx
  · exact hy

theorem takes_parsePred (a : BradcAsm) (lx : Lexer) : ResultTakes 1 lx (parsePred a lx) := by
  have hpred : Takes 1 lx (nextSrc (lexTake (lexTake lx))) :=
    (((Takes.one lx).trans (.one _)).trans (takes_nextSrc _)).mono (by decide)
  unfold parsePred
  exact .ite (.one lx) (.ite trivial (.ite trivial hpred))

theorem takes_sourcesWord (a : BradcAsm) (lx : Lexer) (mn : List Byte) (op : Opcode)
    (pred : BitVec 8) (d a1 : Operand) : ResultTakes 0 lx (sourcesWord a lx mn op pred d a1) := by
  have hnext : Takes 0 lx (nextSrc lx) := (takes_nextSrc lx).mono (by decide)
  unfold sourcesWord
  refine .ite ?compare (.ite ?memory (.ite hnext (.ite ?immediate (.ite (.refl lx) (.ite trivial
    ?twoSources)))))
  case compare =>
    cases cmpSource (nextSrc lx).t with
    | none => trivial
    | some b2 => exact hnext
  case memory => exact .ite trivial (.ite trivial (.ite trivial hnext))
  case immediate => exact .ite trivial hnext
  case twoSources =>
    cases parseOperand (nextSrc lx).t with
    | none => trivial
    | some a2 => exact .ite trivial hnext

theorem takes_insnWord (a : BradcAsm) (lx : Lexer) : ResultTakes 1 lx (insnWord a lx) := by
  unfold insnWord
  refine (takes_parsePred a lx).bind (n := 0) fun p => ?_
  obtain ⟨lx', pred⟩ := p
  dsimp only
  cases opOf lx.t.text with
  | none => trivial
  | some op =>
      refine .ite (.refl lx') (.ite ?jump (.ite ?special ?sources))
      case jump =>
        cases branchWord a lx' op.toByte pred with
        | error e => trivial
        | ok w => exact Takes.refl lx'
      case special =>
        cases parseOperand lx'.t with
        | none => trivial
        | some d => exact .ite trivial (.refl lx')
      case sources =>
        cases parseOperand lx'.t with
        | none => trivial
        | some d =>
            refine .ite trivial ?_
            cases parseOperand (nextSrc lx').t with
            | none => trivial
            | some a1 =>
                have hnext : Takes 0 lx' (nextSrc lx') := (takes_nextSrc lx').mono (by decide)
                exact hnext.result (takes_sourcesWord a (nextSrc lx') lx.t.text op pred d a1)

theorem takes_pass1Line (lx : Lexer) (a : BradcAsm) : ResultTakes 0 lx (pass1Line lx a) := by
  unfold pass1Line
  split
  · exact (Takes.one lx).mono (by decide)
  · exact ((Takes.one lx).trans (.one _)).mono (by decide)
  · exact .refl lx

theorem takes_asmInsn (a : BradcAsm) (lx : Lexer) : ResultTakes 1 lx (asmInsn a lx) := by
  unfold asmInsn
  refine (takes_insnWord a lx).bind (n := 0) fun p => ?_
  obtain ⟨lx', w⟩ := p
  dsimp only
  cases bEmit a w lx'.line with
  | error e => trivial
  | ok b => exact Takes.refl lx'

theorem takes_asmDirective (a : BradcAsm) (lx : Lexer) :
    ResultTakes 1 lx (asmDirective a lx) := by
  have hname : Takes 1 lx (nextSrc (lexTake lx)) :=
    ((Takes.one lx).trans (takes_nextSrc _)).mono (by decide)
  unfold asmDirective
  refine .ite (.ite trivial (.one lx)) (.ite trivial (.ite trivial ?_))
  cases bvbcAddKernel a.img (nextSrc (lexTake lx)).t.text (BitVec.ofNat 32 a.img.ninsn) 0 with
  | none => trivial
  | some img => exact hname

theorem takes_pass2Line (lx : Lexer) (a : BradcAsm) : ResultTakes 0 lx (pass2Line lx a) := by
  unfold pass2Line
  split
  · exact (takes_asmDirective a lx).mono (Nat.zero_le 1)
  · exact .refl lx
  · exact (takes_asmInsn a lx).mono (Nat.zero_le 1)

theorem takes_skipRuns {fuel : Nat} {lx lx' : Lexer} (h : skipRuns fuel lx = some lx')
    (hne : lx.t.kind ≠ .eof) : Takes 1 lx lx' := by
  induction fuel generalizing lx with
  | zero => cases h
  | succ fuel ih =>
      rw [skipRuns] at h
      split at h
      · exact absurd ‹_› hne
      · cases h
        exact .one lx
      · by_cases heof : (lexTake lx).t.kind = .eof
        · cases fuel with
          | zero => cases h
          | succ fuel =>
              rw [skipRuns, heof] at h
              cases h
              exact .one lx
        · exact ((Takes.one lx).trans (ih h heof)).mono (by decide)

theorem takes_iteration {fuel : Nat} {lx lx₁ lx₂ : Lexer} (hline : ¬ lx.AtLineEnd)
    (hbody : Takes 0 lx lx₁) (hskip : skipRuns fuel lx₁ = some lx₂) : Takes 1 lx lx₂ := by
  by_cases heof : lx₁.t.kind = .eof
  · obtain ⟨k, -, rfl⟩ := hbody
    have hk : 1 ≤ k := by
      by_contra hlt
      obtain rfl : k = 0 := by omega
      exact hline (Or.inr heof)
    cases fuel with
    | zero => cases hskip
    | succ fuel =>
        rw [skipRuns, heof] at hskip
        cases hskip
        exact ⟨k, hk, rfl⟩
  · exact (hbody.trans (takes_skipRuns hskip heof)).mono (by decide)

/-! ### A lexer that gets to the end -/

/-- At the cursor stands a numeral of which `strtol` reads nothing. -/
def Lexer.Stuck (lx : Lexer) : Prop :=
  StartsNumeral (lx.p.dropWhile isBlank) ∧
    (Libc.strtol (lx.p.dropWhile isBlank) 0).2 = lx.p.dropWhile isBlank

/-- No token from here on is stuck. -/
def Lexer.Free (lx : Lexer) : Prop := ∀ n, ¬ (lexTake^[n] lx).Stuck

theorem Lexer.Free.of_takes {lx lx' : Lexer} {m : Nat} (h : lx.Free) (ht : Takes m lx lx') :
    lx'.Free := by
  obtain ⟨k, -, rfl⟩ := ht
  intro n
  rw [← Function.iterate_add_apply]
  exact h (n + k)

/-- What the termination of the assembler asks of `strtol`: it reads a prefix of the numeral. -/
def ReadsPrefix : Prop :=
  ∀ s, StartsNumeral s → (Libc.strtol s 0).2 = s ∨ (Libc.strtol s 0).2.length < s.length

section Free

variable (hread : ReadsPrefix) {lx : Lexer} (hfree : lx.Free)
include hread hfree

theorem room_le_of_free : (lexTake lx).room ≤ lx.p.length :=
  lexTake_room_le_of_progress fun s hs hnum => by
    subst hs
    exact (hread _ hnum).resolve_left fun heq => hfree 0 ⟨hnum, heq⟩

theorem room_lt_of_free (hne : lx.t.kind ≠ .eof) : (lexTake lx).room < lx.room := by
  have hle := room_le_of_free hread hfree
  unfold Lexer.room at *
  rw [if_neg hne]
  omega

theorem room_le_of_takes {m : Nat} {lx' : Lexer} (ht : Takes m lx lx') : lx'.room ≤ lx.room := by
  obtain ⟨k, -, rfl⟩ := ht
  induction k with
  | zero => exact le_rfl
  | succ k ih =>
      have hk : (lexTake^[k] lx).Free := hfree.of_takes ⟨k, Nat.zero_le _, rfl⟩
      have hle := room_le_of_free hread hk
      rw [Function.iterate_succ_apply']
      have hroom : (lexTake^[k] lx).p.length ≤ (lexTake^[k] lx).room := Nat.le_add_right _ _
      omega

theorem room_lt_of_takes {lx' : Lexer} (ht : Takes 1 lx lx') (hne : lx.t.kind ≠ .eof) :
    lx'.room < lx.room := by
  obtain ⟨k, hk, rfl⟩ := ht
  obtain ⟨j, rfl⟩ : ∃ j, k = j + 1 := ⟨k - 1, by omega⟩
  have hlt := room_lt_of_free hread hfree hne
  have hle := room_le_of_takes hread (hfree.of_takes (.one lx)) (m := 0)
    ⟨j, Nat.zero_le _, rfl⟩
  rw [Function.iterate_succ_apply]
  omega

/-- The loop of `skip_line` ends, and the iterations `skipLoop` is given suffice. -/
theorem skipRuns_eq {fuel fuel' : Nat} (h : lx.room < fuel) (h' : lx.room < fuel') :
    skipRuns fuel lx = some (skipLoop fuel' lx) := by
  apply fuel_induction Lexer.room
    (P := fun fuel fuel' lx => lx.Free → skipRuns fuel lx = some (skipLoop fuel' lx)) _ h h' hfree
  intro fuel fuel' lx _ ih hfree
  by_cases heof : lx.t.kind = .eof
  · simp only [skipRuns, skipLoop, heof]
  by_cases hnl : lx.t.kind = .nl
  · simp only [skipRuns, skipLoop, hnl]
  have hline : ¬ lx.AtLineEnd := not_or.mpr ⟨hnl, heof⟩
  rw [skipRuns_of_line hline, skipLoop_of_line hline]
  exact ih (lexTake lx) (room_lt_of_free hread hfree heof) (hfree.of_takes (.one lx))

/-- The loop of a pass ends, and the iterations `lineLoop` is given suffice. -/
theorem lineRuns_eq {σ : Type} {body : Lexer → σ → AsmResult (Lexer × σ)}
    (hbody : ∀ lx s, ResultTakes 0 lx (body lx s)) {fuel fuel' : Nat} {s : σ}
    (h : lx.room < fuel) (h' : lx.room < fuel') :
    lineRuns body fuel lx s = some (lineLoop body fuel' lx s) := by
  apply fuel_induction Lexer.room
    (P := fun fuel fuel' lx => lx.Free → ∀ s, lineRuns body fuel lx s =
      some (lineLoop body fuel' lx s))
    _ h h' hfree
  intro fuel fuel' lx hfuel ih hfree s
  by_cases heof : lx.t.kind = .eof
  · simp only [lineRuns, lineLoop, heof]
  by_cases hnl : lx.t.kind = .nl
  · simp only [lineRuns, lineLoop, hnl]
    exact ih (lexTake lx) (room_lt_of_free hread hfree heof) (hfree.of_takes (.one lx)) s
  have hline : ¬ lx.AtLineEnd := not_or.mpr ⟨hnl, heof⟩
  have hres := hbody lx s
  rw [lineRuns_of_line hline, lineLoop_of_line hline]
  cases hb : body lx s with
  | error e => rfl
  | ok r =>
      rw [hb] at hres
      obtain ⟨lx₁, s₁⟩ := r
      have hfree₁ : lx₁.Free := hfree.of_takes hres
      have hroom₁ : lx₁.room ≤ lx.room := room_le_of_takes hread hfree hres
      have hskip : skipRuns (fuel + 1) lx₁ = some (skipLine lx₁) :=
        skipRuns_eq hread hfree₁ (by omega) (Lexer.room_lt lx₁)
      have htakes := takes_iteration hline hres hskip
      simp only [hskip, Option.bind_some]
      exact ih _ (room_lt_of_takes hread hfree htakes heof) (hfree.of_takes htakes) s₁

end Free

theorem assembleRuns_eq (hread : ReadsPrefix) {source : List Byte}
    (hfree : (lxInit source).Free) (img : BvbcImage) :
    assembleRuns (passFuel source) source img = some (bradcAssemble source img) := by
  have hroom : (lexTake (lxInit source)).room ≤ source.length := room_le_of_free hread hfree
  have hstart := hfree.of_takes (.one (lxInit source))
  have hfuel : (lexTake (lxInit source)).room < passFuel source := by
    unfold passFuel
    omega
  unfold assembleRuns bradcAssemble
  dsimp only
  rw [lineRuns_eq hread hstart takes_pass1Line hfuel hfuel]
  cases lineLoop pass1Line (passFuel source) (lexTake (lxInit source))
    { img, syms := [], inKernel := false, kpc := 0 } with
  | error e => rfl
  | ok a =>
      simp only [Option.bind_some]
      rw [lineRuns_eq hread hstart takes_pass2Line hfuel hfuel]
      cases hres : lineLoop pass2Line (passFuel source) (lexTake (lxInit source))
        { a with
          img := { a.img with kernels := [], ninsn := 0, stringPool := [] }
          inKernel := false
          kpc := 0 } with
      | error e =>
          simp only [Option.map_some, bind, Except.bind, hres]
      | ok b =>
          simp only [Option.map_some, bind, Except.bind, hres]
          rfl

/-! ### A lexer that is stuck -/

theorem lexTake_of_numeral {lx : Lexer} {s : List Byte} (hs : lx.p.dropWhile isBlank = s)
    (hnum : StartsNumeral s) :
    lexTake lx =
      { lx with
        p := (Libc.strtol s 0).2
        t := ⟨.num, [], BitVec.ofInt 32 (Libc.strtol s 0).1⟩ } := by
  cases s with
  | nil => exact hnum.elim
  | cons c rest =>
      obtain ⟨-, h0, hnl, hcomment, hcomma, hcolon, hat, hdot⟩ :=
        isBlank_of_numeral (hnum.imp id And.left)
      unfold lexTake
      rw [hs]
      dsimp only
      rw [if_neg h0, if_neg hnl, if_neg hcomment, if_neg hcomma, if_neg hcolon, if_neg hat,
        if_neg hdot]
      exact if_pos hnum

theorem Lexer.Stuck.lexTake {lx : Lexer} (h : lx.Stuck) :
    (lexTake lx).Stuck ∧ (BradVector.lexTake lx).t.kind = .num := by
  obtain ⟨hnum, hread⟩ := h
  rw [lexTake_of_numeral rfl hnum, hread]
  refine ⟨?_, rfl⟩
  unfold Lexer.Stuck
  rw [dropWhile_isBlank_of_numeral hnum]
  exact ⟨hnum, hread⟩

/-- Nothing but the end of the text stands at the cursor. -/
def Lexer.AtEnd (lx : Lexer) : Prop := lx.p = [] ∨ ∃ rest, lx.p = 0 :: rest

theorem Lexer.AtEnd.not_stuck {lx : Lexer} (h : lx.AtEnd) : ¬ lx.Stuck := by
  rintro ⟨hnum, -⟩
  rcases h with hp | ⟨rest, hp⟩
  · rw [hp] at hnum
    exact hnum
  · rw [hp, List.dropWhile_cons_of_neg (by decide)] at hnum
    rcases hnum with hdigit | ⟨hminus, -⟩
    · exact absurd hdigit (by decide)
    · exact absurd hminus (by decide)

theorem Lexer.AtEnd.lexTake {lx : Lexer} (h : lx.AtEnd) : (lexTake lx).AtEnd := by
  unfold BradVector.lexTake
  rcases h with hp | ⟨rest, hp⟩
  · rw [hp]
    exact Or.inl rfl
  · rw [hp, List.dropWhile_cons_of_neg (by decide)]
    exact Or.inr ⟨rest, rfl⟩

theorem atEnd_of_lexTake_eof {lx : Lexer} (h : (lexTake lx).t.kind = .eof) :
    (lexTake lx).AtEnd := by
  have hform := lexTake_form lx
  generalize lx.p.dropWhile isBlank = s at hform
  generalize lexTake lx = lx' at h hform ⊢
  cases hform with
  | endOfText => exact Or.inl rfl
  | nul rest => exact Or.inr ⟨rest, rfl⟩
  | mark c rest kind hkind =>
      rcases hkind with rfl | rfl | rfl | rfl
      all_goals cases h
  | _ => cases h

theorem free_of_atEnd {lx : Lexer} (h : lx.AtEnd) : lx.Free := by
  intro n
  have hn : (lexTake^[n] lx).AtEnd := by
    induction n with
    | zero => exact h
    | succ n ih =>
        rw [Function.iterate_succ_apply']
        exact ih.lexTake
  exact hn.not_stuck

theorem not_free_of_takes {lx lx' : Lexer} {m : Nat} (h : ¬ lx.Free) (ht : Takes m lx lx') :
    ¬ lx'.Free := by
  obtain ⟨k, -, rfl⟩ := ht
  induction k with
  | zero => exact h
  | succ k ih =>
      intro hfree
      refine ih fun n hn => ?_
      cases n with
      | zero =>
          have hstuck := hn.lexTake.1
          refine hfree 0 ?_
          rw [Function.iterate_zero_apply, Function.iterate_succ_apply']
          exact hstuck
      | succ n =>
          refine hfree n ?_
          rw [Function.iterate_succ_apply']
          exact hn

theorem lineRuns_of_not_free {σ : Type} {body : Lexer → σ → AsmResult (Lexer × σ)}
    (hbody : ∀ lx s, ResultTakes 0 lx (body lx s)) (hok : ∀ lx s, ∃ r, body lx s = .ok r)
    {fuel : Nat} {lx lx₀ : Lexer} {s : σ} (hlx : Takes 1 lx₀ lx) (hstuck : ¬ lx.Free) :
    lineRuns body fuel lx s = none := by
  have hend {lx : Lexer} (hlx : Takes 1 lx₀ lx) (hstuck : ¬ lx.Free) : lx.t.kind ≠ .eof := by
    intro heof
    obtain ⟨k, hk, rfl⟩ := hlx
    obtain ⟨j, rfl⟩ : ∃ j, k = j + 1 := ⟨k - 1, by omega⟩
    rw [Function.iterate_succ_apply'] at heof hstuck
    exact hstuck (free_of_atEnd (atEnd_of_lexTake_eof heof))
  induction fuel generalizing lx s with
  | zero => rfl
  | succ fuel ih =>
      have heof := hend hlx hstuck
      have htake : Takes 1 lx₀ (lexTake lx) := (hlx.trans (.one lx)).mono (by decide)
      by_cases hnl : lx.t.kind = .nl
      · simp only [lineRuns, hnl]
        exact ih htake (not_free_of_takes hstuck (.one lx))
      have hline : ¬ lx.AtLineEnd := not_or.mpr ⟨hnl, heof⟩
      obtain ⟨⟨lx₁, s₁⟩, hb⟩ := hok lx s
      have hres := hbody lx s
      rw [hb] at hres
      rw [lineRuns_of_line hline, hb]
      dsimp only
      cases hskip : skipRuns (fuel + 1) lx₁ with
      | none => rfl
      | some lx₂ =>
          have hiter := takes_iteration hline hres hskip
          exact ih ((hlx.trans hiter).mono (by decide)) (not_free_of_takes hstuck hiter)

theorem assembleRuns_of_not_free {source : List Byte} (hstuck : ¬ (lxInit source).Free)
    (img : BvbcImage) (fuel : Nat) : assembleRuns fuel source img = none := by
  unfold assembleRuns
  dsimp only
  rw [lineRuns_of_not_free takes_pass1Line pass1Line_ok (.one (lxInit source))
    (not_free_of_takes hstuck (.one _))]
  rfl

/-! ### Sources that are assembled -/

/-- The assembler returns; every token but the last takes a byte; and every iteration of a pass
takes a token. -/
structure Assembles (source : List Byte) (img : BvbcImage) : Prop where
  returns : ∃ fuel r, assembleRuns fuel source img = some r
  advances : ∀ n, (lexTake^[n + 1] (lxInit source)).t.kind ≠ .eof →
    (lexTake^[n + 1] (lxInit source)).p.length < (lexTake^[n] (lxInit source)).p.length
  consumes : ∀ lx a lx₁ a₁ fuel lx₂, ¬ lx.AtLineEnd →
    pass1Line lx a = .ok (lx₁, a₁) ∨ pass2Line lx a = .ok (lx₁, a₁) →
    skipRuns fuel lx₁ = some lx₂ → Takes 1 lx lx₂

theorem assembles_iff_free (hread : ReadsPrefix) (source : List Byte) (img : BvbcImage) :
    Assembles source img ↔ (lxInit source).Free := by
  constructor
  · rintro ⟨⟨fuel, r, hret⟩, -, -⟩
    by_contra hstuck
    rw [assembleRuns_of_not_free hstuck] at hret
    cases hret
  · intro hfree
    refine ⟨⟨_, _, assembleRuns_eq hread hfree img⟩, fun n hne => ?_, ?_⟩
    · have hn : (lexTake^[n] (lxInit source)).Free := hfree.of_takes ⟨n, Nat.zero_le _, rfl⟩
      have hle := room_le_of_free hread hn
      rw [Function.iterate_succ_apply'] at *
      unfold Lexer.room at hle
      rw [if_neg hne] at hle
      omega
    · rintro lx a lx₁ a₁ fuel lx₂ hline (hpass | hpass) hskip
      · exact takes_iteration hline ((takes_pass1Line lx a).of_eq_ok hpass) hskip
      · exact takes_iteration hline ((takes_pass2Line lx a).of_eq_ok hpass) hskip

end Runs

/-! ### The two builds -/

theorem hostLibc_readsPrefix : @ReadsPrefix hostLibc := fun _ h => Or.inr (hostStrtol_progress h)

theorem hostLibc_free (lx : Lexer) : @Lexer.Free hostLibc lx := by
  rintro n ⟨hnum, heq⟩
  have hlt := hostStrtol_progress hnum
  rw [heq] at hlt
  exact Nat.lt_irrefl _ hlt

/-- A bare hexadecimal prefix where a numeral is read. -/
def AtBareHexPrefix (s : List Byte) : Prop := StartsNumeral s ∧ BareHexPrefix s

instance (s : List Byte) : Decidable (AtBareHexPrefix s) := by
  unfold AtBareHexPrefix
  infer_instance

theorem shimStrtol_of_not_bare {s : List Byte} (hnum : StartsNumeral s)
    (hbare : ¬ BareHexPrefix s) : (shimStrtol s 0).2.length < s.length := by
  rw [(shimStrtol_eq (Or.inl ⟨rfl, hnum⟩) fun h => hbare h.2).1]
  exact hostStrtol_progress hnum

theorem browserLibc_readsPrefix : @ReadsPrefix browserLibc := by
  intro s hnum
  by_cases hbare : BareHexPrefix s
  · exact Or.inl (strtol_of_bareHexPrefix hnum hbare).1
  · exact Or.inr (shimStrtol_of_not_bare hnum hbare)

theorem browserLibc_stuck_iff (lx : Lexer) :
    @Lexer.Stuck browserLibc lx ↔ AtBareHexPrefix (lx.p.dropWhile isBlank) := by
  constructor
  · rintro ⟨hnum, heq⟩
    refine ⟨hnum, by_contra fun hbare => ?_⟩
    have hlt := shimStrtol_of_not_bare hnum hbare
    replace heq : (shimStrtol (lx.p.dropWhile isBlank) 0).2 = lx.p.dropWhile isBlank := heq
    rw [heq] at hlt
    exact Nat.lt_irrefl _ hlt
  · rintro ⟨hnum, hbare⟩
    exact ⟨hnum, (strtol_of_bareHexPrefix hnum hbare).1⟩

/-- **Termination.** The assembler terminates on a source, taking a token in every iteration of its
loops and a byte for every token, in the host build and in the browser build, exactly when the
browser's lexer never comes to a bare hexadecimal prefix. -/
theorem assembles_iff (source : List Byte) (img : BvbcImage) :
    @Assembles hostLibc source img ∧ @Assembles browserLibc source img ↔
      ∀ n, ¬ AtBareHexPrefix (((@lexTake browserLibc)^[n] (lxInit source)).p.dropWhile
        isBlank) := by
  rw [@assembles_iff_free hostLibc hostLibc_readsPrefix,
    @assembles_iff_free browserLibc browserLibc_readsPrefix]
  refine ⟨fun h n hbare => h.2 n ((browserLibc_stuck_iff _).mpr hbare), fun h => ?_⟩
  exact ⟨hostLibc_free _, fun n hstuck => h n ((browserLibc_stuck_iff _).mp hstuck)⟩

/-- On the source `0x` the browser build never returns. -/
theorem not_forall_assembles :
    ¬ ∀ source img, @Assembles hostLibc source img ∧ @Assembles browserLibc source img := by
  intro h
  obtain ⟨fuel, r, hret⟩ := @Assembles.returns browserLibc _ _ (h (cstr "0x") BvbcImage.zero).2
  have hstuck : ¬ @Lexer.Free browserLibc (lxInit (cstr "0x")) := fun hfree =>
    hfree 0 ((browserLibc_stuck_iff _).mpr (by decide))
  rw [@assembleRuns_of_not_free browserLibc _ hstuck] at hret
  cases hret

end BradVector
