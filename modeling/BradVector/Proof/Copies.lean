import BradVector.Proof.VectorKernels

/-!
# Copies between host and device

The libraries lay their operands out against the memory size that was asked for, while `bvrt_create`
clamps it. `BvlibContext.Runs` is what every context in use keeps, and the results say exactly for
which sizes the copies of an operation stay inside the memory there is.
-/

namespace BradVector

open CSem

/-! ### Contexts in use -/

/-- What `bvml_open` leaves, and any calls after it. -/
inductive BvmlInUse (F : HostMath) (memBytes : Size) : BvlibContext → Prop where
  | opened {granted : Bool} {init : Nat → Byte} {ctx : BvlibContext}
      (h : bvmlOpen granted memBytes init = some ctx) : BvmlInUse F memBytes ctx
  | saxpy {ctx : BvlibContext} {a : Word} {x y out : HostArray} {n : Size} {r : CallResult}
      (hctx : BvmlInUse F memBytes ctx) (h : bvmlSaxpy F ctx a x y out n = .ok r) :
      BvmlInUse F memBytes r.ctx
  | dot {ctx : BvlibContext} {x y out : HostArray} {n : Size} {r : CallResult}
      (hctx : BvmlInUse F memBytes ctx) (h : bvmlDot F ctx x y out n = .ok r) :
      BvmlInUse F memBytes r.ctx
  | gemm {ctx : BvlibContext} {alpha beta : Word} {A B C : HostArray} {M N K : Size}
    {r : CallResult}
      (hctx : BvmlInUse F memBytes ctx) (h : bvmlGemm F ctx alpha A B beta C M N K = .ok r) :
      BvmlInUse F memBytes r.ctx

/-- The same for `bvn_open`. -/
inductive BvnInUse (F : HostMath) (memBytes : Size) : BvlibContext → Prop where
  | opened {granted : Bool} {init : Nat → Byte} {ctx : BvlibContext}
      (h : bvnOpen granted memBytes init = some ctx) : BvnInUse F memBytes ctx
  | relu {ctx : BvlibContext} {x out : HostArray} {n : Size} {r : CallResult}
      (hctx : BvnInUse F memBytes ctx) (h : bvnRelu F ctx x out n = .ok r) :
        BvnInUse F memBytes r.ctx
  | affine {ctx : BvlibContext} {scale bias : Word} {x out : HostArray} {n : Size} {r : CallResult}
      (hctx : BvnInUse F memBytes ctx) (h : bvnAffine F ctx scale bias x out n = .ok r) :
      BvnInUse F memBytes r.ctx
  | softmax {ctx : BvlibContext} {x out : HostArray} {n : Size} {r : CallResult}
      (hctx : BvnInUse F memBytes ctx) (h : bvnSoftmax F ctx x out n = .ok r) :
      BvnInUse F memBytes r.ctx
  | gelu {ctx : BvlibContext} {x out : HostArray} {n : Size} {r : CallResult}
      (hctx : BvnInUse F memBytes ctx) (h : bvnGelu F ctx x out n = .ok r) :
        BvnInUse F memBytes r.ctx
  | silu {ctx : BvlibContext} {x out : HostArray} {n : Size} {r : CallResult}
      (hctx : BvnInUse F memBytes ctx) (h : bvnSilu F ctx x out n = .ok r) :
        BvnInUse F memBytes r.ctx

/-- The bytes `bvrt_create` allocates. -/
def allocated (memBytes : Size) : Nat := min (max memBytes.toNat 1) bvrtMaxMem

/-- The context runs these kernels on a device of that size. -/
structure BvlibContext.Runs (ctx : BvlibContext) (kernels : List BvInsn × List (List Byte × Word))
    (memBytes : Size) : Prop where
  pos : memBytes ≠ 0
  mem : ctx.mem = memBytes
  img : ctx.dev.img.summary = kernels
  size : ctx.dev.mem.size = allocated memBytes

theorem bvlibOpen_runs {kernelSrc : List Byte} {kernels : List BvInsn × List (List Byte × Word)}
    {granted : Bool} {memBytes : Size} {init : Nat → Byte} {ctx : BvlibContext}
    (hc : (bradlibCompile kernelSrc).map BvbcImage.summary = some kernels)
    (h : bvlibOpen kernelSrc granted memBytes init = some ctx) : ctx.Runs kernels memBytes := by
  unfold bvlibOpen at h
  split_ifs at h with hrefused
  cases hcompile : bradlibCompile kernelSrc with
  | none => simp [hcompile] at h
  | some prog =>
      rw [hcompile, Option.map_some, Option.some.injEq] at hc
      rw [hcompile] at h
      cases h
      exact ⟨fun h0 => hrefused (.inl h0), rfl, hc, rfl⟩

section Runs

variable {F : HostMath} {ctx : BvlibContext} {kernels : List BvInsn × List (List Byte × Word)}
  {memBytes off len : Size} {x : HostArray}

theorem copyIn_of_inside (h : ctx.Runs kernels memBytes)
    (hin : off.toNat + len.toNat ≤ allocated memBytes) :
    ∃ c, copyIn x off len ctx = .ok c ∧ c.Runs kernels memBytes := by
  unfold copyIn
  rw [if_pos (h.size ▸ hin)]
  exact ⟨_, rfl, h.pos, h.mem, h.img, h.size⟩

theorem copyIn_of_outside (h : ctx.Runs kernels memBytes)
    (hout : ¬ off.toNat + len.toNat ≤ allocated memBytes) :
    copyIn x off len ctx = .undefined (.memcpy off.toNat len.toNat) := by
  unfold copyIn
  rw [if_neg (h.size ▸ hout)]

theorem copyIn_sat (h : ctx.Runs kernels memBytes) :
    (copyIn x off len ctx).Sat (fun c => c.Runs kernels memBytes) (fun _ => False)
      fun _ => True := by
  by_cases hin : off.toNat + len.toNat ≤ allocated memBytes
  · obtain ⟨c, hc, hruns⟩ := copyIn_of_inside (x := x) h hin
    rw [hc]
    exact hruns
  · rw [copyIn_of_outside h hin]
    trivial

theorem launch1_sat (h : ctx.Runs kernels memBytes) (kernel : List Byte) (args : List Word) :
    (launch1 F ctx kernel args).Sat
      (fun c => c.Runs kernels memBytes ∧
        ∃ d, bvrtLaunch ctx.dev kernel args = some d ∧ d.Halts F)
      (fun e => e.2.Runs kernels memBytes) fun u => ∃ a, u = .kernel a := by
  unfold launch1
  cases hl : bvrtLaunch ctx.dev kernel args with
  | none => exact h
  | some d =>
      have hmachine : d.img = ctx.dev.img ∧ d.mem.size = ctx.dev.mem.size := by
        unfold bvrtLaunch at hl
        split at hl
        · cases hl
        · cases hl
          exact ⟨rfl, rfl⟩
      have hkeep {e : Device} {st : BvStatus} (hrun : bvrtRun F d bvlibMaxInsns = .ok (st, e)) :
          ({ ctx with dev := e } : BvlibContext).Runs kernels memBytes := by
        obtain ⟨himg, hsize⟩ := bvrtRun_sameMachine hrun
        exact ⟨h.pos, h.mem, (congrArg _ (himg.trans hmachine.1)).trans h.img,
          (hsize.trans hmachine.2).trans h.size⟩
      dsimp only
      rcases hrun : bvrtRun F d bvlibMaxInsns with a | ⟨st, e⟩
      · exact ⟨a, rfl⟩
      · cases st
        case halt => exact ⟨hkeep hrun, d, rfl, halts_of_run hrun⟩
        all_goals exact hkeep hrun

end Runs

/-! ### Calls keep the context running -/

section Calls

variable {F : HostMath} {ctx : BvlibContext} {kernels : List BvInsn × List (List Byte × Word)}
  {memBytes : Size} {r : CallResult}

theorem callResult_runs {out : HostArray} {body : BvlibOutcome (HostArray × BvlibContext)}
    (hbody : body.Sat (fun p => p.2.Runs kernels memBytes) (fun e => e.2.Runs kernels memBytes)
      fun _ => True) (h : callResult out body = .ok r) : r.ctx.Runs kernels memBytes := by
  unfold callResult at h
  rcases body with ⟨out', c⟩ | ⟨ret, c⟩ | u
  · cases h
    exact hbody
  · cases h
    exact hbody
  · cases h

theorem copyIn_keeps {off len : Size} {x : HostArray} (h : ctx.Runs kernels memBytes) :
    (copyIn x off len ctx).Sat (fun c => c.Runs kernels memBytes)
      (fun e => e.2.Runs kernels memBytes) fun _ => True :=
  (copyIn_sat h).mono (fun _ h => h) (fun _ h => h.elim) fun _ h => h

theorem launch1_keeps {kernel : List Byte} {args : List Word} (h : ctx.Runs kernels memBytes) :
    (launch1 F ctx kernel args).Sat (fun c => c.Runs kernels memBytes)
      (fun e => e.2.Runs kernels memBytes) fun _ => True :=
  (launch1_sat h kernel args).mono (fun _ h => h.1) (fun _ h => h) fun _ _ => trivial

theorem copyOut_sat {out : HostArray} {off len : Size} {E : Int × BvlibContext → Prop} :
    (copyOut out off len ctx).Sat (fun _ => True) E fun _ => True := by
  unfold copyOut
  split <;> trivial

theorem vectorBody_keeps {kernel : List Byte} {args : List Word} {x y out : HostArray}
    {n outLen : Size} (h : ctx.Runs kernels memBytes) :
    (vectorBody F kernel args x y out n outLen ctx).Sat (fun p => p.2.Runs kernels memBytes)
      (fun e => e.2.Runs kernels memBytes) fun _ => True :=
  (copyIn_keeps h).bind fun _ h₁ => (copyIn_keeps h₁).bind fun _ h₂ =>
    (launch1_keeps h₂).bind fun _ h₃ => copyOut_sat.bind fun _ _ => h₃

theorem gemmCopyIn_keeps {x : HostArray} {off count : Size} (h : ctx.Runs kernels memBytes) :
    (gemmCopyIn x off count ctx).Sat (fun c => c.Runs kernels memBytes)
      (fun e => e.2.Runs kernels memBytes) fun _ => True := by
  unfold gemmCopyIn
  split
  · exact copyIn_keeps h
  · exact h

theorem gemmLaunches_keeps {alpha beta : Word} {M N K : Size} (h : ctx.Runs kernels memBytes) :
    (Outcome.forRange M.toNat (fun r => Outcome.forRange N.toNat fun c ctx =>
      launch1 F ctx (cstr "gemm") (gemmArgs alpha beta M N K r c)) ctx).Sat
      (fun c => c.Runs kernels memBytes) (fun e => e.2.Runs kernels memBytes)
      fun u => ∃ a, u = .kernel a :=
  Outcome.Sat.forRange (I := fun _ (c : BvlibContext) => c.Runs kernels memBytes) h fun _ _ hr =>
    Outcome.Sat.forRange (I := fun _ (c : BvlibContext) => c.Runs kernels memBytes) hr fun _ _ hc =>
      (launch1_sat hc _ _).mono (fun _ h => h.1) (fun _ h => h) fun _ h => h

theorem gemmBody_keeps {alpha beta : Word} {A B C : HostArray} {M N K : Size}
    (h : ctx.Runs kernels memBytes) :
    (gemmBody F alpha A B beta C M N K ctx).Sat (fun p => p.2.Runs kernels memBytes)
      (fun e => e.2.Runs kernels memBytes) fun _ => True :=
  (gemmCopyIn_keeps h).bind fun _ h₁ => (gemmCopyIn_keeps h₁).bind fun _ h₂ =>
    (gemmCopyIn_keeps h₂).bind fun _ h₃ =>
      ((gemmLaunches_keeps h₃).mono (fun _ h => h) (fun _ h => h) fun _ _ => trivial).bind
        fun _ h₄ => copyOut_sat.bind fun _ _ => h₄

theorem bvnUnary_runs {kernel : List Byte} {args : List Word} {x out : HostArray} {n : Size}
    (h : ctx.Runs kernels memBytes) (hr : bvnUnary F kernel args ctx x out n = .ok r) :
    r.ctx.Runs kernels memBytes := by
  unfold bvnUnary at hr
  split_ifs at hr
  · cases hr
    exact h
  · cases hr
    exact h
  · refine callResult_runs ?_ hr
    exact (copyIn_keeps h).bind fun _ h₁ => (launch1_keeps h₁).bind fun _ h₂ =>
      copyOut_sat.bind fun _ _ => h₂

theorem BvmlInUse.runs (h : BvmlInUse F memBytes ctx) : ctx.Runs bvmlSummary memBytes := by
  induction h with
  | opened h => exact bvlibOpen_runs bradlibCompile_bvml h
  | saxpy _ hr ih =>
      unfold bvmlSaxpy at hr
      split_ifs at hr
      · cases hr
        exact ih
      · cases hr
        exact ih
      · exact callResult_runs (vectorBody_keeps ih) hr
  | dot _ hr ih =>
      unfold bvmlDot at hr
      split_ifs at hr
      · cases hr
        exact ih
      · cases hr
        exact ih
      · exact callResult_runs (vectorBody_keeps ih) hr
  | gemm _ hr ih =>
      unfold bvmlGemm at hr
      split_ifs at hr
      · cases hr
        exact ih
      · cases hr
        exact ih
      · exact callResult_runs (gemmBody_keeps ih) hr

theorem BvnInUse.runs (h : BvnInUse F memBytes ctx) : ctx.Runs bvnSummary memBytes := by
  induction h with
  | opened h => exact bvlibOpen_runs bradlibCompile_bvn h
  | relu _ hr ih => exact bvnUnary_runs ih hr
  | affine _ hr ih => exact bvnUnary_runs ih hr
  | softmax _ hr ih => exact bvnUnary_runs ih hr
  | gelu _ hr ih => exact bvnUnary_runs ih hr
  | silu _ hr ih => exact bvnUnary_runs ih hr

end Calls

/-! ### Offsets -/

section Offsets

variable {n len x y : Size} {memBytes : Size}

theorem allocated_le (memBytes : Size) : allocated memBytes ≤ 2 ^ 26 := Nat.min_le_right _ _

theorem align16_toNat (hx : (x.toNat + 15) / 16 * 16 < 2 ^ 64) :
    (align16 x).toNat = (x.toNat + 15) / 16 * 16 := by
  rw [align16, and_not_fifteen, BitVec.toNat_add, show (15 : Size).toNat = 15 from rfl,
    Nat.mod_eq_of_lt (by omega)]

theorem align16_le (hx : x.toNat ≤ 2 ^ 26) : x.toNat ≤ (align16 x).toNat ∧
    (align16 x).toNat ≤ 2 ^ 26 := by
  rw [align16_toNat (by omega)]
  omega

theorem align16_add_le (h : y.toNat + len.toNat ≤ 2 ^ 26) : (align16 (y + len)).toNat ≤ 2 ^ 26 := by
  refine (align16_le ?_).2
  rw [BitVec.toNat_add]
  omega

theorem toNat_mul_sizeofFloat (n : Size) : (n * sizeofFloat).toNat = n.toNat * 4 % 2 ^ 64 := by
  rw [sizeofFloat, BitVec.toNat_mul]
  rfl

/-- The count a launch passes to its kernel is that of the floats copied, although `n` can be larger
than 32 bits. -/
theorem count_eq (n : Size) :
    ∃ k, n.setWidth 32 = BitVec.ofNat 32 k ∧ 4 * k = (n * sizeofFloat).toNat := by
  rw [toNat_mul_sizeofFloat]
  refine ⟨n.toNat * 4 % 2 ^ 64 / 4, ?_, by omega⟩
  apply BitVec.eq_of_toNat_eq
  rw [BitVec.toNat_setWidth, BitVec.toNat_ofNat]
  omega

theorem setWidth_toNat (hx : x.toNat ≤ 2 ^ 26) : (x.setWidth 32).toNat = x.toNat := by
  rw [BitVec.toNat_setWidth]
  omega

end Offsets

/-! ### When the copies stay inside -/

/-- The call makes no copy that leaves device memory. -/
def CopiesInside (call : Except BvlibFault CallResult) : Prop :=
  ∀ off len, call ≠ .error (.memcpy off len)

theorem copiesInside_ok (r : CallResult) : CopiesInside (.ok r) := by
  intro off len h
  cases h

theorem copiesInside_callResult {out : HostArray} {body : BvlibOutcome (HostArray × BvlibContext)} :
    CopiesInside (callResult out body) ↔
      body.Sat (fun _ => True) (fun _ => True) fun u => ∀ off len, u ≠ .memcpy off len := by
  rcases body with ⟨out', c⟩ | ⟨ret, c⟩ | u
  · exact iff_of_true (copiesInside_ok _) trivial
  · exact iff_of_true (copiesInside_ok _) trivial
  · constructor
    · exact fun h off len hu => h off len (by rw [hu]; rfl)
    · exact fun h off len hu => h off len (Except.error.inj hu)

section Vectors

variable {F : HostMath} {ctx : BvlibContext} {kernels : List BvInsn × List (List Byte × Word)}
  {memBytes : Size} {kernel : List Byte} {args : List Word} {x y out : HostArray} {n off len : Size}

theorem copyOut_inside {E : Int × BvlibContext → Prop} {U : BvlibFault → Prop}
    (h : ctx.Runs kernels memBytes) (hin : off.toNat + len.toNat ≤ allocated memBytes) :
    (copyOut out off len ctx).Sat (fun _ => True) E U := by
  unfold copyOut
  rw [if_pos (h.size ▸ hin)]
  trivial

/-- A launch that comes back has run its kernel to the end, and then there was room for `len` bytes
of result at `off`. -/
def LeavesRoom (F : HostMath) (kernels : List BvInsn × List (List Byte × Word)) (memBytes : Size)
    (kernel : List Byte) (args : List Word) (off len : Size) : Prop :=
  ∀ (c : BvlibContext) (d : Device), c.Runs kernels memBytes →
    bvrtLaunch c.dev kernel args = some d → d.Halts F →
      off.toNat + len.toNat ≤ allocated memBytes

theorem launch_copyOut_inside (h : ctx.Runs kernels memBytes)
    (hroom : LeavesRoom F kernels memBytes kernel args off len) :
    ((launch1 F ctx kernel args).bind fun c => (copyOut out off len c).bind fun o =>
      .ok (o, c)).Sat (fun _ => True) (fun _ => True) fun u => ∀ off len, u ≠ .memcpy off len := by
  refine Outcome.Sat.bind ((launch1_sat h kernel args).mono (fun _ h => h) (fun _ _ => trivial) ?_)
    fun c ⟨hc, d, hlaunch, hhalts⟩ => ?_
  · rintro u ⟨a, rfl⟩ off len hu
    cases hu
  · exact (copyOut_inside hc (hroom ctx d h hlaunch hhalts)).bind fun _ _ => trivial

theorem copyIn_bind_inside_iff {body : BvlibContext → BvlibOutcome (HostArray × BvlibContext)}
    {P : Prop} (h : ctx.Runs kernels memBytes)
    (hbody : off.toNat + len.toNat ≤ allocated memBytes → ∀ c : BvlibContext,
      c.Runs kernels memBytes → ((body c).Sat (fun _ => True) (fun _ => True)
        (fun u => ∀ off len, u ≠ .memcpy off len) ↔ P)) :
    ((copyIn x off len ctx).bind body).Sat (fun _ => True) (fun _ => True)
      (fun u => ∀ off len, u ≠ .memcpy off len) ↔
        off.toNat + len.toNat ≤ allocated memBytes ∧ P := by
  by_cases hin : off.toNat + len.toNat ≤ allocated memBytes
  · obtain ⟨c, hc, hruns⟩ := copyIn_of_inside (x := x) h hin
    rw [hc, Outcome.ok_bind, hbody hin c hruns]
    exact ⟨fun hP => ⟨hin, hP⟩, And.right⟩
  · rw [copyIn_of_outside h hin, Outcome.undefined_bind]
    exact iff_of_false (fun hu => hu _ _ rfl) fun hin' => hin hin'.1

theorem vectorBody_inside_iff (h : ctx.Runs kernels memBytes)
    (hroom : (vectorYoff n).toNat + (n * sizeofFloat).toNat ≤ allocated memBytes →
      LeavesRoom F kernels memBytes kernel args (vectorOoff n) len) :
    CopiesInside (callResult out (vectorBody F kernel args x y out n len ctx)) ↔
      (vectorYoff n).toNat + (n * sizeofFloat).toNat ≤ allocated memBytes := by
  rw [copiesInside_callResult]
  refine (copyIn_bind_inside_iff h fun _ c₁ h₁ => copyIn_bind_inside_iff h₁ (P := True)
    fun hin c₂ h₂ => iff_true_intro (launch_copyOut_inside h₂ (hroom hin))).trans ?_
  rw [show (0 : Size).toNat = 0 from rfl]
  constructor
  · exact fun h => h.2.1
  · exact fun h => ⟨by omega, h, trivial⟩

end Vectors

/-! ### The operations -/

section Operations

variable {F : HostMath} {ctx : BvlibContext} {memBytes : Size} {x y out : HostArray} {n : Size}

theorem launched {kernels : List BvInsn × List (List Byte × Word)} {kernel : List Byte}
    {args : List Word} {d : Device} {pc : Nat} (h : ctx.Runs kernels memBytes)
    (hentry : (kernels.2.find? fun e => e.1 = cstrOf kernel).map Prod.snd =
      some (BitVec.ofNat 32 pc)) (hlaunch : bvrtLaunch ctx.dev kernel args = some d) :
    d.At ctx.dev.img pc (Thread.launch args ctx.dev.mem) := by
  have himg : ctx.dev.img.summary = (kernels.1, kernels.2) := h.img
  obtain ⟨e, he, hat, -⟩ := launch_at (entry_of_summary himg hentry) args rfl
  rw [hlaunch] at he
  cases he
  exact hat

theorem vector_offsets (hin : (vectorYoff n).toNat + (n * sizeofFloat).toNat ≤ allocated memBytes) :
    (vectorYoff n).toNat ≤ 2 ^ 26 ∧ (vectorOoff n).toNat ≤ 2 ^ 26 ∧
      ((n * sizeofFloat).toNat = 0 → (vectorOoff n).toNat = 0) := by
  have hle := allocated_le memBytes
  have hsum : (vectorYoff n + n * sizeofFloat).toNat =
      (vectorYoff n).toNat + (n * sizeofFloat).toNat := by
    rw [BitVec.toNat_add]
    omega
  have hy := align16_toNat (x := n * sizeofFloat) (by omega)
  have ho := align16_toNat (x := vectorYoff n + n * sizeofFloat) (by omega)
  refine ⟨by omega, align16_add_le (by omega), fun h0 => ?_⟩
  rw [vectorOoff, ho, hsum, vectorYoff, hy, h0]

theorem saxpy_leavesRoom {a : Word} (hF : F.AddsZero)
    (hin : (vectorYoff n).toNat + (n * sizeofFloat).toNat ≤ allocated memBytes) :
    LeavesRoom F bvmlSummary memBytes (cstr "saxpy")
      [0, (vectorYoff n).setWidth 32, (vectorOoff n).setWidth 32, a, n.setWidth 32, 4, 1]
      (vectorOoff n) (n * sizeofFloat) := by
  intro c d hc hlaunch hhalts
  have hle := allocated_le memBytes
  obtain ⟨hy, ho, hzero⟩ := vector_offsets hin
  obtain ⟨k, hk, hlen⟩ := count_eq n
  rw [hk] at hlaunch
  rcases Nat.eq_zero_or_pos k with rfl | hpos
  · omega
  · have hroom := saxpy_inside hF hc.img hpos (by omega) (by rwa [setWidth_toNat hy])
      (by rwa [setWidth_toNat ho]) hhalts (launched hc (by decide) hlaunch)
    rwa [setWidth_toNat ho, hlen, hc.size] at hroom

theorem dot_leavesRoom (hF : F.AddsZero)
    (hcheck : ¬ memBytes < vectorOoff n + sizeofFloat)
    (hin : (vectorYoff n).toNat + (n * sizeofFloat).toNat ≤ allocated memBytes) :
    LeavesRoom F bvmlSummary memBytes (cstr "dot")
      [0, (vectorYoff n).setWidth 32, (vectorOoff n).setWidth 32, n.setWidth 32, 4, 1]
      (vectorOoff n) sizeofFloat := by
  intro c d hc hlaunch hhalts
  have hle := allocated_le memBytes
  obtain ⟨hy, ho, hzero⟩ := vector_offsets hin
  obtain ⟨k, hk, hlen⟩ := count_eq n
  rw [hk] at hlaunch
  rcases Nat.eq_zero_or_pos k with rfl | hpos
  · -- nothing was copied in, and the test has found room for the result
    have hmem : 4 ≤ memBytes.toNat := by
      rw [BitVec.not_lt, BitVec.le_def, BitVec.toNat_add, hzero (by omega)] at hcheck
      exact hcheck
    rw [hzero (by omega)]
    show 0 + 4 ≤ min (max memBytes.toNat 1) (64 * 1024 * 1024)
    omega
  · have hroom := dot_inside hF hc.img hpos (by omega) (by rwa [setWidth_toNat hy])
      (by rwa [setWidth_toNat ho]) hhalts (launched hc (by decide) hlaunch)
    rwa [setWidth_toNat ho, hc.size] at hroom

/-- The second operand of `bvml_saxpy` and `bvml_dot` ends inside the memory, unless the call does
nothing. `outLen` is the length of the result. -/
def VectorFits (memBytes n outLen : Size) : Prop :=
  n ≠ 0 → vectorOoff n + outLen ≤ memBytes →
    (vectorYoff n).toNat + (n * sizeofFloat).toNat ≤ allocated memBytes

theorem saxpy_copies_iff {a : Word} (hF : F.AddsZero) (h : ctx.Runs bvmlSummary memBytes) :
    CopiesInside (bvmlSaxpy F ctx a x y out n) ↔ VectorFits memBytes n (n * sizeofFloat) := by
  unfold bvmlSaxpy VectorFits
  rw [h.mem]
  by_cases hn : n = 0
  · rw [if_pos hn]
    exact iff_of_true (copiesInside_ok _) fun h => absurd hn h
  rw [if_neg hn]
  by_cases hcheck : memBytes < vectorOoff n + n * sizeofFloat
  · rw [if_pos hcheck]
    exact iff_of_true (copiesInside_ok _) fun _ h => absurd hcheck (BitVec.not_lt.mpr h)
  rw [if_neg hcheck]
  refine (vectorBody_inside_iff h (saxpy_leavesRoom hF)).trans ?_
  exact ⟨fun h _ _ => h, fun h => h hn (BitVec.not_lt.mp hcheck)⟩

theorem dot_copies_iff (hF : F.AddsZero) (h : ctx.Runs bvmlSummary memBytes) :
    CopiesInside (bvmlDot F ctx x y out n) ↔ VectorFits memBytes n sizeofFloat := by
  unfold bvmlDot VectorFits
  rw [h.mem]
  by_cases hn : n = 0
  · rw [if_pos hn]
    exact iff_of_true (copiesInside_ok _) fun h => absurd hn h
  rw [if_neg hn]
  by_cases hcheck : memBytes < vectorOoff n + sizeofFloat
  · rw [if_pos hcheck]
    exact iff_of_true (copiesInside_ok _) fun _ h => absurd hcheck (BitVec.not_lt.mpr h)
  rw [if_neg hcheck]
  refine (vectorBody_inside_iff h (dot_leavesRoom hF hcheck)).trans ?_
  exact ⟨fun h _ _ => h, fun h => h hn (BitVec.not_lt.mp hcheck)⟩

/-- The operand of an operation of BVN ends inside the memory, unless the call does nothing. -/
def UnaryFits (memBytes n : Size) : Prop :=
  n ≠ 0 → unaryOoff n + n * sizeofFloat ≤ memBytes →
    (n * sizeofFloat).toNat ≤ allocated memBytes

theorem unary_leavesRoom {kernel : List Byte} {pc : Nat} {args : (o n : Word) → List Word}
    (hstores : StoresResult F pc args)
    (hentry : (bvnSummary.2.find? fun e => e.1 = cstrOf kernel).map Prod.snd =
      some (BitVec.ofNat 32 pc))
    (hin : (n * sizeofFloat).toNat ≤ allocated memBytes) :
    LeavesRoom F bvnSummary memBytes kernel (args ((unaryOoff n).setWidth 32) (n.setWidth 32))
      (unaryOoff n) (n * sizeofFloat) := by
  intro c d hc hlaunch hhalts
  have hle := allocated_le memBytes
  have ho := (align16_le (x := n * sizeofFloat) (by omega)).2
  obtain ⟨k, hk, hlen⟩ := count_eq n
  rw [hk] at hlaunch
  rcases Nat.eq_zero_or_pos k with rfl | hpos
  · have hzero := align16_toNat (x := n * sizeofFloat) (by omega)
    rw [unaryOoff, hzero]
    omega
  · have hroom := hstores d c.dev.img c.dev.mem k _ hc.img hpos (by omega)
      (by rw [unaryOoff, setWidth_toNat ho]; exact ho) hhalts (launched hc hentry hlaunch)
    rwa [unaryOoff, setWidth_toNat ho, hlen, hc.size] at hroom

theorem unary_copies_iff (kernel : List Byte) {pc : Nat} {args : (o n : Word) → List Word}
    (hstores : StoresResult F pc args)
    (hentry : (bvnSummary.2.find? fun e => e.1 = cstrOf kernel).map Prod.snd =
      some (BitVec.ofNat 32 pc)) (h : ctx.Runs bvnSummary memBytes) (x out : HostArray) (n : Size) :
    CopiesInside (bvnUnary F kernel (args ((unaryOoff n).setWidth 32)
      (n.setWidth 32)) ctx x out n) ↔
      UnaryFits memBytes n := by
  unfold bvnUnary UnaryFits
  rw [h.mem]
  by_cases hn : n = 0
  · rw [if_pos hn]
    exact iff_of_true (copiesInside_ok _) fun h => absurd hn h
  rw [if_neg hn]
  by_cases hcheck : memBytes < unaryOoff n + n * sizeofFloat
  · rw [if_pos hcheck]
    exact iff_of_true (copiesInside_ok _) fun _ h => absurd hcheck (BitVec.not_lt.mpr h)
  rw [if_neg hcheck, copiesInside_callResult]
  refine (copyIn_bind_inside_iff h (P := True) fun hin c hc => iff_true_intro
    (launch_copyOut_inside hc (unary_leavesRoom hstores hentry (by simpa using hin)))).trans ?_
  rw [and_true, show (0 : Size).toNat = 0 from rfl, Nat.zero_add]
  exact ⟨fun h _ _ => h, fun h => h hn (BitVec.not_lt.mp hcheck)⟩

/-! #### `bvml_gemm` -/

/-- All operands of `bvml_gemm` end inside the memory, unless the call does nothing. -/
def GemmFits (memBytes M N K : Size) : Prop :=
  M ≠ 0 → N ≠ 0 → gemmCoff M N K + M * N * sizeofFloat ≤ memBytes →
    (M * K * sizeofFloat).toNat ≤ allocated memBytes ∧
    (gemmBoff M K).toNat + (K * N * sizeofFloat).toNat ≤ allocated memBytes ∧
    (gemmCoff M N K).toNat + (M * N * sizeofFloat).toNat ≤ allocated memBytes

theorem gemmCopyIn_bind_inside_iff {body : BvlibContext → BvlibOutcome (HostArray × BvlibContext)}
    {kernels : List BvInsn × List (List Byte × Word)} {off count : Size} {P : Prop}
    (h : ctx.Runs kernels memBytes)
    (hbody : (count ≠ 0 → off.toNat + (count * sizeofFloat).toNat ≤ allocated memBytes) →
      ∀ c : BvlibContext, c.Runs kernels memBytes → ((body c).Sat (fun _ => True) (fun _ => True)
        (fun u => ∀ off len, u ≠ .memcpy off len) ↔ P)) :
    ((gemmCopyIn x off count ctx).bind body).Sat (fun _ => True) (fun _ => True)
      (fun u => ∀ off len, u ≠ .memcpy off len) ↔
        (count ≠ 0 → off.toNat + (count * sizeofFloat).toNat ≤ allocated memBytes) ∧ P := by
  unfold gemmCopyIn
  by_cases hcount : count = 0
  · rw [if_neg (not_not_intro hcount), Outcome.ok_bind, hbody (fun h => absurd hcount h) ctx h]
    exact ⟨fun hP => ⟨fun h => absurd hcount h, hP⟩, And.right⟩
  · rw [if_pos hcount]
    refine (copyIn_bind_inside_iff h fun hin => hbody fun _ => hin).trans ?_
    exact ⟨fun h => ⟨fun _ => h.1, h.2⟩, fun h => ⟨h.1 hcount, h.2⟩⟩

theorem toNat_of_zero {count : Size} (h : count = 0) : (count * sizeofFloat).toNat = 0 := by
  rw [h]
  rfl

theorem gemm_offsets {M N K : Size} (hcheck : gemmCoff M N K + M * N * sizeofFloat ≤ memBytes)
    (hA : M * K ≠ 0 → (0 : Size).toNat + (M * K * sizeofFloat).toNat ≤ allocated memBytes)
    (hB : K * N ≠ 0 → (gemmBoff M K).toNat + (K * N * sizeofFloat).toNat ≤ allocated memBytes)
    (hC : M * N ≠ 0 → (gemmCoff M N K).toNat + (M * N * sizeofFloat).toNat ≤ allocated memBytes) :
    (M * K * sizeofFloat).toNat ≤ allocated memBytes ∧
      (gemmBoff M K).toNat + (K * N * sizeofFloat).toNat ≤ allocated memBytes ∧
      (gemmCoff M N K).toNat + (M * N * sizeofFloat).toNat ≤ allocated memBytes := by
  have hle := allocated_le memBytes
  have hmem : memBytes.toNat ≤ allocated memBytes ∨ allocated memBytes = 2 ^ 26 := by
    show memBytes.toNat ≤ min (max memBytes.toNat 1) (64 * 1024 * 1024) ∨
      min (max memBytes.toNat 1) (64 * 1024 * 1024) = 2 ^ 26
    omega
  have hA' : (M * K * sizeofFloat).toNat ≤ allocated memBytes := by
    by_cases h : M * K = 0
    · rw [toNat_of_zero h]
      exact Nat.zero_le _
    · have hin := hA h
      rwa [show (0 : Size).toNat = 0 from rfl, Nat.zero_add] at hin
  have hboff := (align16_le (x := M * K * sizeofFloat) (by omega)).2
  have hB' : (gemmBoff M K).toNat + (K * N * sizeofFloat).toNat ≤ 2 ^ 26 := by
    by_cases h : K * N = 0
    · rw [toNat_of_zero h]
      exact hboff
    · exact (hB h).trans hle
  have hsum : (gemmBoff M K + K * N * sizeofFloat).toNat =
      (gemmBoff M K).toNat + (K * N * sizeofFloat).toNat := by
    rw [BitVec.toNat_add]
    omega
  have hcoff := align16_le (x := gemmBoff M K + K * N * sizeofFloat) (by omega)
  have hC' : (gemmCoff M N K).toNat + (M * N * sizeofFloat).toNat ≤ allocated memBytes := by
    by_cases h : M * N = 0
    · rw [BitVec.le_def, BitVec.toNat_add, toNat_of_zero h, Nat.add_zero] at hcheck
      rw [toNat_of_zero h]
      have hlt := (gemmCoff M N K).isLt
      unfold gemmCoff at hcheck hlt ⊢
      omega
    · exact hC h
  refine ⟨hA', ?_, hC'⟩
  unfold gemmCoff at hC'
  omega

theorem gemm_copies_iff {alpha beta : Word} {A B C : HostArray} {M N K : Size}
    {kernels : List BvInsn × List (List Byte × Word)} (h : ctx.Runs kernels memBytes) :
    CopiesInside (bvmlGemm F ctx alpha A B beta C M N K) ↔ GemmFits memBytes M N K := by
  unfold bvmlGemm GemmFits
  rw [h.mem]
  by_cases hempty : M = 0 ∨ N = 0
  · rw [if_pos hempty]
    exact iff_of_true (copiesInside_ok _) fun hM hN => (hempty.elim hM hN).elim
  rw [if_neg hempty]
  by_cases hcheck : memBytes < gemmCoff M N K + M * N * sizeofFloat
  · rw [if_pos hcheck]
    exact iff_of_true (copiesInside_ok _) fun _ _ h => absurd hcheck (BitVec.not_lt.mpr h)
  rw [if_neg hcheck, copiesInside_callResult]
  rw [not_or] at hempty
  rw [BitVec.not_lt] at hcheck
  refine (gemmCopyIn_bind_inside_iff h fun hA c₁ h₁ => gemmCopyIn_bind_inside_iff h₁ fun hB c₂ h₂ =>
    gemmCopyIn_bind_inside_iff h₂ (P := True) fun hC c₃ h₃ => iff_true_intro ?_).trans ?_
  · refine ((gemmLaunches_keeps h₃).mono (fun _ h => h) (fun _ _ => trivial) ?_).bind
      fun c₄ h₄ => ?_
    · rintro u ⟨a, rfl⟩ off len hu
      cases hu
    · exact (copyOut_inside h₄ (gemm_offsets hcheck hA hB hC).2.2).bind fun _ _ => trivial
  · constructor
    · rintro ⟨hA, hB, hC, -⟩ _ _ _
      exact gemm_offsets hcheck hA hB hC
    · intro hfits
      obtain ⟨hA, hB, hC⟩ := hfits hempty.1 hempty.2 hcheck
      refine ⟨fun _ => ?_, fun _ => hB, fun _ => hC, trivial⟩
      rwa [show (0 : Size).toNat = 0 from rfl, Nat.zero_add]

end Operations

/-! ### All operations -/

/-- **When the copies stay inside device memory.** In every context in use, each operation's copies
do so exactly if its operands, where it puts them, end inside the memory `bvrt_create` has
allocated. -/
theorem copiesInside_iff {F : HostMath} (hF : F.AddsZero) (memBytes : Size) :
    (∀ ctx, BvmlInUse F memBytes ctx →
      (∀ a x y out n,
        CopiesInside (bvmlSaxpy F ctx a x y out n) ↔ VectorFits memBytes n (n * sizeofFloat)) ∧
      (∀ x y out n, CopiesInside (bvmlDot F ctx x y out n) ↔ VectorFits memBytes n sizeofFloat) ∧
      ∀ alpha A B beta C M N K,
        CopiesInside (bvmlGemm F ctx alpha A B beta C M N K) ↔ GemmFits memBytes M N K) ∧
    ∀ ctx, BvnInUse F memBytes ctx → ∀ x out n,
      (CopiesInside (bvnRelu F ctx x out n) ↔ UnaryFits memBytes n) ∧
      (∀ scale bias, CopiesInside (bvnAffine F ctx scale bias x out n) ↔ UnaryFits memBytes n) ∧
      (CopiesInside (bvnSoftmax F ctx x out n) ↔ UnaryFits memBytes n) ∧
      (CopiesInside (bvnGelu F ctx x out n) ↔ UnaryFits memBytes n) ∧
      (CopiesInside (bvnSilu F ctx x out n) ↔ UnaryFits memBytes n) := by
  refine ⟨fun ctx hctx => ⟨?_, ?_, ?_⟩, fun ctx hctx x out n => ⟨?_, ?_, ?_, ?_, ?_⟩⟩
  · exact fun a x y out n => saxpy_copies_iff hF hctx.runs
  · exact fun x y out n => dot_copies_iff hF hctx.runs
  · exact fun alpha A B beta C M N K => gemm_copies_iff hctx.runs
  · have h := unary_copies_iff (cstr "relu") (relu_stores hF) (by decide) hctx.runs x out n
    exact h
  · intro scale bias
    have h := unary_copies_iff (cstr "affine") (affine_stores hF scale bias) (by decide) hctx.runs x
      out n
    exact h
  · have h := unary_copies_iff (cstr "softmax") (softmax_stores hF bvnLog2e) (by decide) hctx.runs x
      out n
    exact h
  · have h :=
      unary_copies_iff (cstr "sigmul") (sigmul_stores hF bvnGeluFactor) (by decide) hctx.runs
      x out n
    exact h
  · have h :=
      unary_copies_iff (cstr "sigmul") (sigmul_stores hF bvnNegLog2e) (by decide) hctx.runs x
      out n
    exact h

theorem HostMath.integer_addsZero : HostMath.integer.AddsZero := fun w _ => BitVec.add_zero w

theorem exists_bvlibOpen {kernelSrc : List Byte} {kernels : List BvInsn × List (List Byte × Word)}
    (hc : (bradlibCompile kernelSrc).map BvbcImage.summary = some kernels) (memBytes : Size)
    (hpos : memBytes ≠ 0) (init : Nat → Byte) :
    ∃ ctx, bvlibOpen kernelSrc true memBytes init = some ctx := by
  unfold bvlibOpen
  rw [if_neg (fun h => h.elim hpos (absurd rfl))]
  cases hcompile : bradlibCompile kernelSrc with
  | none => simp [hcompile] at hc
  | some prog => exact ⟨_, rfl⟩

/-- 4 KiB are enough for `saxpy` over three elements and too little for a softmax that wraps. -/
theorem smallContexts_copies :
    (∃ ctx, bvmlOpen true 4096 (fun _ => 0) = some ctx ∧
      ∀ a x y out, CopiesInside (bvmlSaxpy HostMath.integer ctx a x y out 3)) ∧
    ∃ ctx, bvnOpen true 4096 (fun _ => 0) = some ctx ∧
      ∀ x out, ¬ CopiesInside (bvnSoftmax HostMath.integer ctx x out 0x2000000000000001) := by
  obtain ⟨c₁, h₁⟩ := exists_bvlibOpen bradlibCompile_bvml 4096 (by decide) fun _ => 0
  obtain ⟨c₂, h₂⟩ := exists_bvlibOpen bradlibCompile_bvn 4096 (by decide) fun _ => 0
  have hiff := copiesInside_iff HostMath.integer_addsZero 4096
  refine ⟨⟨c₁, h₁, fun a x y out => ((hiff.1 c₁ (.opened h₁)).1 a x y out 3).mpr ?_⟩,
    c₂, h₂, fun x out h => ?_⟩
  · exact fun _ _ => by decide
  · exact absurd (((hiff.2 c₂ (.opened h₂) x out _).2.2.1).mp h (by decide) (by decide)) (by decide)

/-- A context opened with 256 MiB has a device of 64 MiB, and a vector of one more float does not
fit. -/
theorem not_forall_copiesInside :
    ¬ ∀ (memBytes : Size) (ctx : BvlibContext), BvnInUse HostMath.integer memBytes ctx →
      ∀ x out n, CopiesInside (bvnRelu HostMath.integer ctx x out n) := by
  intro h
  obtain ⟨ctx, hopen⟩ := exists_bvlibOpen bradlibCompile_bvn 0x10000000 (by decide) fun _ => 0
  have hctx : BvnInUse HostMath.integer 0x10000000 ctx := .opened hopen
  have hiff := unary_copies_iff (cstr "relu") (relu_stores HostMath.integer_addsZero) (by decide)
    hctx.runs (fun _ => 0) (fun _ => 0) 0x1000001
  exact absurd (hiff.mp (h _ ctx hctx _ _ _) (by decide) (by decide)) (by decide)

end BradVector
