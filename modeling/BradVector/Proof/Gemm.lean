import BradVector.Proof.Copies
import BradVector.Proof.GemmKernel

/-!
# `bvml_gemm` computes the matrix product

The operands are laid out behind each other, one launch after the other replaces an element of `C`
by its new value, and the last copy brings all of them back. The proof follows the elements in the
order of the launches: those before element `i` are new, the others are as they came.
-/

namespace BradVector

open CSem

/-! ### Floats in device memory -/

section Floats

variable {mem : Nat → Byte} {x : HostArray} {off n i a : Nat}

theorem floatBytes_length (x : HostArray) (n : Nat) : (floatBytes x n).length = 4 * n := by
  simp [floatBytes, Nat.mul_comm]

theorem wordAt_floatBytes (h : i < n) :
    wordAt (writeBytes mem off (floatBytes x n)) (off + 4 * i) = x i := by
  have hfront := floatBytes_length x i
  unfold floatBytes at hfront ⊢
  rw [flatMap_range_split _ h, writeBytes_append, writeBytes_append, hfront, toLE_length,
    wordAt_writeBytes_of_disjoint (.inl le_rfl), wordAt_writeBytes_self]

theorem wordAt_poke32_self (m : DevMem) (w : Word) : wordAt (m.poke32 off w).bytes off = w :=
  wordAt_writeBytes_self _ _ _

theorem wordAt_poke32_of_disjoint {m : DevMem} {w : Word} (h : a + 4 ≤ off ∨ off + 4 ≤ a) :
    wordAt (m.poke32 off w).bytes a = wordAt m.bytes a :=
  wordAt_writeBytes_of_disjoint (by rwa [toLE_length])

end Floats

/-! ### One launch -/

theorem gemm_launch1 {F : HostMath} {ctx : BvlibContext} {memBytes : Size} {p : GemmLaunch}
    (h : ctx.Runs bvmlSummary memBytes) (hF : p.AddsZero F) (hfits : p.Fits ctx.dev.mem.size) :
    ∃ c, launch1 F ctx (cstr "gemm") p.args = .ok c ∧ c.Runs bvmlSummary memBytes ∧
      c.dev.mem = ctx.dev.mem.poke32 p.out (p.result F ctx.dev.mem.bytes) := by
  have hentry : ctx.dev.img.Entry (cstr "gemm") 32 :=
    entry_of_summary (h.img : _ = (bvmlCode, _)) (by decide)
  obtain ⟨d, hlaunch, hat, hinsns⟩ := launch_at hentry p.args rfl
  obtain ⟨e, hsteps, hactive, hmem, himg⟩ := gemm_steps h.img hF hfits hat
  have hcount := hfits.count
  have hrun : bvrtRun F d bvlibMaxInsns = .ok (.halt, e) := by
    rw [bvrtRun_of_steps ?_ hsteps, bvrtRun_of_halted hactive]
    -- the sums are at most as long as half the memory has floats, and then the budget lasts
    show d.insns + (9 * p.count + 12) ≤ 100000000
    omega
  refine ⟨{ ctx with dev := e }, ?_, ⟨h.pos, h.mem, ?_, ?_⟩, hmem⟩
  · unfold launch1
    rw [hlaunch]
    dsimp only
    rw [hrun]
  · exact (congrArg _ himg).trans h.img
  · exact (congrArg DevMem.size hmem).trans h.size

/-! ### The layout -/

/-- What the operands have to do with device memory, in true integers: `b` and `c` are where `B` and
`C` begin. -/
structure GemmLayout (M N K b c size : Nat) : Prop where
  a_le : 4 * (M * K) ≤ b
  b_le : b + 4 * (K * N) ≤ c
  c_le : c + 4 * (M * N) ≤ size
  size_le : size ≤ 2 ^ 26

/-- The element `bvml_gemm` is to compute. -/
def gemmElement (F : HostMath) (alpha : Word) (A B : HostArray) (beta : Word) (C : HostArray)
    (N K r c : Nat) : Word :=
  let S := (List.range K).foldl (fun acc k => F.mad (A (r * K + k)) (B (k * N + c)) acc) 0
  F.add (F.mul S alpha) (F.mul beta (C (r * N + c)))

section Elements

variable {F : HostMath} {alpha beta : Word} {A B C : HostArray} {M N K b c size i r j : Nat}
  {bytes : Nat → Byte}

/-- Device memory before the launch for element `i`. -/
structure GemmMemory (F : HostMath) (alpha : Word) (A B : HostArray) (beta : Word) (C : HostArray)
    (M N K b c i : Nat) (bytes : Nat → Byte) : Prop where
  a : ∀ j < M * K, wordAt bytes (4 * j) = A j
  b : ∀ j < K * N, wordAt bytes (b + 4 * j) = B j
  c : ∀ j < M * N, wordAt bytes (c + 4 * j) =
    if j < i then gemmElement F alpha A B beta C N K (j / N) (j % N) else C j

/-- The launch for row `r` and column `j`. -/
def elementLaunch (alpha beta : Word) (N K b c r j : Nat) : GemmLaunch where
  row := 4 * (r * K)
  col := b + 4 * j
  out := c + 4 * (r * N + j)
  stride := 4 * N
  count := K
  alpha := alpha
  beta := beta

theorem rowMajor_lt {m n r j : Nat} (hr : r < m) (hj : j < n) : r * n + j < m * n := by
  calc r * n + j < r * n + n := Nat.add_lt_add_left hj _
    _ = (r + 1) * n := (Nat.succ_mul r n).symm
    _ ≤ m * n := Nat.mul_le_mul_right n hr

theorem elementLaunch_fits (alpha beta : Word) (hl : GemmLayout M N K b c size) (hr : r < M)
    (hj : j < N) :
    (elementLaunch alpha beta N K b c r j).Fits size := by
  have ha := hl.a_le
  have hb := hl.b_le
  have hc := hl.c_le
  have hsize := hl.size_le
  constructor
  · intro k (hk : k < K)
    have hlt := rowMajor_lt hr hk
    show 4 * (r * K) + 4 * k + 4 ≤ size
    omega
  · intro k (hk : k < K)
    have hlt := rowMajor_lt hk hj
    show b + 4 * j + 4 * N * k + 4 ≤ size
    rw [Nat.mul_assoc, Nat.mul_comm N k]
    omega
  · have hlt := rowMajor_lt hr hj
    show c + 4 * (r * N + j) + 4 ≤ size
    omega
  · have hA : K ≤ M * K := Nat.le_mul_of_pos_left K (Nat.zero_lt_of_lt hr)
    have hB : K ≤ K * N := Nat.le_mul_of_pos_right K (Nat.zero_lt_of_lt hj)
    show 8 * K ≤ 2 ^ 26
    omega

theorem elementLaunch_sum (hm : GemmMemory F alpha A B beta C M N K b c i bytes) (hr : r < M)
    (hj : j < N) {k : Nat} (hk : k ≤ K) :
    (elementLaunch alpha beta N K b c r j).sum F bytes k =
      (List.range k).foldl (fun acc k => F.mad (A (r * K + k)) (B (k * N + j)) acc) 0 := by
  induction k with
  | zero => rfl
  | succ k ih =>
      have hA : wordAt bytes (4 * (r * K) + 4 * k) = A (r * K + k) := by
        rw [← Nat.mul_add]
        exact hm.a _ (rowMajor_lt hr hk)
      have hB : wordAt bytes (b + 4 * j + 4 * N * k) = B (k * N + j) := by
        rw [← hm.b _ (rowMajor_lt hk hj)]
        congr 1
        ring
      rw [List.range_succ, List.foldl_concat, ← ih (by omega), ← hA, ← hB]
      rfl

theorem elementLaunch_result (hm : GemmMemory F alpha A B beta C M N K b c (r * N + j) bytes)
    (hr : r < M) (hj : j < N) :
    (elementLaunch alpha beta N K b c r j).result F bytes =
      gemmElement F alpha A B beta C N K r j := by
  have hC := hm.c _ (rowMajor_lt hr hj)
  rw [if_neg (Nat.lt_irrefl _)] at hC
  show F.add (F.mul ((elementLaunch alpha beta N K b c r j).sum F bytes K) alpha)
    (F.mul beta (wordAt bytes (c + 4 * (r * N + j)))) = _
  rw [elementLaunch_sum hm hr hj (le_refl K), hC]
  rfl

theorem GemmMemory.next {m : DevMem} (hl : GemmLayout M N K b c size) (hr : r < M) (hj : j < N)
    (hm : GemmMemory F alpha A B beta C M N K b c (r * N + j) m.bytes) :
    GemmMemory F alpha A B beta C M N K b c (r * N + j + 1)
      (m.poke32 (c + 4 * (r * N + j)) (gemmElement F alpha A B beta C N K r j)).bytes := by
  have ha := hl.a_le
  have hb := hl.b_le
  have hlt := rowMajor_lt hr hj
  constructor
  · intro k hk
    rw [wordAt_poke32_of_disjoint (by omega)]
    exact hm.a k hk
  · intro k hk
    rw [wordAt_poke32_of_disjoint (by omega)]
    exact hm.b k hk
  · intro k hk
    by_cases heq : k = r * N + j
    · subst heq
      rw [wordAt_poke32_self, if_pos (Nat.lt_succ_self _), Nat.mul_comm r N,
        Nat.mul_add_div (Nat.zero_lt_of_lt hj), Nat.mul_add_mod, Nat.div_eq_of_lt hj,
        Nat.mod_eq_of_lt hj, Nat.add_zero]
    · rw [wordAt_poke32_of_disjoint (by omega), hm.c k hk]
      simp only [show k < r * N + j + 1 ↔ k < r * N + j by omega]

end Elements

/-! ### The operation -/

section Operation

variable {F : HostMath} {ctx : BvlibContext} {memBytes : Size} {alpha beta : Word}
  {A B C x : HostArray} {M N K off count : Size} {b c n : Nat}

theorem gemmCopyIn_spec (x : HostArray) (off : Size) (h : ctx.Runs bvmlSummary memBytes)
    (hlen : (count * sizeofFloat).toNat = 4 * count.toNat)
    (hin : off.toNat + 4 * count.toNat ≤ allocated memBytes) :
    ∃ c, gemmCopyIn x off count ctx = .ok c ∧ c.Runs bvmlSummary memBytes ∧
      (∀ j < count.toNat, wordAt c.dev.mem.bytes (off.toNat + 4 * j) = x j) ∧
      ∀ a, a + 4 ≤ off.toNat ∨ off.toNat + 4 * count.toNat ≤ a →
        wordAt c.dev.mem.bytes a = wordAt ctx.dev.mem.bytes a := by
  unfold gemmCopyIn
  by_cases hcount : count = 0
  · rw [if_neg (not_not_intro hcount)]
    refine ⟨ctx, rfl, h, fun j hj => ?_, fun a _ => rfl⟩
    rw [hcount] at hj
    exact absurd hj (Nat.not_lt_zero j)
  · have hfloats : (count * sizeofFloat).toNat / 4 = count.toNat := by omega
    unfold copyIn
    rw [if_pos hcount, if_pos (by rw [hlen, h.size]; exact hin), hfloats]
    refine ⟨_, rfl, ⟨h.pos, h.mem, h.img, h.size⟩, fun j hj => wordAt_floatBytes hj, fun a ha => ?_⟩
    exact wordAt_writeBytes_of_disjoint (by rwa [floatBytes_length])

/-- The low half of an address, of which `size_t` and `uint32_t` wrap the same. -/
theorem setWidth_add_mul_sizeofFloat (y : Size) {z : Size} {m : Nat} (hz : z = BitVec.ofNat 64 m) :
    (y + z * sizeofFloat).setWidth 32 = BitVec.ofNat 32 (y.toNat + 4 * m) := by
  have hsum : y + z * sizeofFloat = BitVec.ofNat 64 (y.toNat + 4 * m) := by
    rw [hz, BitVec.ofNat_add, BitVec.ofNat_mul, BitVec.ofNat_toNat, BitVec.setWidth_eq]
    exact congrArg (y + ·) (mul_comm _ sizeofFloat)
  rw [hsum]
  exact BitVec.setWidth_ofNat_of_le (by decide) _

theorem ofNat_mul_eq (r : Nat) (x : Size) : BitVec.ofNat 64 r * x =
    BitVec.ofNat 64 (r * x.toNat) := by
  rw [BitVec.ofNat_mul, BitVec.ofNat_toNat, BitVec.setWidth_eq]

theorem setWidth_eq_ofNat (x : Size) : x.setWidth 32 = BitVec.ofNat 32 x.toNat := by
  rw [BitVec.ofNat_toNat]

theorem gemmArgs_eq (r j : Nat) :
    gemmArgs alpha beta M N K r j = (elementLaunch alpha beta N.toNat K.toNat (gemmBoff M K).toNat
      (gemmCoff M N K).toNat r j).args := by
  have hrow := setWidth_add_mul_sizeofFloat 0 (ofNat_mul_eq r K)
  have hcol := setWidth_add_mul_sizeofFloat (gemmBoff M K) (rfl : BitVec.ofNat 64 j = _)
  have hout := setWidth_add_mul_sizeofFloat (gemmCoff M N K)
    (show BitVec.ofNat 64 r * N + BitVec.ofNat 64 j = BitVec.ofNat 64 (r * N.toNat + j) by
      rw [ofNat_mul_eq, BitVec.ofNat_add])
  have hstride : (N * sizeofFloat).setWidth 32 = BitVec.ofNat 32 (4 * N.toNat) := by
    have h := setWidth_add_mul_sizeofFloat 0 (show N = BitVec.ofNat 64 N.toNat by simp)
    rwa [zero_add, show (0 : Size).toNat = 0 from rfl, Nat.zero_add] at h
  rw [show (0 : Size).toNat = 0 from rfl, Nat.zero_add] at hrow
  unfold gemmArgs
  dsimp only
  rw [hrow, hcol, hout, hstride, setWidth_eq_ofNat]
  rfl

/-- The size `bvml_gemm` compares with the memory asked for, in true integers. -/
def gemmEnd (M N K : Nat) : Nat :=
  let align (n : Nat) := (n + 15) / 16 * 16
  align (align (4 * (M * K)) + 4 * (K * N)) + 4 * (M * N)

theorem toNat_count {y z : Size} (h : 4 * (y.toNat * z.toNat) < 2 ^ 64) :
    (y * z).toNat = y.toNat * z.toNat ∧ (y * z * sizeofFloat).toNat = 4 * (y.toNat * z.toNat) := by
  have hyz : (y * z).toNat = y.toNat * z.toNat := by
    rw [BitVec.toNat_mul, Nat.mod_eq_of_lt (by omega)]
  refine ⟨hyz, ?_⟩
  rw [toNat_mul_sizeofFloat, hyz]
  omega

/-- Without wrapping, the operands lie behind each other inside the memory there is. -/
theorem gemmLayout_of_check (hwrap : gemmEnd M.toNat N.toNat K.toNat < 2 ^ 64)
    (hcheck : gemmCoff M N K + M * N * sizeofFloat ≤ memBytes)
    (hmem : memBytes.toNat ≤ bvrtMaxMem) :
    GemmLayout M.toNat N.toNat K.toNat (gemmBoff M K).toNat (gemmCoff M N K).toNat
      (allocated memBytes) := by
  unfold gemmEnd at hwrap
  dsimp only at hwrap
  have hA := (toNat_count (y := M) (z := K) (by omega)).2
  have hB := (toNat_count (y := K) (z := N) (by omega)).2
  have hC := (toNat_count (y := M) (z := N) (by omega)).2
  have hboff := align16_toNat (x := M * K * sizeofFloat) (by omega)
  have hsum : (gemmBoff M K + K * N * sizeofFloat).toNat =
      (gemmBoff M K).toNat + 4 * (K.toNat * N.toNat) := by
    rw [BitVec.toNat_add, hB, gemmBoff, hboff]
    omega
  rw [← gemmBoff] at hboff
  have hcoff := align16_toNat (x := gemmBoff M K + K * N * sizeofFloat) (by omega)
  rw [← gemmCoff] at hcoff
  rw [BitVec.le_def, BitVec.toNat_add, hC, Nat.mod_eq_of_lt (by omega)] at hcheck
  have hallocated : memBytes.toNat ≤ allocated memBytes :=
    Nat.le_min.mpr ⟨Nat.le_max_left _ _, hmem⟩
  exact ⟨by omega, by omega, by omega, allocated_le memBytes⟩

/-- The words the kernel moves in the launch for row `r` and column `j`: the start of the sum, its
two addresses and its counter. -/
def gemmMoved (M K : Size) (r j : Nat) : List Word :=
  [0, (BitVec.ofNat 64 r * K * sizeofFloat).setWidth 32,
    (gemmBoff M K + BitVec.ofNat 64 j * sizeofFloat).setWidth 32, K.setWidth 32]

theorem elementLaunch_addsZero {r j : Nat} (hF : ∀ w ∈ gemmMoved M K r j, F.add w 0 = w) :
    (elementLaunch alpha beta N.toNat K.toNat (gemmBoff M K).toNat (gemmCoff M N K).toNat
      r j).AddsZero F := by
  have hrow := setWidth_add_mul_sizeofFloat 0 (ofNat_mul_eq r K)
  rw [zero_add, show (0 : Size).toNat = 0 from rfl, Nat.zero_add] at hrow
  have hcol := setWidth_add_mul_sizeofFloat (gemmBoff M K) (rfl : BitVec.ofNat 64 j = _)
  unfold gemmMoved at hF
  rw [hrow, hcol, setWidth_eq_ofNat] at hF
  constructor
  · exact hF _ (by simp)
  · exact hF _ (by simp [elementLaunch])
  · exact hF _ (by simp [elementLaunch])
  · exact hF _ (by simp [elementLaunch])

theorem gemmLaunches_sat
    (hl : GemmLayout M.toNat N.toNat K.toNat (gemmBoff M K).toNat (gemmCoff M N K).toNat
      (allocated memBytes))
    (hF : ∀ r < M.toNat, ∀ j < N.toNat, ∀ w ∈ gemmMoved M K r j, F.add w 0 = w)
    (h : ctx.Runs bvmlSummary memBytes)
    (hm : GemmMemory F alpha A B beta C M.toNat N.toNat K.toNat (gemmBoff M K).toNat
      (gemmCoff M N K).toNat 0 ctx.dev.mem.bytes) :
    ∃ e, Outcome.forRange M.toNat (fun r => Outcome.forRange N.toNat fun c ctx =>
        launch1 F ctx (cstr "gemm") (gemmArgs alpha beta M N K r c)) ctx = .ok e ∧
      e.Runs bvmlSummary memBytes ∧
      GemmMemory F alpha A B beta C M.toNat N.toNat K.toNat (gemmBoff M K).toNat
        (gemmCoff M N K).toNat (M.toNat * N.toNat) e.dev.mem.bytes := by
  let I (i : Nat) (ctx : BvlibContext) : Prop := ctx.Runs bvmlSummary memBytes ∧
    GemmMemory F alpha A B beta C M.toNat N.toNat K.toNat (gemmBoff M K).toNat
      (gemmCoff M N K).toNat i ctx.dev.mem.bytes
  refine Outcome.Sat.exists_ok (Q := I (M.toNat * N.toNat)) ?_
  refine Outcome.Sat.forRange (I := fun r => I (r * N.toNat)) ⟨h, by rwa [Nat.zero_mul]⟩
    fun r ctx hrow => ?_
  rw [Nat.succ_mul]
  refine Outcome.Sat.forRange (I := fun j => I (r * N.toNat + j)) hrow fun j ctx ⟨hruns, hmem⟩ => ?_
  have hfits := elementLaunch_fits alpha beta hl r.isLt j.isLt
  rw [← hruns.size] at hfits
  obtain ⟨e, he, hruns', hdev⟩ := gemm_launch1 hruns
    (elementLaunch_addsZero (hF r r.isLt j j.isLt)) hfits
  rw [gemmArgs_eq, he]
  refine ⟨hruns', ?_⟩
  rw [hdev, elementLaunch_result hmem r.isLt j.isLt]
  exact hmem.next hl r.isLt j.isLt

theorem gemmCopies_spec (F : HostMath) (alpha beta : Word)
    (hl : GemmLayout M.toNat N.toNat K.toNat (gemmBoff M K).toNat (gemmCoff M N K).toNat
      (allocated memBytes)) (h : ctx.Runs bvmlSummary memBytes) :
    ∃ c₁ c₂ c₃, gemmCopyIn A 0 (M * K) ctx = .ok c₁ ∧
      gemmCopyIn B (gemmBoff M K) (K * N) c₁ = .ok c₂ ∧
      gemmCopyIn C (gemmCoff M N K) (M * N) c₂ = .ok c₃ ∧ c₃.Runs bvmlSummary memBytes ∧
      GemmMemory F alpha A B beta C M.toNat N.toNat K.toNat (gemmBoff M K).toNat
        (gemmCoff M N K).toNat 0 c₃.dev.mem.bytes := by
  have ha := hl.a_le
  have hb := hl.b_le
  have hc := hl.c_le
  have hsize := hl.size_le
  obtain ⟨hMK, hA⟩ := toNat_count (y := M) (z := K) (by omega)
  obtain ⟨hKN, hB⟩ := toNat_count (y := K) (z := N) (by omega)
  obtain ⟨hMN, hC⟩ := toNat_count (y := M) (z := N) (by omega)
  have hzero : (0 : Size).toNat = 0 := rfl
  obtain ⟨c₁, hc₁, h₁, hnew₁, -⟩ := gemmCopyIn_spec A 0 h (by rw [hA, hMK])
    (by rw [hzero, hMK]; omega)
  obtain ⟨c₂, hc₂, h₂, hnew₂, hold₂⟩ := gemmCopyIn_spec B (gemmBoff M K) h₁
    (by rw [hB, hKN]) (by rw [hKN]; omega)
  obtain ⟨c₃, hc₃, h₃, hnew₃, hold₃⟩ := gemmCopyIn_spec C (gemmCoff M N K) h₂
    (by rw [hC, hMN]) (by rw [hMN]; omega)
  rw [hzero, hMK] at hnew₁
  rw [hKN] at hnew₂ hold₂
  rw [hMN] at hnew₃ hold₃
  refine ⟨c₁, c₂, c₃, hc₁, hc₂, hc₃, h₃, ?_, ?_, ?_⟩
  · intro j hj
    rw [hold₃ _ (by omega), hold₂ _ (by omega), ← hnew₁ j hj, Nat.zero_add]
  · intro j hj
    rw [hold₃ _ (by omega), hnew₂ j hj]
  · intro j hj
    rw [hnew₃ j hj, if_neg (Nat.not_lt_zero j)]

end Operation

/-- **`bvml_gemm` is correct.** Where the sizes do not wrap and fit a context of at most 64 MiB, the
call returns 0 with every element of the new `C` the one it should be. -/
theorem bvmlGemm_correct {F : HostMath} {memBytes : Size} {ctx : BvlibContext}
    (hctx : BvmlInUse F memBytes ctx) (hmem : memBytes.toNat ≤ bvrtMaxMem) (alpha beta : Word)
    (A B C : HostArray) (M N K : Size) (hwrap : gemmEnd M.toNat N.toNat K.toNat < 2 ^ 64)
    (hcheck : gemmCoff M N K + M * N * sizeofFloat ≤ memBytes)
    (hF : ∀ r < M.toNat, ∀ c < N.toNat, ∀ w ∈ gemmMoved M K r c, F.add w 0 = w) :
    ∃ res, bvmlGemm F ctx alpha A B beta C M N K = .ok res ∧ res.ret = 0 ∧
      ∀ r < M.toNat, ∀ c < N.toNat, res.out (r * N.toNat + c) =
        gemmElement F alpha A B beta C N.toNat K.toNat r c := by
  unfold bvmlGemm
  by_cases hempty : M = 0 ∨ N = 0
  · rw [if_pos hempty]
    refine ⟨_, rfl, rfl, fun r hr c hc => ?_⟩
    rcases hempty with rfl | rfl
    · exact absurd hr (Nat.not_lt_zero r)
    · exact absurd hc (Nat.not_lt_zero c)
  have hl := gemmLayout_of_check hwrap hcheck hmem
  obtain ⟨c₁, c₂, c₃, hA, hB, hC, hruns, hmem₃⟩ := gemmCopies_spec (A := A) (B := B) (C := C) F
    alpha beta hl hctx.runs
  obtain ⟨e, he, hruns', hmem'⟩ := gemmLaunches_sat hl hF hruns hmem₃
  have hlen := (toNat_count (y := M) (z := N) (by have := hl.c_le; have := hl.size_le; omega)).2
  let out : HostArray := fun i =>
    if i < M.toNat * N.toNat then wordAt e.dev.mem.bytes ((gemmCoff M N K).toNat + 4 * i) else C i
  have hcopy : copyOut C (gemmCoff M N K) (M * N * sizeofFloat) e = .ok out := by
    unfold copyOut
    rw [hlen, if_pos (hruns'.size ▸ hl.c_le), Nat.mul_div_cancel_left _ (by decide)]
  have hbody : gemmBody F alpha A B beta C M N K ctx = .ok (out, e) := by
    unfold gemmBody
    simp only [Outcome.bind_eq_bind, hA, hB, hC, he, hcopy, Outcome.ok_bind]
    rfl
  rw [if_neg hempty, hctx.runs.mem, if_neg (BitVec.not_lt.mpr hcheck), hbody]
  refine ⟨_, rfl, rfl, fun r hr c hc => ?_⟩
  have hlt := rowMajor_lt hr hc
  show (if r * N.toNat + c < M.toNat * N.toNat then _ else _) = _
  rw [if_pos hlt, hmem'.c _ hlt, if_pos hlt, Nat.mul_comm r, Nat.mul_add_div (Nat.zero_lt_of_lt hc),
    Nat.mul_add_mod, Nat.div_eq_of_lt hc, Nat.mod_eq_of_lt hc, Nat.add_zero]

theorem smallGemm_correct :
    ∃ ctx res, bvmlOpen true 4096 (fun _ => 0) = some ctx ∧
      bvmlGemm HostMath.integer ctx 2 (fun i => BitVec.ofNat 32 (i + 1))
        (fun i => BitVec.ofNat 32 (i + 1)) 3 (fun i => BitVec.ofNat 32 (i + 1)) 2 2 3 = .ok res ∧
      res.ret = 0 ∧ res.out 3 = 140 := by
  obtain ⟨ctx, hopen⟩ := exists_bvlibOpen bradlibCompile_bvml 4096 (by decide) fun _ => 0
  obtain ⟨res, hres, hret, hout⟩ := bvmlGemm_correct (F := HostMath.integer) (.opened hopen)
    (by decide) 2 3 (fun i => BitVec.ofNat 32 (i + 1)) (fun i => BitVec.ofNat 32 (i + 1))
    (fun i => BitVec.ofNat 32 (i + 1)) 2 2 3 (by decide) (by decide)
    fun _ _ _ _ w _ => BitVec.add_zero w
  refine ⟨ctx, res, hopen, hres, hret, ?_⟩
  exact (hout 1 (by decide) 1 (by decide)).trans (by decide)

end BradVector
