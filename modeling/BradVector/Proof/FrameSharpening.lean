import BradVector.Proof.FrameFilters

/-!
# Sharpening in place

The pass goes over the pixels of a frame row by row and corrects each from what its neighbourhood is
by then.
-/

namespace BradVector.Sense

open CSem

/-! ### Luma -/

/-- The luma of the `q`-th pixel. -/
def lumaPixel (V : Nat → Byte) (q : Nat) : ℚ :=
  bradsenseLuma (V (q * 4)) (V (q * 4 + 1)) (V (q * 4 + 2))

theorem bradsenseLuma_mem (r g b : Byte) : 0 ≤ bradsenseLuma r g b ∧ bradsenseLuma r g b ≤ 256 := by
  have hcoeff {a : ℚ} (h₀ : 0 ≤ a) (h₁ : a ≤ 1) : |f32 a - a| ≤ 1 / 2 ^ 23 :=
    f32_near (abs_le.mpr ⟨by linarith, h₁⟩) (by norm_num)
  have hbyte (v : Byte) : f32 (v.toNat : ℚ) = v.toNat ∧ |(v.toNat : ℚ)| ≤ 255 ∧
      (0 : ℚ) ≤ v.toNat := by
    have hle : v.toNat ≤ 255 := by omega
    have hle' : (v.toNat : ℚ) ≤ 255 := by exact_mod_cast hle
    exact ⟨f32_natCast (by omega), abs_le.mpr
      ⟨by linarith [Nat.cast_nonneg (α := ℚ) v.toNat], hle'⟩, Nat.cast_nonneg _⟩
  have hterm {a : ℚ} (h₀ : 0 ≤ a) (h₁ : a ≤ 1) (v : Byte) :
      |fmul (f32 a) (f32 v.toNat) - a * v.toNat| ≤ 511 / 2 ^ 23 ∧
        0 ≤ fmul (f32 a) (f32 v.toNat) := by
    obtain ⟨hv, hle, hnonneg⟩ := hbyte v
    rw [hv]
    have h := fmul_near (y := (v.toNat : ℚ)) (δ := 0) (A := 1) (c := 256) (hcoeff h₀ h₁) (by simp)
      (abs_le.mpr ⟨by linarith, h₁⟩) hle (by norm_num) (by norm_num)
    exact ⟨h.trans (by norm_num), f32_nonneg (mul_nonneg (f32_nonneg h₀) hnonneg)⟩
  obtain ⟨hr, hr₀⟩ := hterm (a := 2126 / 10000) (by norm_num) (by norm_num) r
  obtain ⟨hg, hg₀⟩ := hterm (a := 7152 / 10000) (by norm_num) (by norm_num) g
  obtain ⟨hb, hb₀⟩ := hterm (a := 722 / 10000) (by norm_num) (by norm_num) b
  have hrle := abs_le.mp (hbyte r).2.1
  have hgle := abs_le.mp (hbyte g).2.1
  have hble := abs_le.mp (hbyte b).2.1
  have hrg := fadd_near (c := 256) hr hg
    (by rw [← le_sub_iff_add_le,
      abs_le]; constructor <;> norm_num <;> linarith [(hbyte r).2.2, (hbyte g).2.2])
    (by norm_num)
  have hsum := fadd_near (c := 256) hrg hb
    (by rw [← le_sub_iff_add_le, abs_le]; constructor <;> norm_num <;>
          linarith [(hbyte r).2.2, (hbyte g).2.2, (hbyte b).2.2])
    (by norm_num)
  have hsum := abs_le.mp hsum
  constructor
  · exact f32_nonneg (add_nonneg (f32_nonneg (add_nonneg hr₀ hg₀)) hb₀)
  · unfold bradsenseLuma
    linarith

theorem lumaAt_paint {V : Nat → Byte} {d : Buffer} {n q : Nat} (hq : q * 4 + 3 < n)
    (hsize : n ≤ d.size) :
    lumaAt (d.paint V n) (q * 4) = .ok (lumaPixel V q) := by
  rw [lumaAt, Buffer.read_paint (by omega) hsize, Buffer.read_paint (by omega) hsize,
    Buffer.read_paint (by omega) hsize]
  rfl

/-! ### The statistics around a pixel -/

/-- What the statistics of the pixels seen say about them. -/
structure LumaStats.Of (V : Nat → Byte) (w y x : Nat) (seen : Nat → Nat → Prop) (st : LumaStats) :
    Prop where
  mn_le : ∀ yy xx, seen yy xx → st.mn ≤ lumaPixel V (yy * w + xx)
  le_mx : ∀ yy xx, seen yy xx → lumaPixel V (yy * w + xx) ≤ st.mx
  mn_mem : st.n = 0 ∧ st.mn = 1000000000 ∨ ∃ yy xx, seen yy xx ∧ st.mn = lumaPixel V (yy * w + xx)
  mx_mem : st.n = 0 ∧ st.mx = -1000000000 ∨ ∃ yy xx, seen yy xx ∧ st.mx = lumaPixel V (yy * w + xx)
  sum_mem : ∀ a b, 0 ≤ a → b ≤ 256 → (∀ yy xx, seen yy xx → a ≤ lumaPixel V (yy * w + xx) ∧
    lumaPixel V (yy * w + xx) ≤ b) → st.n * (a - 1 / 2 ^ 11) ≤ st.sum ∧
      st.sum ≤ st.n * (b + 1 / 2 ^ 11)
  center : seen y x → st.center = some ((y * w + x) * 4)

section Stats

variable {V : Nat → Byte} {w h y x : Nat} {seen seen' : Nat → Nat → Prop} {st : LumaStats}

theorem LumaStats.Of.congr (h : st.Of V w y x seen) (heq : ∀ yy xx, seen' yy xx ↔ seen yy xx) :
    st.Of V w y x seen' := by
  have hseen : seen' = seen := funext fun yy => funext fun xx => propext (heq yy xx)
  rw [hseen]
  exact h

theorem LumaStats.of_none (h : ∀ yy xx, ¬ seen yy xx) :
    LumaStats.Of V w y x seen ⟨0, 1000000000, -1000000000, none, 0⟩ where
  mn_le _ _ hseen := absurd hseen (h _ _)
  le_mx _ _ hseen := absurd hseen (h _ _)
  mn_mem := .inl ⟨rfl, rfl⟩
  mx_mem := .inl ⟨rfl, rfl⟩
  sum_mem _ _ _ _ _ := by norm_num
  center hseen := absurd hseen (h _ _)

/-- One more pixel. -/
theorem lumaStep_spec (seen' : Nat → Nat → Prop) {yy xx : Nat} (hst : st.Of V w y x seen)
    (hn : st.n < 9)
    (hpixel : (yy * w + xx) * 4 + 3 < w * h * 4)
    (hseen' : ∀ a b, seen' a b ↔ seen a b ∨ a = yy ∧ b = xx) :
    ∃ st', (∀ d : Buffer, w * h * 4 ≤ d.size →
        lumaStep (d.paint V (w * h * 4)) w y x yy xx st = .ok st') ∧
      st'.Of V w y x seen' ∧ st'.n = st.n + 1 := by
  have hplace : yy * (w * 4) + xx * 4 = (yy * w + xx) * 4 := by ring
  generalize hL : lumaPixel V (yy * w + xx) = L
  have hL₀ : 0 ≤ L ∧ L ≤ 256 := hL ▸ bradsenseLuma_mem _ _ _
  refine ⟨⟨fadd st.sum L, if L < st.mn then L else st.mn, if st.mx < L then L else st.mx,
    if yy = y ∧ xx = x then some ((yy * w + xx) * 4) else st.center, st.n + 1⟩, fun d hd => ?_, ?_,
      rfl⟩
  · rw [lumaStep, hplace, lumaAt_paint hpixel hd, hL]
    rfl
  constructor
  · intro a b hab
    dsimp only
    rcases (hseen' a b).mp hab with hold | ⟨rfl, rfl⟩
    · have := hst.mn_le a b hold
      split_ifs <;> linarith
    · rw [hL]
      split_ifs with hlt
      · exact le_rfl
      · exact not_lt.mp hlt
  · intro a b hab
    dsimp only
    rcases (hseen' a b).mp hab with hold | ⟨rfl, rfl⟩
    · have := hst.le_mx a b hold
      split_ifs <;> linarith
    · rw [hL]
      split_ifs with hlt
      · exact le_rfl
      · exact not_lt.mp hlt
  · right
    dsimp only
    by_cases hlt : L < st.mn
    · exact ⟨yy, xx, (hseen' yy xx).mpr (.inr ⟨rfl, rfl⟩), by rw [if_pos hlt, hL]⟩
    · rcases hst.mn_mem with ⟨-, hinit⟩ | ⟨a, b, hab, hmn⟩
      · linarith
      · exact ⟨a, b, (hseen' a b).mpr (.inl hab), by rw [if_neg hlt, hmn]⟩
  · right
    dsimp only
    by_cases hlt : st.mx < L
    · exact ⟨yy, xx, (hseen' yy xx).mpr (.inr ⟨rfl, rfl⟩), by rw [if_pos hlt, hL]⟩
    · rcases hst.mx_mem with ⟨-, hinit⟩ | ⟨a, b, hab, hmx⟩
      · linarith
      · exact ⟨a, b, (hseen' a b).mpr (.inl hab), by rw [if_neg hlt, hmx]⟩
  · intro a b ha hb hrange
    obtain ⟨hlow, hhigh⟩ :=
      hst.sum_mem a b ha hb fun a b hab => hrange a b ((hseen' a b).mpr (.inl hab))
    have hnew := hrange yy xx ((hseen' yy xx).mpr (.inr ⟨rfl, rfl⟩))
    rw [hL] at hnew
    have hn₀ : (0 : ℚ) ≤ st.n := Nat.cast_nonneg _
    have hn₈ : (st.n : ℚ) ≤ 8 := by exact_mod_cast Nat.le_of_lt_succ hn
    have hsize : |st.sum + L| ≤ 4096 := by
      rw [abs_le]
      constructor <;> nlinarith
    have hround := abs_le.mp (f32_near hsize (by norm_num))
    dsimp only
    push_cast
    unfold fadd
    constructor <;> nlinarith
  · intro hyx
    dsimp only
    split_ifs with heq
    · rw [heq.1, heq.2]
    · rcases (hseen' y x).mp hyx with hold | ⟨rfl, rfl⟩
      · exact hst.center hold
      · exact absurd ⟨rfl, rfl⟩ heq

/-- The three by three pixels around one, as far as there are any. -/
def Near (w h y x yy xx : Nat) : Prop :=
  yy < h ∧ xx < w ∧ y ≤ yy + 1 ∧ yy ≤ y + 1 ∧ x ≤ xx + 1 ∧ xx ≤ x + 1

theorem near_self (hy : y < h) (hx : x < w) : Near w h y x y x :=
  ⟨hy, hx, by omega, by omega, by omega, by omega⟩

theorem neighbours_spec {n k : Nat} (hk : k < n) :
    (neighbours n k).1 ≤ k ∧ k ≤ (neighbours n k).2 ∧ (neighbours n k).2 < n ∧
    (neighbours n k).2 ≤ (neighbours n k).1 + 2 ∧
      ∀ i, (neighbours n k).1 ≤ i ∧ i ≤ (neighbours n k).2 ↔ i < n ∧ k ≤ i + 1 ∧ i ≤ k + 1 := by
  unfold neighbours
  dsimp only
  split_ifs <;> refine ⟨by omega, by omega, by omega, by omega, fun i => by omega⟩

/-- The pixels of a row of the neighbourhood, from the column `x0` to `x1`. -/
theorem lumaRow_spec {y0 x0 x1 j : Nat} (hrow : y0 + j < h) (hx₁ : x1 < w)
    (hcount : j * (x1 + 1 - x0) + (x1 + 1 - x0) ≤ 9)
    (hst : st.Of V w y x fun yy xx => y0 ≤ yy ∧ x0 ≤ xx ∧ xx ≤ x1 ∧ yy < y0 + j)
    (hn : st.n = j * (x1 + 1 - x0)) :
    ∃ st', (∀ d : Buffer, w * h * 4 ≤ d.size → Outcome.forRange (x1 + 1 - x0)
        (fun i st => lumaStep (d.paint V (w * h * 4)) w y x (y0 + j) (x0 + i) st) st = .ok st') ∧
      st'.Of V w y x (fun yy xx => y0 ≤ yy ∧ x0 ≤ xx ∧ xx ≤ x1 ∧ yy < y0 + (j + 1)) ∧
      st'.n = (j + 1) * (x1 + 1 - x0) := by
  have hloop : ∃ st', (∀ d : Buffer, w * h * 4 ≤ d.size → Outcome.forRange (x1 + 1 - x0)
        (fun i st => lumaStep (d.paint V (w * h * 4)) w y x (y0 + j) (x0 + i) st) st = .ok st') ∧
      st'.Of V w y x (fun yy xx => y0 ≤ yy ∧ x0 ≤ xx ∧ xx ≤ x1 ∧
        (yy < y0 + j ∨ yy = y0 + j ∧ xx < x0 + (x1 + 1 - x0))) ∧
          st'.n = j * (x1 + 1 - x0) + (x1 + 1 - x0) := by
    refine Outcome.forRange_family (S := fun _ st _ => st)
      (D := fun d : Buffer => w * h * 4 ≤ d.size)
      (I := fun i (st : LumaStats) => st.Of V w y x (fun yy xx => y0 ≤ yy ∧ x0 ≤ xx ∧ xx ≤ x1 ∧
          (yy < y0 + j ∨ yy = y0 + j ∧ xx < x0 + i)) ∧ st.n = j * (x1 + 1 - x0) + i)
      ⟨hst.congr fun yy xx => by omega, hn⟩ ?_
    rintro i st ⟨hst, hn⟩
    have hi := i.isLt
    obtain ⟨st', hrun, hst', hn'⟩ := lumaStep_spec (fun yy xx => y0 ≤ yy ∧ x0 ≤ xx ∧ xx ≤ x1 ∧
        (yy < y0 + j ∨ yy = y0 + j ∧ xx < x0 + (i + 1))) hst (by omega)
      (channel_lt (c := 3) hrow (by omega : x0 + (i : Nat) < w) (by omega)) (fun yy xx => by omega)
    exact ⟨st', hrun, hst', by omega⟩
  obtain ⟨st', hrun, hst', hn'⟩ := hloop
  refine ⟨st', hrun, hst'.congr fun yy xx => by omega, ?_⟩
  rw [hn', Nat.succ_mul]

theorem lumaStats_spec (V : Nat → Byte) (hy : y < h) (hx : x < w) :
    ∃ st, (∀ d : Buffer, w * h * 4 ≤ d.size → lumaStats (d.paint V (w * h * 4)) w h y x = .ok st) ∧
      st.Of V w y x (Near w h y x) ∧ 1 ≤ st.n ∧ st.n ≤ 9 := by
  obtain ⟨hy₀, hy₁, hyh, hrows, hnearY⟩ := neighbours_spec hy
  obtain ⟨hx₀, hx₁, hxw, hcols, hnearX⟩ := neighbours_spec hx
  obtain ⟨y0, y1, hY⟩ : ∃ a b, neighbours h y = (a, b) := ⟨_, _, rfl⟩
  obtain ⟨x0, x1, hX⟩ : ∃ a b, neighbours w x = (a, b) := ⟨_, _, rfl⟩
  rw [hY] at hy₀ hy₁ hyh hrows hnearY
  rw [hX] at hx₀ hx₁ hxw hcols hnearX
  dsimp only at hy₀ hy₁ hyh hrows hnearY hx₀ hx₁ hxw hcols hnearX
  have hloop : ∃ st, (∀ d : Buffer, w * h * 4 ≤ d.size → Outcome.forRange (y1 + 1 - y0) (fun j st =>
          Outcome.forRange (x1 + 1 - x0)
            (fun i st => lumaStep (d.paint V (w * h * 4)) w y x (y0 + j) (x0 + i) st) st)
          ⟨0, 1000000000, -1000000000, none, 0⟩ = .ok st) ∧
      st.Of V w y x (fun yy xx => y0 ≤ yy ∧ x0 ≤ xx ∧ xx ≤ x1 ∧ yy < y0 + (y1 + 1 - y0)) ∧
      st.n = (y1 + 1 - y0) * (x1 + 1 - x0) := by
    refine Outcome.forRange_family (S := fun _ st _ => st)
      (D := fun d : Buffer => w * h * 4 ≤ d.size)
      (I := fun j (st : LumaStats) => st.Of V w y x (fun yy xx => y0 ≤ yy ∧ x0 ≤ xx ∧ xx ≤ x1 ∧
        yy < y0 + j) ∧
        st.n = j * (x1 + 1 - x0))
      ⟨LumaStats.of_none fun yy xx hseen => by omega, by simp⟩ ?_
    rintro j st ⟨hst, hn⟩
    have hj := j.isLt
    have hcount := Nat.mul_le_mul (by omega : (j : Nat) + 1 ≤ 3) (by omega : x1 + 1 - x0 ≤ 3)
    exact lumaRow_spec (by omega) hxw (by rwa [Nat.succ_mul] at hcount) hst hn
  obtain ⟨st, hrun, hst, hn⟩ := hloop
  refine ⟨st, fun d hd => ?_, hst.congr fun yy xx => ?_, ?_, ?_⟩
  · rw [lumaStats, hY, hX]
    exact hrun d hd
  · have hyy := hnearY yy
    have hxx := hnearX xx
    unfold Near
    omega
  · have := Nat.mul_le_mul (by omega : 1 ≤ y1 + 1 - y0) (by omega : 1 ≤ x1 + 1 - x0)
    omega
  · have := Nat.mul_le_mul (by omega : y1 + 1 - y0 ≤ 3) (by omega : x1 + 1 - x0 ≤ 3)
    omega

end Stats

/-! ### The correction of a pixel -/

/-- A value becomes a byte near it, or the end of the bytes it is past. -/
theorem toByte_near {v : ℚ} (h : |v| ≤ 1000) :
    ∃ b, toByte v = .ok b ∧ ((b.toNat : ℚ) ≤ v + 5 / 8 ∨ b.toNat = 0) ∧
    (v - 5 / 8 ≤ b.toNat ∨ b.toNat = 255) := by
  obtain ⟨hlow, hhigh⟩ := abs_le.mp h
  have hnear := abs_le.mp (f32_near (x := v + 1 / 2) (b := 1001)
    (abs_le.mpr ⟨by linarith, by linarith⟩) (by norm_num))
  rcases lt_or_ge (fadd v (1 / 2)) 0 with hneg | hnonneg
  · have hceil : ⌈fadd v (1 / 2)⌉ ≤ 0 := Int.ceil_le.mpr (by exact_mod_cast hneg.le)
    obtain ⟨n, hn⟩ := toCInt_total (x := fadd v (1 / 2)) (abs_le.mpr (by
      unfold fadd at *
      constructor <;> linarith))
    have hn' : n = ⌈fadd v (1 / 2)⌉ := by
      rw [toCInt, if_neg hneg.not_ge] at hn
      split_ifs at hn
      exact (Outcome.ok.inj hn).symm
    refine ⟨0, ?_, .inr rfl, .inl ?_⟩
    · rw [toByte, hn, Outcome.bind_eq_bind, Outcome.ok_bind]
      rcases lt_or_eq_of_le (hn' ▸ hceil) with hlt | heq
      · rw [if_pos hlt]
        rfl
      · rw [heq]
        rfl
    · unfold fadd at hneg
      norm_num
      linarith
  · have hle := Int.floor_le (fadd v (1 / 2))
    have hlt := Int.lt_floor_add_one (fadd v (1 / 2))
    have hupper : fadd v (1 / 2) < 2 ^ 31 := by
      unfold fadd
      linarith
    obtain ⟨n, hn⟩ := Int.eq_ofNat_of_zero_le (Int.floor_nonneg.mpr hnonneg)
    rw [hn] at hle hlt
    push_cast at hle hlt
    unfold fadd at hle hlt
    have hconv : toByte v = .ok (BitVec.ofNat 8 (if 255 < n then 255 else n)) := by
      rw [toByte, toCInt_of_nonneg hnonneg hupper, hn, Outcome.bind_eq_bind, Outcome.ok_bind,
        if_neg (by omega)]
      have hcut : (if (255 : ℤ) < n then 255 else (n : ℤ).toNat) = if 255 < n then 255 else n := by
        split_ifs <;> omega
      rw [hcut]
      rfl
    refine ⟨_, hconv, ?_⟩
    by_cases hbig : 255 < n
    · rw [if_pos hbig]
      have hbig' : (255 : ℚ) < n := by exact_mod_cast hbig
      refine ⟨.inl ?_, .inr rfl⟩
      norm_num
      linarith
    · rw [if_neg hbig, BitVec.toNat_ofNat, Nat.mod_eq_of_lt (by omega)]
      exact ⟨.inl (by linarith), .inl (by linarith)⟩

section Pixel

variable {V : Nat → Byte} {w h y x : Nat} {mag : ℚ}

/-- The correction is cut to the luma around, give or take the clamp and the rounding. -/
theorem sharpenChannel_spec {st : LumaStats} {e : ℚ} {p c : Nat} (hmn : 0 ≤ st.mn)
    (hle : st.mn ≤ st.mx) (hmx : st.mx ≤ 256) (hpc : p + c < w * h * 4) :
    ∃ b : Byte, (∀ d : Buffer, w * h * 4 ≤ d.size →
      sharpenChannel st e p c (d.paint V (w * h * 4)) =
        .ok (d.paint (Function.update V (p + c) b) (w * h * 4))) ∧
      st.mn - 13 ≤ b.toNat ∧ b.toNat ≤ st.mx + 13 := by
  have hlo := abs_le.mp (f32_near (x := st.mn - 12) (b := 256)
    (abs_le.mpr ⟨by linarith, by linarith⟩) (by norm_num))
  have hhi := abs_le.mp (f32_near (x := st.mx + 12) (b := 512)
    (abs_le.mpr ⟨by linarith, by linarith⟩) (by norm_num))
  generalize hv : fadd (f32 (V (p + c)).toNat) e = v
  generalize hlo' : fsub st.mn 12 = lo
  generalize hhi' : fadd st.mx 12 = hi
  rw [← fsub, hlo'] at hlo
  rw [← fadd, hhi'] at hhi
  obtain ⟨u, hu⟩ : ∃ u, u = if hi < (if v < lo then lo else v) then hi
    else (if v < lo then lo else v) := ⟨_, rfl⟩
  have hu₀ : lo ≤ u ∧ u ≤ hi := by
    rw [hu]
    split_ifs <;> constructor <;> linarith
  obtain ⟨b, hb, hupper, hlower⟩ := toByte_near (v := u) (abs_le.mpr ⟨by linarith, by linarith⟩)
  refine ⟨b, fun d hd => ?_, ?_, ?_⟩
  · rw [sharpenChannel, Buffer.read_paint hpc hd, Outcome.bind_eq_bind, Outcome.ok_bind, hv, hlo',
      hhi']
    dsimp only
    rw [← hu, hb]
    exact Buffer.write_paint hpc hd b
  · rcases hlower with hb | hb
    · linarith
    · rw [hb]
      norm_num
      linarith
  · rcases hupper with hb | hb
    · linarith
    · rw [hb]
      norm_num
      linarith

/-- The luma around a pixel differs by hardly two. -/
def Flat (V : Nat → Byte) (w h y x : Nat) : Prop :=
  ∀ yy xx, Near w h y x yy xx → ∀ yy' xx', Near w h y x yy' xx' →
    lumaPixel V (yy * w + xx) ≤ lumaPixel V (yy' * w + xx') + 127 / 64

/-- The colours of a pixel in `V` are near the luma around it in `U`. -/
def Cut (U V : Nat → Byte) (w h y x : Nat) : Prop :=
  ∃ yy xx yy' xx', Near w h y x yy xx ∧ Near w h y x yy' xx' ∧ ∀ c < 3,
    lumaPixel U (yy * w + xx) - 13 ≤ (V ((y * w + x) * 4 + c)).toNat ∧
      (V ((y * w + x) * 4 + c)).toNat ≤ lumaPixel U (yy' * w + xx') + 13

section Detail

variable {st : LumaStats} (hst : st.Of V w y x (Near w h y x)) (hn₁ : 1 ≤ st.n) (hn₉ : st.n ≤ 9)
include hst hn₁ hn₉

theorem LumaStats.Of.extremes : (∃ yy xx, Near w h y x yy xx ∧ st.mn = lumaPixel V (yy * w + xx)) ∧
    ∃ yy xx, Near w h y x yy xx ∧ st.mx = lumaPixel V (yy * w + xx) := by
  constructor
  · rcases hst.mn_mem with ⟨hzero, -⟩ | h
    · omega
    · exact h
  · rcases hst.mx_mem with ⟨hzero, -⟩ | h
    · omega
    · exact h

/-- The detail of a pixel is about within the spread of the luma around it. -/
theorem LumaStats.Of.detail_le {a b L : ℚ} (ha : 0 ≤ a) (hb : b ≤ 256) (hL : a ≤ L ∧ L ≤ b)
    (hrange : ∀ yy xx, Near w h y x yy xx → a ≤ lumaPixel V (yy * w + xx) ∧
      lumaPixel V (yy * w + xx) ≤ b) :
    |fsub L (fdiv st.sum (f32 st.n))| ≤ b - a + 1 / 1024 := by
  obtain ⟨hlow, hhigh⟩ := hst.sum_mem a b ha hb hrange
  have hn : (0 : ℚ) < st.n := by exact_mod_cast hn₁
  rw [f32_natCast (by omega)]
  have hmean : a - 1 / 2 ^ 11 ≤ st.sum / st.n ∧ st.sum / st.n ≤ b + 1 / 2 ^ 11 := by
    rw [le_div_iff₀ hn, div_le_iff₀ hn]
    constructor <;> linarith
  have hdiv :=
    abs_le.mp (f32_near (x := st.sum / st.n) (b := 257) (abs_le.mpr ⟨by linarith, by linarith⟩)
    (by norm_num))
  rw [← fdiv] at hdiv
  have hsub := abs_le.mp (f32_near (x := L - fdiv st.sum st.n) (b := 600)
    (abs_le.mpr ⟨by linarith, by linarith⟩) (by norm_num))
  rw [← fsub] at hsub
  rw [abs_le]
  constructor <;> linarith

end Detail

/-- One pixel: its alpha and all other pixels stay, and so does it where its neighbourhood is
flat. -/
theorem sharpenPixel_spec (mag : ℚ) (V : Nat → Byte) (hy : y < h) (hx : x < w) :
    ∃ V', (∀ d : Buffer, w * h * 4 ≤ d.size →
        sharpenPixel mag w h y x (d.paint V (w * h * 4)) = .ok (d.paint V' (w * h * 4))) ∧
      (∀ j, (∀ c < 3, j ≠ (y * w + x) * 4 + c) → V' j = V j) ∧ (V' = V ∨ Cut V V' w h y x) ∧
      (Flat V w h y x → V' = V) := by
  obtain ⟨st, hstats, hst, hn₁, hn₉⟩ := lumaStats_spec V hy hx
  obtain ⟨⟨ym, xm, hm, hmn⟩, yM, xM, hM, hmx⟩ := hst.extremes hn₁ hn₉
  have hself := near_self hy hx
  have hluma {q : Nat} := bradsenseLuma_mem (V (q * 4)) (V (q * 4 + 1)) (V (q * 4 + 2))
  have hmn₀ : 0 ≤ st.mn := hmn ▸ hluma.1
  have hmx₁ : st.mx ≤ 256 := hmx ▸ hluma.2
  have hle : st.mn ≤ st.mx := (hst.mn_le y x hself).trans (hst.le_mx y x hself)
  generalize hdetail : fsub (lumaPixel V (y * w + x)) (fdiv st.sum (f32 st.n)) = detail
  have hpixel (d : Buffer) (hd : w * h * 4 ≤ d.size) :
      sharpenPixel mag w h y x (d.paint V (w * h * 4)) =
      if detail < -2 ∨ 2 < detail then
        Outcome.forRange 3 (fun c img => sharpenChannel st (fmul mag detail)
          ((y * w + x) * 4) c img) (d.paint V (w * h * 4))
      else .ok (d.paint V (w * h * 4)) := by
    rw [sharpenPixel, hstats d hd, Outcome.bind_eq_bind, Outcome.ok_bind, hst.center hself]
    dsimp only
    rw [lumaAt_paint (channel_lt hy hx (by decide)) hd, Outcome.bind_eq_bind, Outcome.ok_bind,
      hdetail]
  by_cases hgate : detail < -2 ∨ 2 < detail
  · have hchannels : ∃ V', (∀ d : Buffer, w * h * 4 ≤ d.size → Outcome.forRange 3
          (fun c img => sharpenChannel st (fmul mag detail) ((y * w + x) * 4) c img)
            (d.paint V (w * h * 4)) =
            .ok (d.paint V' (w * h * 4))) ∧
        (∀ j, (∀ c < 3, j ≠ (y * w + x) * 4 + c) → V' j = V j) ∧ ∀ c < 3,
          st.mn - 13 ≤ (V' ((y * w + x) * 4 + c)).toNat ∧
            ((V' ((y * w + x) * 4 + c)).toNat : ℚ) ≤ st.mx + 13 := by
      refine Outcome.forRange_family (S := fun _ V d => d.paint V (w * h * 4))
        (D := fun d : Buffer => w * h * 4 ≤ d.size)
        (I := fun k V' => (∀ j, (∀ c < 3, j ≠ (y * w + x) * 4 + c) → V' j = V j) ∧ ∀ c < k,
          st.mn - 13 ≤ (V' ((y * w + x) * 4 + c)).toNat ∧
            ((V' ((y * w + x) * 4 + c)).toNat : ℚ) ≤ st.mx + 13)
        ⟨fun _ _ => rfl, fun c hc => absurd hc (Nat.not_lt_zero c)⟩ ?_
      rintro c V' ⟨hrest, hcut⟩
      obtain ⟨b, hrun, hb⟩ := sharpenChannel_spec (V := V') (e := fmul mag detail) hmn₀ hle hmx₁
        (channel_lt hy hx (c.isLt.trans (by decide)))
      refine ⟨_, hrun, fun j hj => ?_, fun c' hc' => ?_⟩
      · rw [Function.update_of_ne (hj c c.isLt)]
        exact hrest j hj
      · rcases Nat.lt_succ_iff_lt_or_eq.mp hc' with hlt | rfl
        · rw [Function.update_of_ne (by omega)]
          exact hcut c' hlt
        · rw [Function.update_self]
          exact hb
    obtain ⟨V', hrun, hrest, hcut⟩ := hchannels
    refine ⟨V', fun d hd => ?_, hrest, .inr ⟨ym, xm, yM, xM, hm, hM, ?_⟩, fun hflat => ?_⟩
    · rw [hpixel d hd, if_pos hgate]
      exact hrun d hd
    · rw [← hmn, ← hmx]
      exact hcut
    · exfalso
      have hspread : st.mx ≤ st.mn + 127 / 64 := by
        rw [hmn, hmx]
        exact hflat _ _ hM _ _ hm
      have hsmall :=
        abs_le.mp (hst.detail_le hn₁ hn₉ hmn₀ hmx₁ ⟨hst.mn_le y x hself, hst.le_mx y x hself⟩
        fun yy xx hnear => ⟨hst.mn_le yy xx hnear, hst.le_mx yy xx hnear⟩)
      rw [hdetail] at hsmall
      rcases hgate with h | h <;> linarith
  · refine ⟨V, fun d hd => ?_, fun _ _ => rfl, .inl rfl, fun _ => rfl⟩
    rw [hpixel d hd, if_neg hgate]

end Pixel

/-! ### The pass -/

/-- The frame when the pixels before the `k`-th are as in `V` and the others as in `U`. -/
def midway (U V : Nat → Byte) (k : Nat) : Nat → Byte := fun j => if j < k * 4 then V j else U j

/-- What the pass has made of `U` after `k` pixels: `V`, where every pixel dealt with is as it was
or cut to the luma around it, as the frame was when its turn came. -/
structure Sharpened (U V : Nat → Byte) (w h k : Nat) : Prop where
  rest : ∀ j, k * 4 ≤ j → V j = U j
  alpha : ∀ q, V (q * 4 + 3) = U (q * 4 + 3)
  cut : ∀ y < h, ∀ x < w, y * w + x < k →
    (∀ c < 3, V ((y * w + x) * 4 + c) = U ((y * w + x) * 4 + c)) ∨
    Cut (midway U V (y * w + x)) V w h y x
  flat : ∀ y < h, ∀ x < w, y * w + x < k → Flat (midway U V (y * w + x)) w h y x →
    ∀ c < 3, V ((y * w + x) * 4 + c) = U ((y * w + x) * 4 + c)

section Pass

variable {U V V' : Nat → Byte} {w h k y x : Nat} {mag : ℚ}

theorem Sharpened.refl (U : Nat → Byte) (w h k : Nat) : Sharpened U U w h k where
  rest _ _ := rfl
  alpha _ := rfl
  cut _ _ _ _ _ := .inl fun _ _ => rfl
  flat _ _ _ _ _ _ _ _ := rfl

theorem midway_eq (h : ∀ j, k * 4 ≤ j → V j = U j) : midway U V k = V := by
  funext j
  unfold midway
  split_ifs with hj
  · rfl
  · exact (h j (not_lt.mp hj)).symm

theorem midway_congr (h : ∀ j < k * 4, V' j = V j) : midway U V' k = midway U V k := by
  funext j
  unfold midway
  split_ifs with hj
  · exact h j hj
  · rfl

theorem Cut.congr {W : Nat → Byte} (hcut : Cut W V w h y x)
    (heq : ∀ c < 3, V' ((y * w + x) * 4 + c) = V ((y * w + x) * 4 + c)) : Cut W V' w h y x := by
  obtain ⟨ym, xm, yM, xM, hm, hM, hrange⟩ := hcut
  refine ⟨ym, xm, yM, xM, hm, hM, fun c hc => ?_⟩
  rw [heq c hc]
  exact hrange c hc

/-- One pixel more. -/
theorem Sharpened.step (hV : Sharpened U V w h (y * w + x)) (hx : x < w)
    (hrest : ∀ j, (∀ c < 3, j ≠ (y * w + x) * 4 + c) → V' j = V j)
    (hcut : V' = V ∨ Cut V V' w h y x)
    (hflat : Flat V w h y x → V' = V) : Sharpened U V' w h (y * w + x + 1) := by
  have hmid : midway U V (y * w + x) = V := midway_eq hV.rest
  have hbefore {k : Nat} (hk : k ≤ y * w + x) : midway U V' k = midway U V k :=
    midway_congr fun j hj => hrest j fun c _ => by omega
  have hold {y₀ x₀ c : Nat} (hlt : y₀ * w + x₀ < y * w + x) (hc : c < 3) :
      V' ((y₀ * w + x₀) * 4 + c) = V ((y₀ * w + x₀) * 4 + c) := hrest _ fun c' _ => by omega
  have hnow {c : Nat} (hc : c < 3) : V ((y * w + x) * 4 + c) = U ((y * w + x) * 4 + c) :=
    hV.rest _ (by omega)
  have hsame {y₀ x₀ : Nat} (hx₀ : x₀ < w) (heq : y₀ * w + x₀ = y * w + x) : y₀ = y ∧ x₀ = x := by
    have hplace : (y₀ * w + x₀) * 4 + 0 = (y * w + x) * 4 + 0 := by rw [heq]
    obtain ⟨rfl, rfl, -⟩ := channel_inj hx₀ (by decide) hx (by decide) hplace
    exact ⟨rfl, rfl⟩
  constructor
  · intro j hj
    rw [hrest j fun c hc => by omega]
    exact hV.rest j (by omega)
  · intro q
    rw [hrest _ fun c hc => by omega]
    exact hV.alpha q
  · intro y₀ hy₀ x₀ hx₀ hlt
    rcases Nat.lt_succ_iff_lt_or_eq.mp hlt with hlt | heq
    · rw [hbefore hlt.le]
      rcases hV.cut y₀ hy₀ x₀ hx₀ hlt with hkept | hcut₀
      · exact .inl fun c hc => (hold hlt hc).trans (hkept c hc)
      · exact .inr (hcut₀.congr fun c hc => hold hlt hc)
    · obtain ⟨rfl, rfl⟩ := hsame hx₀ heq
      rw [hbefore le_rfl, hmid]
      rcases hcut with rfl | hcut
      · exact .inl fun c hc => hnow hc
      · exact .inr hcut
  · intro y₀ hy₀ x₀ hx₀ hlt hflat₀ c hc
    rcases Nat.lt_succ_iff_lt_or_eq.mp hlt with hlt | heq
    · rw [hbefore hlt.le] at hflat₀
      rw [hold hlt hc]
      exact hV.flat y₀ hy₀ x₀ hx₀ hlt hflat₀ c hc
    · obtain ⟨rfl, rfl⟩ := hsame hx₀ heq
      rw [hbefore le_rfl, hmid] at hflat₀
      rw [hflat hflat₀]
      exact hnow hc

/-- **The pass.** It ends whatever the gain, and the frame alone decides how. -/
theorem bradsenseSharpen_spec (U : Nat → Byte) (w h : Nat) (mag : ℚ) :
    ∃ V, (∀ d : Buffer, w * h * 4 ≤ d.size →
        bradsenseSharpen w h mag (d.paint U (w * h * 4)) = .ok (d.paint V (w * h * 4))) ∧
      Sharpened U V w h (w * h) := by
  by_cases hoff : w < 3 ∨ h < 3 ∨ mag ≤ 0
  · exact ⟨U, fun d _ => if_pos hoff, Sharpened.refl U w h _⟩
  generalize hgain : (if 3 / 2 < mag then 3 / 2 else mag) = gain
  have hrow {y : Nat} (hy : y < h) {V : Nat → Byte} (hV : Sharpened U V w h (y * w)) :
      ∃ V', (∀ d : Buffer, w * h * 4 ≤ d.size →
        Outcome.forRange w (fun x img => sharpenPixel gain w h y x img)
          (d.paint V (w * h * 4)) = .ok (d.paint V' (w * h * 4))) ∧
            Sharpened U V' w h (y * w + w) := by
    refine Outcome.forRange_family (S := fun _ V d => d.paint V (w * h * 4))
      (D := fun d : Buffer => w * h * 4 ≤ d.size)
      (I := fun x V => Sharpened U V w h (y * w + x)) hV ?_
    intro x V hV
    obtain ⟨V', hrun, hrest, hcut, hflat⟩ := sharpenPixel_spec gain V hy x.isLt
    exact ⟨V', hrun, hV.step x.isLt hrest hcut hflat⟩
  have hloop : ∃ V, (∀ d : Buffer, w * h * 4 ≤ d.size →
      bradsenseSharpen w h mag (d.paint U (w * h * 4)) = .ok (d.paint V (w * h * 4))) ∧
      Sharpened U V w h (h * w) := by
    simp only [bradsenseSharpen, if_neg hoff, hgain]
    refine Outcome.forRange_family (S := fun _ V d => d.paint V (w * h * 4))
      (D := fun d : Buffer => w * h * 4 ≤ d.size)
      (I := fun y V => Sharpened U V w h (y * w)) (Sharpened.refl U w h _) ?_
    intro y V hV
    obtain ⟨V', hrun, hV'⟩ := hrow y.isLt hV
    exact ⟨V', hrun, by rwa [Nat.succ_mul]⟩
  obtain ⟨V, hrun, hV⟩ := hloop
  exact ⟨V, hrun, by rwa [mul_comm w h]⟩

/-- A frame that is flat everywhere stays as it is. -/
theorem Sharpened.eq_of_flat (hV : Sharpened U V w h (w * h))
    (hflat : ∀ y < h, ∀ x < w, Flat U w h y x) : V = U := by
  have hprefix (k : Nat) (hk : k ≤ w * h) : ∀ j < k * 4, V j = U j := by
    induction k with
    | zero =>
        intro j hj
        omega
    | succ k ih =>
        intro j hj
        have hw : 0 < w := Nat.pos_of_ne_zero fun hzero => by
          rw [hzero, zero_mul] at hk
          omega
        rcases Nat.lt_or_ge j (k * 4) with hlt | hge
        · exact ih (by omega) j hlt
        · obtain ⟨c, hc, rfl⟩ : ∃ c < 4, j = k * 4 + c := ⟨j - k * 4, by omega, by omega⟩
          rcases Nat.lt_or_ge c 3 with hcolour | halpha
          · have hy : k / w < h := Nat.div_lt_of_lt_mul (by omega)
            have hx : k % w < w := Nat.mod_lt _ hw
            have hk' : k / w * w + k % w = k := Nat.div_add_mod' k w
            have hmid : midway U V k = U := by
              rw [midway_congr (ih (by omega)), midway_eq fun _ _ => rfl]
            have hkept := hV.flat _ hy _ hx (by rw [hk']; omega)
            rw [hk', hmid] at hkept
            exact hkept (hflat _ hy _ hx) c hcolour
          · obtain rfl : c = 3 := by omega
            exact hV.alpha k
  funext j
  rcases Nat.lt_or_ge j (w * h * 4) with hlt | hge
  · exact hprefix (w * h) le_rfl j hlt
  · exact hV.rest j hge

end Pass

end BradVector.Sense
