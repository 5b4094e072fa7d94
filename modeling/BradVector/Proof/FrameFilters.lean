import BradVector.Library.Reordering
import BradVector.Proof.SenseNumbers

/-!
# The filters over a frame

A filter fills the frame byte by byte, whatever was in the buffer before. What the numbers of one
channel of one pixel come to holds therefore of the whole frame.
-/

namespace BradVector.Sense

open CSem

/-! ### Frames -/

/-- The buffer with the first `k` bytes of `V` in it. -/
def Buffer.paint (b : Buffer) (V : Nat → Byte) (k : Nat) : Buffer :=
  { b with bytes := fun i => if i < k then V i else b.bytes i }

section Paint

variable {b : Buffer} {V : Nat → Byte} {k i : Nat}

@[simp]
theorem Buffer.paint_size : (b.paint V k).size = b.size := rfl

theorem Buffer.paint_zero : b.paint V 0 = b := by
  have hbytes : (fun i => if i < 0 then V i else b.bytes i) = b.bytes := by
    funext i
    rw [if_neg (Nat.not_lt_zero i)]
  rw [paint, hbytes]

theorem Buffer.paint_bytes (h : i < k) : (b.paint V k).bytes i = V i := if_pos h

theorem Buffer.read_paint (h : i < k) (hsize : k ≤ b.size) : (b.paint V k).read i = .ok (V i) := by
  rw [read, if_pos (by exact h.trans_le hsize), paint_bytes h]

/-- A byte written behind the painted ones. -/
theorem Buffer.write_paint_succ (h : k < b.size) (v : Byte) :
    (b.paint V k).write k v = .ok (b.paint (Function.update V k v) (k + 1)) := by
  have hbytes : Function.update (b.paint V k).bytes k v =
      fun i => if i < k + 1 then Function.update V k v i else b.bytes i := by
    funext i
    rcases Nat.lt_trichotomy i k with hlt | rfl | hgt
    · rw [Function.update_of_ne hlt.ne, Function.update_of_ne hlt.ne, if_pos (by omega),
        paint_bytes hlt]
    · rw [Function.update_self, Function.update_self, if_pos (by omega)]
    · rw [Function.update_of_ne hgt.ne', if_neg (by omega)]
      exact if_neg (by omega)
  rw [write, if_pos (by exact h), hbytes]
  rfl

/-- A byte written over a painted one. -/
theorem Buffer.write_paint (h : i < k) (hsize : k ≤ b.size) (v : Byte) :
    (b.paint V k).write i v = .ok (b.paint (Function.update V i v) k) := by
  have hbytes : Function.update (b.paint V k).bytes i v =
      fun j => if j < k then Function.update V i v j else b.bytes j := by
    funext j
    rcases eq_or_ne j i with rfl | hne
    · rw [Function.update_self, Function.update_self, if_pos h]
    · rw [Function.update_of_ne hne, Function.update_of_ne hne]
      rfl
  rw [write, if_pos (by exact h.trans_le hsize), hbytes]
  rfl

end Paint

theorem channel_lt {w h y x c : Nat} (hy : y < h) (hx : x < w) (hc : c < 4) :
    (y * w + x) * 4 + c < w * h * 4 := by
  have hpixel : y * w + x < w * h := by
    calc y * w + x < y * w + w := Nat.add_lt_add_left hx _
      _ = (y + 1) * w := by rw [Nat.succ_mul]
      _ ≤ h * w := Nat.mul_le_mul_right w hy
      _ = w * h := mul_comm _ _
  omega

theorem channel_inj {w y x c y' x' c' : Nat} (hx : x < w) (hc : c < 4) (hx' : x' < w) (hc' : c' < 4)
    (h : (y * w + x) * 4 + c = (y' * w + x') * 4 + c') : y = y' ∧ x = x' ∧ c = c' := by
  have hpixel : y * w + x = y' * w + x' := by omega
  have hdiv (a b : Nat) (hb : b < w) : (a * w + b) / w = a := by
    rw [Nat.mul_comm, Nat.mul_add_div (by omega), Nat.div_eq_of_lt hb, Nat.add_zero]
  have hy : y = y' := by rw [← hdiv y x hx, hpixel, hdiv y' x' hx']
  subst hy
  omega

section Fill

variable {α : Type} {axis : Nat → Nat → Nat → PixelOutcome α}
  {channel : Buffer → Nat → α → α → Nat → PixelOutcome Byte} {src : Buffer} {sw sh dw dh : Nat}
  {P R : Nat → α → Prop} {Q : Nat → Byte → Prop} {V : Nat → Byte}

/-- The channels of the `p`-th pixel. -/
theorem fillPixel_ok {ty tx : α} {n p : Nat} (hp : p * 4 + 4 ≤ n) (hV : ∀ j < p * 4, Q j (V j))
    (hchannel : ∀ c < 4, ∃ b, channel src sw ty tx c = .ok b ∧ Q (p * 4 + c) b) :
    ∃ V', (∀ dst : Buffer, n ≤ dst.size → Outcome.forRange 4 (fun c dst => do
        let v ← channel src sw ty tx c
        dst.write (p * 4 + c) v) (dst.paint V (p * 4)) = .ok (dst.paint V' (p * 4 + 4))) ∧
      ∀ j < p * 4 + 4, Q j (V' j) := by
  refine Outcome.forRange_family (S := fun k V dst => dst.paint V (p * 4 + k))
    (D := fun dst : Buffer => n ≤ dst.size) (I := fun k V => ∀ j < p * 4 + k, Q j (V j)) hV ?_
  intro c V hV
  obtain ⟨b, hb, hQ⟩ := hchannel c c.isLt
  refine ⟨Function.update V (p * 4 + c) b, fun dst hdst => ?_, fun j hj => ?_⟩
  · rw [hb, Outcome.bind_eq_bind, Outcome.ok_bind]
    have hc := c.isLt
    exact Buffer.write_paint_succ (by omega) b
  · rcases eq_or_ne j (p * 4 + c) with rfl | hne
    · rw [Function.update_self]
      exact hQ
    · rw [Function.update_of_ne hne]
      exact hV j (by omega)

/-- The pixels of a row. -/
theorem fillRow_ok {ty : α} {dy : Nat} (hdy : dy < dh) (hV : ∀ j < dy * dw * 4, Q j (V j))
    (hx : ∀ k < dw, ∃ t, axis sw dw k = .ok t ∧ R k t)
    (hchannel : ∀ dx < dw, ∀ c < 4, ∀ tx, R dx tx →
      ∃ b, channel src sw ty tx c = .ok b ∧ Q ((dy * dw + dx) * 4 + c) b) :
    ∃ V', (∀ dst : Buffer, dw * dh * 4 ≤ dst.size → Outcome.forRange dw (fun dx dst => do
        let tx ← axis sw dw dx
        Outcome.forRange 4 (fun c dst => do
          let v ← channel src sw ty tx c
          dst.write ((dy * dw + dx) * 4 + c) v) dst) (dst.paint V (dy * dw * 4)) =
            .ok (dst.paint V' ((dy * dw + dw) * 4))) ∧
      ∀ j < (dy * dw + dw) * 4, Q j (V' j) := by
  refine Outcome.forRange_family (S := fun k V dst => dst.paint V ((dy * dw + k) * 4))
    (D := fun dst : Buffer => dw * dh * 4 ≤ dst.size) (I := fun k V => ∀ j < (dy * dw + k) * 4,
      Q j (V j)) hV ?_
  intro dx V hV
  obtain ⟨tx, htx, hR⟩ := hx dx dx.isLt
  have hlast := channel_lt hdy dx.isLt (by decide : 3 < 4)
  obtain ⟨V', hrun, hV'⟩ := fillPixel_ok (n := dw * dh * 4) (by omega) hV fun c hc =>
    hchannel dx dx.isLt c hc tx hR
  refine ⟨V', fun dst hdst => ?_, fun j hj => hV' j (by omega)⟩
  rw [htx, Outcome.bind_eq_bind, Outcome.ok_bind, ← add_assoc, Nat.succ_mul]
  exact hrun dst hdst

/-- **The filters' loops.** Where every pixel has its taps and every channel its byte, the frame is
filled with these bytes. -/
theorem resample_ok (hy : ∀ k < dh, ∃ t, axis sh dh k = .ok t ∧ P k t)
    (hx : ∀ k < dw, ∃ t, axis sw dw k = .ok t ∧ R k t)
    (hchannel : ∀ dy < dh, ∀ dx < dw, ∀ c < 4, ∀ ty tx, P dy ty → R dx tx →
      ∃ b, channel src sw ty tx c = .ok b ∧ Q ((dy * dw + dx) * 4 + c) b) :
    ∃ V, (∀ dst : Buffer, dw * dh * 4 ≤ dst.size →
        resample axis channel src sw sh dw dh dst = .ok (dst.paint V (dw * dh * 4))) ∧
      ∀ j < dw * dh * 4, Q j (V j) := by
  have hrows : ∃ V, (∀ dst : Buffer, dw * dh * 4 ≤ dst.size →
      resample axis channel src sw sh dw dh (dst.paint (fun _ => 0) (0 * dw * 4)) =
        .ok (dst.paint V (dh * dw * 4))) ∧
      ∀ j < dh * dw * 4, Q j (V j) := by
    refine Outcome.forRange_family (S := fun k V dst => dst.paint V (k * dw * 4))
      (D := fun dst : Buffer => dw * dh * 4 ≤ dst.size)
      (I := fun k V => ∀ j < k * dw * 4, Q j (V j))
      (fun j hj => by omega) ?_
    intro dy V hV
    obtain ⟨ty, hty, hP⟩ := hy dy dy.isLt
    obtain ⟨V', hrun, hV'⟩ := fillRow_ok dy.isLt hV hx fun dx hdx c hc tx hR =>
      hchannel dy dy.isLt dx hdx c hc ty tx hP hR
    refine ⟨V', fun dst hdst => ?_, fun j hj => hV' j (by rwa [← Nat.succ_mul])⟩
    rw [hty, Outcome.bind_eq_bind, Outcome.ok_bind, Nat.succ_mul]
    exact hrun dst hdst
  obtain ⟨V, hrun, hV⟩ := hrows
  refine ⟨V, fun dst hdst => ?_, fun j hj => hV j (by rwa [mul_comm dh dw])⟩
  have hstart := hrun dst hdst
  rw [zero_mul, zero_mul, Buffer.paint_zero, mul_comm dh dw] at hstart
  exact hstart

end Fill

/-! ### Channels -/

/-- A frame that may be read. -/
structure Source (src : Buffer) (sw sh : Nat) : Prop where
  one_le_w : 1 ≤ sw
  one_le_h : 1 ≤ sh
  w_le : sw ≤ framesMax
  h_le : sh ≤ framesMax
  size_le : sw * sh * 4 ≤ src.size

/-- What a filter makes of a channel of the pixel at `dx`, `dy`: where the pixel lies over one of
the source it is copied, where the channel is the same everywhere it is kept, and the linear filter
stays within its range. -/
structure Resampled (filter : Filter) (src : Buffer) (sw sh dw dh dy dx c : Nat) (b : Byte) :
    Prop where
  copied : ∀ iy ix, Over sh dh dy iy → Over sw dw dx ix → b = src.bytes ((iy * sw + ix) * 4 + c)
  kept : ∀ v, (∀ y < sh, ∀ x < sw, src.bytes ((y * sw + x) * 4 + c) = v) → b = v
  within : filter = .bilinear → ∀ m k : Nat,
    (∀ y < sh, ∀ x < sw, m ≤ (src.bytes ((y * sw + x) * 4 + c)).toNat ∧
    (src.bytes ((y * sw + x) * 4 + c)).toNat ≤ k) → m ≤ b.toNat ∧ b.toNat ≤ k

section Channel

variable {src : Buffer} {sw sh dw dh dy dx c : Nat}

/-- The number a byte of a channel stands for. -/
def Buffer.channel (src : Buffer) (sw c y x : Nat) : ℚ := (src.bytes ((y * sw + x) * 4 + c)).toNat

theorem Buffer.channel_mem (src : Buffer) (sw c y x : Nat) : 0 ≤ src.channel sw c y x ∧
    src.channel sw c y x ≤ 255 := by
  have h : (src.bytes ((y * sw + x) * 4 + c)).toNat ≤ 255 := by omega
  exact ⟨Nat.cast_nonneg _, by
    unfold channel
    exact_mod_cast h⟩

theorem bradsenseChannel_ok (hsrc : Source src sw sh) {x y : Nat} (hx : x < sw) (hy : y < sh)
    (hc : c < 4) :
    bradsenseChannel src sw x y c = .ok (src.channel sw c y x) := by
  have hread : src.read ((y * sw + x) * 4 + c) = .ok (src.bytes ((y * sw + x) * 4 + c)) :=
    if_pos ((channel_lt hy hx hc).trans_le hsrc.size_le)
  have hbyte : (src.bytes ((y * sw + x) * 4 + c)).toNat < 2 ^ 24 := by omega
  rw [bradsenseChannel, hread, Outcome.bind_eq_bind, Outcome.ok_bind, f32_natCast hbyte]
  rfl

section Bilinear

variable {ty tx : LinearTaps} {p : Nat → Nat → ℚ} {m M : ℚ}

/-- The value of a channel, before it becomes a byte. -/
def bilinearValue (p : Nat → Nat → ℚ) (ty tx : LinearTaps) : ℚ :=
  lerp (lerp (p ty.lo tx.lo) (p ty.lo tx.hi) tx.frac)
    (lerp (p ty.hi tx.lo) (p ty.hi tx.hi) tx.frac) ty.frac

theorem bilinearChannel_eq (hsrc : Source src sw sh) (hty : ty.At sh dh dy) (htx : tx.At sw dw dx)
    (hc : c < 4) :
    bilinearChannel src sw ty tx c = toByte (bilinearValue (src.channel sw c) ty tx) := by
  rw [bilinearChannel, bradsenseChannel_ok hsrc htx.lo_lt hty.lo_lt hc,
    bradsenseChannel_ok hsrc htx.hi_lt hty.lo_lt hc,
    bradsenseChannel_ok hsrc htx.lo_lt hty.hi_lt hc,
    bradsenseChannel_ok hsrc htx.hi_lt hty.hi_lt hc]
  rfl

theorem bilinearValue_mem (hty : ty.At sh dh dy) (htx : tx.At sw dw dx) (hm : 0 ≤ m) (hM : M ≤ 255)
    (hp : ∀ y < sh, ∀ x < sw, m ≤ p y x ∧ p y x ≤ M) :
    m - 1 / 2 ^ 11 ≤ bilinearValue p ty tx ∧ bilinearValue p ty tx ≤ M + 1 / 2 ^ 11 := by
  have hrow {y : Nat} (hy : y < sh) := lerp_mem (by linarith) (by linarith) (hp y hy _ htx.lo_lt)
    (hp y hy _ htx.hi_lt) htx.frac_nonneg htx.frac_le_one
  have hvalue :=
    lerp_mem (by linarith) (by linarith) (hrow hty.lo_lt) (hrow hty.hi_lt) hty.frac_nonneg
    hty.frac_le_one
  unfold bilinearValue
  constructor <;> linarith

theorem bilinearValue_over (hty : ty.At sh dh dy) (htx : tx.At sw dw dx)
    (hp : ∀ y < sh, ∀ x < sw, 0 ≤ p y x ∧ p y x ≤ 255) {iy ix : Nat} (hy : Over sh dh dy iy)
    (hx : Over sw dw dx ix) : |bilinearValue p ty tx - p iy ix| ≤ 499 / 1000 := by
  have hmem {y : Nat} (hy : y < sh) := lerp_mem (by norm_num) (by norm_num) (hp y hy _ htx.lo_lt)
    (hp y hy _ htx.hi_lt) htx.frac_nonneg htx.frac_le_one
  have hrow {y : Nat} (hy : y < sh) : |lerp (p y tx.lo) (p y tx.hi) tx.frac - p y ix| ≤
      255 / 1024 + 1 / 2 ^ 12 := by
    have h :=
      lerp_at (r := p y ix) (by norm_num) (by norm_num) (hp y hy _ htx.lo_lt) (hp y hy _ htx.hi_lt)
      htx.frac_nonneg htx.frac_le_one (by
        rcases htx.atPixel ix hx with ⟨rfl, hf⟩ | ⟨rfl, hf⟩
        · exact .inl ⟨rfl, hf⟩
        · exact .inr ⟨rfl, hf⟩)
    rwa [sub_zero] at h
  obtain ⟨y, hlt, rfl, hcolumn⟩ : ∃ y < sh, y = iy ∧
      |bilinearValue p ty tx - lerp (p y tx.lo) (p y tx.hi) tx.frac|
      ≤ (255 + 1 / 2 ^ 12 - (0 - 1 / 2 ^ 12)) / 1024 + 1 / 2 ^ 12 := by
    have hat {r : ℚ} :=
      lerp_at (r := r) (by norm_num) (by norm_num) (hmem hty.lo_lt) (hmem hty.hi_lt)
      hty.frac_nonneg hty.frac_le_one
    rcases hty.atPixel iy hy with ⟨hlo, hf⟩ | ⟨hhi, hf⟩
    · exact ⟨ty.lo, hty.lo_lt, hlo, hat (.inl ⟨rfl, hf⟩)⟩
    · exact ⟨ty.hi, hty.hi_lt, hhi, hat (.inr ⟨rfl, hf⟩)⟩
  calc |bilinearValue p ty tx - p y ix|
      ≤ |bilinearValue p ty tx - lerp (p y tx.lo) (p y tx.hi) tx.frac|
        + |lerp (p y tx.lo) (p y tx.hi) tx.frac - p y ix| := abs_sub_le _ _ _
    _ ≤ (255 + 1 / 2 ^ 12 - (0 - 1 / 2 ^ 12)) / 1024 + 1 / 2 ^ 12 + (255 / 1024 + 1 / 2 ^ 12) :=
        add_le_add hcolumn (hrow hlt)
    _ ≤ 499 / 1000 := by norm_num

theorem bilinearChannel_spec (hsrc : Source src sw sh) (hty : ty.At sh dh dy) (htx : tx.At sw dw dx)
    (hc : c < 4) :
    ∃ b, bilinearChannel src sw ty tx c = .ok b ∧
      Resampled .bilinear src sw sh dw dh dy dx c b := by
  have hmem (y x : Nat) := src.channel_mem sw c y x
  have hrange {m k : Nat} (hk : k ≤ 255) (h : ∀ y < sh, ∀ x < sw,
      m ≤ (src.bytes ((y * sw + x) * 4 + c)).toNat ∧ (src.bytes ((y * sw + x) * 4 + c)).toNat ≤ k) :
      ∃ b, toByte (bilinearValue (src.channel sw c) ty tx) = .ok b ∧ m ≤ b.toNat ∧ b.toNat ≤ k := by
    have hk' : (k : ℚ) ≤ 255 := by exact_mod_cast hk
    obtain ⟨hlow, hhigh⟩ :=
      bilinearValue_mem (p := src.channel sw c) hty htx (Nat.cast_nonneg m) hk' fun y hy x hx =>
      ⟨Nat.cast_le.mpr (h y hy x hx).1, Nat.cast_le.mpr (h y hy x hx).2⟩
    exact toByte_within hk (by linarith) (by linarith)
  obtain ⟨b, hb, -, -⟩ := hrange (m := 0) (k := 255) le_rfl fun y _ x _ => ⟨Nat.zero_le _, by omega⟩
  have hwithin (m k : Nat) (h : ∀ y < sh, ∀ x < sw,
      m ≤ (src.bytes ((y * sw + x) * 4 + c)).toNat ∧ (src.bytes ((y * sw + x) * 4 + c)).toNat ≤ k) :
      m ≤ b.toNat ∧ b.toNat ≤ k := by
    obtain ⟨b', hb', hlow, hhigh⟩ := hrange (min_le_right k 255) fun y hy x hx =>
      ⟨(h y hy x hx).1, le_min (h y hy x hx).2 (by omega)⟩
    obtain rfl := Outcome.ok.inj (hb.symm.trans hb')
    exact ⟨hlow, hhigh.trans (min_le_left k 255)⟩
  refine ⟨b, (bilinearChannel_eq hsrc hty htx hc).trans hb, ?_, ?_, fun _ => hwithin⟩
  · intro iy ix hy hx
    have heq := toByte_eq (bilinearValue_over hty htx (fun y _ x _ => hmem y x) hy hx)
    exact Outcome.ok.inj (hb.symm.trans heq)
  · intro v hv
    have h := hwithin v.toNat v.toNat fun y hy x hx => by
      rw [hv y hy x hx]
      exact ⟨le_rfl, le_rfl⟩
    exact BitVec.eq_of_toNat_eq (le_antisymm h.2 h.1)

end Bilinear

section Bicubic

variable {ty tx : CubicTaps} {fy fx : ℚ} {p : Nat → Nat → ℚ}

/-- The value of a channel, before it becomes a byte. -/
def bicubicValue (p : Nat → Nat → ℚ) (ty tx : CubicTaps) : ℚ :=
  dot4 ty.weight fun j => dot4 tx.weight fun i => p (ty.tap j) (tx.tap i)

theorem bicubicChannel_eq (hsrc : Source src sw sh) (hty : ty.At sh dh dy fy)
    (htx : tx.At sw dw dx fx) (hc : c < 4) :
    bicubicChannel src sw ty tx c = toByte (bicubicValue (src.channel sw c) ty tx) := by
  have hrow (j : Fin 4) := forRange_dot4 (w := tx.weight) fun i =>
    bradsenseChannel_ok hsrc (htx.tap_lt i) (hty.tap_lt j) hc
  have hcolumn := forRange_dot4 (w := ty.weight) hrow
  rw [bicubicChannel]
  exact congrArg (Outcome.bind · toByte) hcolumn

/-- A moderate value, whatever the taps. -/
theorem abs_bicubicValue_le (hty : ty.At sh dh dy fy) (htx : tx.At sw dw dx fx)
    (hp : ∀ y x, 0 ≤ p y x ∧ p y x ≤ 255) : |bicubicValue p ty tx| ≤ 2 ^ 29 := by
  have hdot {w r : Fin 4 → ℚ} {B : ℚ} (hw : ∀ i, |w i| ≤ 9 / 8) (hr : ∀ i, |r i| ≤ B) (hB : 1 ≤ B) :
      |dot4 w r| ≤ 5 * B := by
    have hexact : |∑ i, w i * r i| ≤ 4 * (9 / 8 * B) := by
      calc |∑ i, w i * r i| ≤ ∑ i, |w i * r i| := Finset.abs_sum_le_sum_abs _ _
        _ ≤ ∑ _i : Fin 4, 9 / 8 * B := by
          refine Finset.sum_le_sum fun i _ => ?_
          rw [abs_mul]
          exact mul_le_mul (hw i) (hr i) (abs_nonneg _) (by norm_num)
        _ = 4 * (9 / 8 * B) := by
          rw [Finset.sum_const, Finset.card_univ, Fintype.card_fin, nsmul_eq_mul]
          norm_num
    calc |dot4 w r| = |(dot4 w r - ∑ i, w i * r i) + ∑ i, w i * r i| := by rw [sub_add_cancel]
      _ ≤ |dot4 w r - ∑ i, w i * r i| + |∑ i, w i * r i| := abs_add_le _ _
      _ ≤ B * (32 / 2 ^ 23) + 4 * (9 / 8 * B) := add_le_add (dot4_near hw hr hB) hexact
      _ ≤ 5 * B := by linarith
  have hwx (i : Fin 4) : |tx.weight i| ≤ 9 / 8 := by
    rw [htx.weight_eq]
    exact abs_weight_le htx.frac_nonneg htx.frac_le_one i
  have hwy (i : Fin 4) : |ty.weight i| ≤ 9 / 8 := by
    rw [hty.weight_eq]
    exact abs_weight_le hty.frac_nonneg hty.frac_le_one i
  have hrow (j : Fin 4) := hdot hwx (r := fun i => p (ty.tap j) (tx.tap i)) (B := 255)
    (fun i => abs_le.mpr ⟨by linarith [hp (ty.tap j) (tx.tap i)], (hp _ _).2⟩) (by norm_num)
  exact (hdot hwy hrow (by norm_num)).trans (by norm_num)

theorem bicubicValue_constant (hty : ty.At sh dh dy fy) (htx : tx.At sw dw dx fx) {a : ℚ}
    (ha : 0 ≤ a ∧ a ≤ 255)
    (hp : ∀ y < sh, ∀ x < sw, p y x = a) : |bicubicValue p ty tx - a| ≤ 499 / 1000 := by
  have ha' : |a| ≤ 256 := abs_le.mpr ⟨by linarith, by linarith⟩
  have hrow (j : Fin 4) : |dot4 tx.weight (fun i => p (ty.tap j) (tx.tap i)) - a| ≤ 1 / 100 := by
    rw [htx.weight_eq]
    have h := dot4_constant (r := fun i => p (ty.tap j) (tx.tap i))
      (η := 0) htx.frac_nonneg htx.frac_le_one ha'
      (by norm_num) fun i => by rw [hp _ (hty.tap_lt j) _ (htx.tap_lt i), sub_self, abs_zero]
    linarith
  have hcolumn := dot4_constant hty.frac_nonneg hty.frac_le_one ha' (by norm_num) hrow
  rw [bicubicValue, hty.weight_eq]
  exact hcolumn.trans (by norm_num)

theorem bicubicValue_over (hty : ty.At sh dh dy fy) (htx : tx.At sw dw dx fx)
    (hp : ∀ y x, 0 ≤ p y x ∧ p y x ≤ 255)
    {iy ix : Nat} (hy : Over sh dh dy iy) (hx : Over sw dw dx ix) :
      |bicubicValue p ty tx - p iy ix| ≤ 499 / 1000 := by
  have hrow (y : Nat) : |dot4 tx.weight (fun i => p y (tx.tap i)) - p y ix| ≤ 1 / 7 := by
    obtain ⟨k, hk, hat⟩ := htx.atPixel ix hx
    rw [htx.weight_eq, ← hk]
    exact dot4_at htx.frac_nonneg htx.frac_le_one hat (fun i => hp y (tx.tap i)) (by norm_num)
      (by norm_num)
  have hmem (y : Nat) : -1 / 2 ≤ dot4 tx.weight (fun i => p y (tx.tap i)) ∧
      dot4 tx.weight (fun i => p y (tx.tap i)) ≤ 255 + 1 / 2 := by
    have h := abs_le.mp (hrow y)
    have hpy := hp y ix
    constructor <;> linarith
  have hcolumn : |bicubicValue p ty tx - dot4 tx.weight (fun i => p iy (tx.tap i))| ≤ 1 / 7 := by
    obtain ⟨k, hk, hat⟩ := hty.atPixel iy hy
    rw [bicubicValue, hty.weight_eq, ← hk]
    exact dot4_at hty.frac_nonneg hty.frac_le_one hat (fun j => hmem (ty.tap j)) (by norm_num)
      (by norm_num)
  calc |bicubicValue p ty tx - p iy ix|
      ≤ |bicubicValue p ty tx - dot4 tx.weight (fun i => p iy (tx.tap i))|
        + |dot4 tx.weight (fun i => p iy (tx.tap i)) - p iy ix| := abs_sub_le _ _ _
    _ ≤ 1 / 7 + 1 / 7 := add_le_add hcolumn (hrow iy)
    _ ≤ 499 / 1000 := by norm_num

theorem bicubicChannel_spec (hsrc : Source src sw sh) (hty : ty.At sh dh dy fy)
    (htx : tx.At sw dw dx fx) (hc : c < 4) :
    ∃ b, bicubicChannel src sw ty tx c = .ok b ∧ Resampled .bicubic src sw sh dw dh dy dx c b := by
  have hmem (y x : Nat) := src.channel_mem sw c y x
  obtain ⟨b, hb⟩ := toByte_total (abs_bicubicValue_le hty htx hmem)
  refine ⟨b, (bicubicChannel_eq hsrc hty htx hc).trans hb, ?_, ?_, fun h => by cases h⟩
  · intro iy ix hy hx
    exact Outcome.ok.inj (hb.symm.trans (toByte_eq (bicubicValue_over hty htx hmem hy hx)))
  · intro v hv
    have hv' : ∀ y < sh, ∀ x < sw, src.channel sw c y x = v.toNat := fun y hy x hx => by
      rw [Buffer.channel, hv y hy x hx]
    have hrange : (0 : ℚ) ≤ v.toNat ∧ (v.toNat : ℚ) ≤ 255 := by
      have h : v.toNat ≤ 255 := by omega
      exact ⟨Nat.cast_nonneg _, by exact_mod_cast h⟩
    exact Outcome.ok.inj (hb.symm.trans (toByte_eq (bicubicValue_constant hty htx hrange hv')))

end Bicubic

end Channel

/-! ### Frames through a filter -/

/-- The pass of `bradsense_upscale_rgba` that scales. -/
def scale (filter : Filter) (src : Buffer) (sw sh dw dh : Nat) (dst : Buffer) :
    PixelOutcome Buffer :=
  match filter with
  | .bilinear => bradsenseBilinear src sw sh dw dh dst
  | .bicubic => bradsenseBicubic src sw sh dw dh dst

/-- The same by the place of the byte in the frame. -/
def ResampledAt (filter : Filter) (src : Buffer) (sw sh dw dh j : Nat) (b : Byte) : Prop :=
  ∀ dy dx c, dx < dw → c < 4 → j = (dy * dw + dx) * 4 + c →
    Resampled filter src sw sh dw dh dy dx c b

theorem Resampled.at {filter : Filter} {src : Buffer} {sw sh dw dh dy dx c : Nat} {b : Byte}
    (hdx : dx < dw) (hc : c < 4) (h : Resampled filter src sw sh dw dh dy dx c b) :
    ResampledAt filter src sw sh dw dh ((dy * dw + dx) * 4 + c) b := by
  intro dy' dx' c' hdx' hc' heq
  obtain ⟨rfl, rfl, rfl⟩ := channel_inj hdx hc hdx' hc' heq
  exact h

/-- **Scaling.** A filter fills the frame, with every channel of every pixel made of the source. -/
theorem scale_spec (filter : Filter) {src : Buffer} {sw sh dw dh : Nat} (hsrc : Source src sw sh)
    (hdw : dw ≤ framesMax) (hdh : dh ≤ framesMax) :
    ∃ V, (∀ dst : Buffer, dw * dh * 4 ≤ dst.size →
        scale filter src sw sh dw dh dst = .ok (dst.paint V (dw * dh * 4))) ∧
      ∀ dy < dh, ∀ dx < dw, ∀ c < 4, Resampled filter src sw sh dw dh dy dx c
        (V ((dy * dw + dx) * 4 + c)) := by
  have hfilled : ∃ V, (∀ dst : Buffer, dw * dh * 4 ≤ dst.size →
      scale filter src sw sh dw dh dst = .ok (dst.paint V (dw * dh * 4))) ∧
      ∀ j < dw * dh * 4, ResampledAt filter src sw sh dw dh j (V j) := by
    cases filter with
    | bilinear =>
        exact resample_ok (P := LinearTaps.At sh dh) (R := LinearTaps.At sw dw)
          (fun k hk => linearTaps_spec hsrc.one_le_h hsrc.h_le hdh hk)
          (fun k hk => linearTaps_spec hsrc.one_le_w hsrc.w_le hdw hk)
          fun dy hdy dx hdx c hc ty tx hty htx => by
            obtain ⟨b, hb, hres⟩ := bilinearChannel_spec hsrc hty htx hc
            exact ⟨b, hb, hres.at hdx hc⟩
    | bicubic =>
        exact resample_ok (P := fun k t => ∃ f, t.At sh dh k f)
          (R := fun k t => ∃ f, t.At sw dw k f)
          (fun k hk => cubicTaps_spec hsrc.one_le_h hsrc.h_le hdh hk)
          (fun k hk => cubicTaps_spec hsrc.one_le_w hsrc.w_le hdw hk)
          fun dy hdy dx hdx c hc ty tx ⟨_, hty⟩ ⟨_, htx⟩ => by
            obtain ⟨b, hb, hres⟩ := bicubicChannel_spec hsrc hty htx hc
            exact ⟨b, hb, hres.at hdx hc⟩
  obtain ⟨V, hrun, hV⟩ := hfilled
  exact ⟨V, hrun, fun dy hdy dx hdx c hc => hV _ (channel_lt hdy hdx hc) dy dx c hdx hc rfl⟩

end BradVector.Sense
