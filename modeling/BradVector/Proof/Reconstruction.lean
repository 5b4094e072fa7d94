import BradVector.Proof.FrameSharpening

/-!
# Reconstruction

What `bradsense_upscale_rgba` makes of a frame, for all sizes it accepts and all configurations.
-/

namespace BradVector.Sense

open CSem

theorem frameDims_iff {w h : Nat} :
    frameDims w h = true ↔ 1 ≤ w ∧ 1 ≤ h ∧ w ≤ framesMax ∧ h ≤ framesMax := by
  simp only [frameDims, Bool.and_eq_true, decide_eq_true_eq, and_assoc]

theorem source_of_dims {src : Buffer} {sw sh : Nat} (hs : frameDims sw sh = true)
    (hsize : sw * sh * 4 ≤ src.size) :
    Source src sw sh := by
  obtain ⟨hw, hh, hwmax, hhmax⟩ := frameDims_iff.mp hs
  exact ⟨hw, hh, hwmax, hhmax, hsize⟩

section Upscale

variable {src : Buffer} {sw sh dw dh : Nat}

/-- What the second pass makes of the scaled frame. -/
def Finished (cfg : UpscaleCfg) (U V : Nat → Byte) (w h : Nat) : Prop :=
  if cfg.sharpen then Sharpened U V w h (w * h) else V = U

theorem bradsenseUpscaleRgba_eq (cfg : Option UpscaleCfg) (hs : frameDims sw sh = true)
    (hd : frameDims dw dh = true)
    (dst : Buffer) : bradsenseUpscaleRgba (some src) sw sh (some dst) dw dh cfg =
      (scale (cfg.getD .dflt).filter src sw sh dw dh dst).bind fun out =>
        (if (cfg.getD .dflt).sharpen then bradsenseSharpen dw dh (cfg.getD .dflt).sharpenMag out
          else .ok out).bind fun out => .ok (0, some out) := by
  simp only [bradsenseUpscaleRgba, hs, hd, Bool.and_self, if_true]
  cases (cfg.getD .dflt).filter <;> cases (cfg.getD .dflt).sharpen <;> rfl

/-- **The core.** The frame is scaled and then, if that is asked for, sharpened; nothing depends on
what the buffer held. -/
theorem bradsenseUpscaleRgba_spec (cfg : Option UpscaleCfg) (hs : frameDims sw sh = true)
    (hd : frameDims dw dh = true) (hsize : sw * sh * 4 ≤ src.size) :
    ∃ U V, (∀ dst : Buffer, dw * dh * 4 ≤ dst.size →
        bradsenseUpscaleRgba (some src) sw sh (some dst) dw dh cfg =
          .ok (0, some (dst.paint V (dw * dh * 4)))) ∧
      (∀ dy < dh, ∀ dx < dw, ∀ c < 4,
        Resampled (cfg.getD .dflt).filter src sw sh dw dh dy dx c (U ((dy * dw + dx) * 4 + c))) ∧
      Finished (cfg.getD .dflt) U V dw dh := by
  obtain ⟨-, -, hdw, hdh⟩ := frameDims_iff.mp hd
  generalize hcfg : cfg.getD .dflt = config
  obtain ⟨U, hscale, hU⟩ := scale_spec config.filter (source_of_dims hs hsize) hdw hdh
  have hfinish : ∃ V, (∀ dst : Buffer, dw * dh * 4 ≤ dst.size →
      (if config.sharpen then bradsenseSharpen dw dh config.sharpenMag (dst.paint U (dw * dh * 4))
        else .ok (dst.paint U (dw * dh * 4))) = .ok (dst.paint V (dw * dh * 4))) ∧
          Finished config U V dw dh := by
    unfold Finished
    cases config.sharpen with
    | false => exact ⟨U, fun _ _ => rfl, rfl⟩
    | true => exact bradsenseSharpen_spec U dw dh config.sharpenMag
  obtain ⟨V, hrun, hV⟩ := hfinish
  refine ⟨U, V, fun dst hdst => ?_, hU, hV⟩
  rw [bradsenseUpscaleRgba_eq cfg hs hd, hcfg, hscale dst hdst, Outcome.ok_bind, hrun dst hdst,
    Outcome.ok_bind]

/-- The bytes of the channel `c` of all pixels are `v`. -/
def ChannelIs (bytes : Nat → Byte) (w h c : Nat) (v : Byte) : Prop :=
  ∀ y < h, ∀ x < w, bytes ((y * w + x) * 4 + c) = v

theorem flat_of_channels {U : Nat → Byte} {w h : Nat} {v : Nat → Byte}
    (hU : ∀ c < 3, ChannelIs U w h c (v c)) {y x : Nat} :
    Flat U w h y x := by
  have hluma {yy xx : Nat} (hnear : Near w h y x yy xx) :
      lumaPixel U (yy * w + xx) = bradsenseLuma (v 0) (v 1) (v 2) := by
    have hchannel {c : Nat} (hc : c < 3) : U ((yy * w + xx) * 4 + c) = v c :=
      hU c hc yy hnear.1 xx hnear.2.1
    rw [lumaPixel, hchannel (c := 1) (by decide), hchannel (c := 2) (by decide),
      ← hchannel (c := 0) (by decide), Nat.add_zero]
  intro yy xx hnear yy' xx' hnear'
  rw [hluma hnear, hluma hnear']
  linarith

/-- The second pass keeps the alpha of a frame, and a frame of one colour. -/
theorem Finished.kept {cfg : UpscaleCfg} {U V : Nat → Byte} {w h : Nat}
    (hV : Finished cfg U V w h) :
    (∀ a, ChannelIs U w h 3 a → ChannelIs V w h 3 a) ∧
      ∀ v : Nat → Byte, (∀ c < 4, ChannelIs U w h c (v c)) → ∀ c < 4, ChannelIs V w h c (v c) := by
  unfold Finished at hV
  split_ifs at hV with hsharpen
  · constructor
    · intro a ha y hy x hx
      rw [hV.alpha]
      exact ha y hy x hx
    · intro v hv
      have hsame := hV.eq_of_flat fun y _ x _ => flat_of_channels (v := v) fun c hc =>
        hv c (hc.trans (by decide))
      rw [hsame]
      exact hv
  · rw [hV]
    exact ⟨fun _ ha => ha, fun _ hv => hv⟩

/-- **Memory and determinism.** With buffers of the sizes it is told, the core always succeeds: it
has no undefined behaviour, the frame depends on the source and the configuration alone, and nothing
beyond the frame is touched. -/
theorem bradsenseUpscaleRgba_defined (cfg : Option UpscaleCfg) (hs : frameDims sw sh = true)
    (hd : frameDims dw dh = true) (hsize : sw * sh * 4 ≤ src.size) :
    ∃ V : Nat → Byte, ∀ dst : Buffer, dw * dh * 4 ≤ dst.size →
      ∃ out, bradsenseUpscaleRgba (some src) sw sh (some dst) dw dh cfg = .ok (0, some out) ∧
        out.size = dst.size ∧
        (∀ i < dw * dh * 4, out.bytes i = V i) ∧ ∀ i, dw * dh * 4 ≤ i →
          out.bytes i = dst.bytes i := by
  obtain ⟨U, V, hrun, -, -⟩ := bradsenseUpscaleRgba_spec cfg hs hd hsize
  exact ⟨V, fun dst hdst =>
    ⟨dst.paint V (dw * dh * 4), hrun dst hdst, rfl, fun i hi => if_pos hi, fun i hi =>
      if_neg (not_lt.mpr hi)⟩⟩

/-- Two by two pixels. -/
def ramp : Buffer := ⟨fun i => BitVec.ofNat 8 (60 * i), 16⟩

/-- Room for three by three. -/
def blank : Buffer := ⟨fun _ => 0, 36⟩

theorem ramp_defined : ∃ V : Nat → Byte, ∀ dst : Buffer, 3 * 3 * 4 ≤ dst.size →
    ∃ out, bradsenseUpscaleRgba (some ramp) 2 2 (some dst) 3 3 none = .ok (0, some out) ∧
      out.size = dst.size ∧
      (∀ i < 3 * 3 * 4, out.bytes i = V i) ∧ ∀ i, 3 * 3 * 4 ≤ i → out.bytes i = dst.bytes i :=
  bradsenseUpscaleRgba_defined none (by decide) (by decide) (by decide)

/-- **Colours kept.** Whatever the filter and the gain, an alpha that is the same everywhere stays,
and a frame of one colour becomes a frame of that colour. -/
theorem bradsenseUpscaleRgba_keeps (cfg : Option UpscaleCfg) (hs : frameDims sw sh = true)
    (hd : frameDims dw dh = true) (hsize : sw * sh * 4 ≤ src.size) {dst : Buffer}
    (hdst : dw * dh * 4 ≤ dst.size) :
    ∃ out, bradsenseUpscaleRgba (some src) sw sh (some dst) dw dh cfg = .ok (0, some out) ∧
      (∀ a, ChannelIs src.bytes sw sh 3 a → ChannelIs out.bytes dw dh 3 a) ∧
      ∀ v : Nat → Byte, (∀ c < 4, ChannelIs src.bytes sw sh c (v c)) → ∀ c < 4,
        ChannelIs out.bytes dw dh c (v c) := by
  obtain ⟨U, V, hrun, hU, hV⟩ := bradsenseUpscaleRgba_spec cfg hs hd hsize
  have hscaled {c : Nat} (hc : c < 4) {v : Byte} (hv : ChannelIs src.bytes sw sh c v) :
      ChannelIs U dw dh c v :=
    fun dy hdy dx hdx => (hU dy hdy dx hdx c hc).kept v hv
  have hpaint {c : Nat} (hc : c < 4) {v : Byte} (hv : ChannelIs V dw dh c v) :
      ChannelIs (dst.paint V (dw * dh * 4)).bytes dw dh c v := fun dy hdy dx hdx => by
    rw [Buffer.paint_bytes (channel_lt hdy hdx hc)]
    exact hv dy hdy dx hdx
  refine ⟨_, hrun dst hdst, fun a ha => ?_, fun v hv c hc => ?_⟩
  · exact hpaint (by decide) (hV.kept.1 a (hscaled (by decide) ha))
  · exact hpaint hc (hV.kept.2 v (fun c hc => hscaled hc (hv c hc)) c hc)

/-- Two by two pixels of one colour. -/
def plainFrame : Buffer :=
  ⟨fun i => if i % 4 = 3 then 200 else BitVec.ofNat 8 (60 * (i % 4 + 1)), 16⟩

theorem plainFrame_channel (c : Nat) : ChannelIs plainFrame.bytes 2 2 c (plainFrame.bytes c) := by
  intro y _ x _
  have hmod : ((y * 2 + x) * 4 + c) % 4 = c % 4 := by omega
  simp only [plainFrame, hmod]

theorem plainFrame_keeps :
    ∃ out, bradsenseUpscaleRgba (some plainFrame) 2 2 (some blank) 3 3 none = .ok (0, some out) ∧
      ChannelIs out.bytes 3 3 3 200 ∧ ∀ c < 4, ChannelIs out.bytes 3 3 c (plainFrame.bytes c) := by
  have hsize : 2 * 2 * 4 ≤ plainFrame.size := by decide
  have hroom : 3 * 3 * 4 ≤ blank.size := by decide
  obtain ⟨out, hrun, halpha, hcolour⟩ :=
    bradsenseUpscaleRgba_keeps none (by decide) (by decide) hsize hroom
  exact ⟨out, hrun, halpha 200 (plainFrame_channel 3),
    hcolour plainFrame.bytes fun c _ => plainFrame_channel c⟩

theorem bradsenseUpscaleRgba_resamples (cfg : Option UpscaleCfg) (hs : frameDims sw sh = true)
    (hd : frameDims dw dh = true) (hsize : sw * sh * 4 ≤ src.size) {dst : Buffer}
    (hdst : dw * dh * 4 ≤ dst.size) (hoff : (cfg.getD .dflt).sharpen = false) :
    ∃ out, bradsenseUpscaleRgba (some src) sw sh (some dst) dw dh cfg = .ok (0, some out) ∧
      ∀ dy < dh, ∀ dx < dw, ∀ c < 4,
        Resampled (cfg.getD .dflt).filter src sw sh dw dh dy dx c
          (out.bytes ((dy * dw + dx) * 4 + c)) := by
  obtain ⟨U, V, hrun, hU, hV⟩ := bradsenseUpscaleRgba_spec cfg hs hd hsize
  rw [Finished, hoff, if_neg Bool.false_ne_true] at hV
  refine ⟨_, hrun dst hdst, fun dy hdy dx hdx c hc => ?_⟩
  rw [Buffer.paint_bytes (channel_lt hdy hdx hc), hV]
  exact hU dy hdy dx hdx c hc

theorem over_self {n k : Nat} (hk : k < n) : Over n n k k := by
  unfold Over
  rcases Nat.lt_or_ge 1 n with hlt | hle
  · rw [max_eq_left (by omega)]
  · have hzero : k = 0 := by omega
    rw [hzero, zero_mul, zero_mul]

/-- **Exact copies.** Without sharpening, each pixel that lies over one of the source is that pixel,
for both filters: the corners are, and a frame that keeps its size is unchanged. -/
theorem bradsenseUpscaleRgba_copies (cfg : Option UpscaleCfg) (hs : frameDims sw sh = true)
    (hd : frameDims dw dh = true) (hsize : sw * sh * 4 ≤ src.size) {dst : Buffer}
    (hdst : dw * dh * 4 ≤ dst.size) (hoff : (cfg.getD .dflt).sharpen = false) :
    ∃ out, bradsenseUpscaleRgba (some src) sw sh (some dst) dw dh cfg = .ok (0, some out) ∧
      (∀ dy < dh, ∀ dx < dw, ∀ iy ix, Over sh dh dy iy → Over sw dw dx ix → ∀ c < 4,
        out.bytes ((dy * dw + dx) * 4 + c) = src.bytes ((iy * sw + ix) * 4 + c)) ∧
      (dw = sw → dh = sh → ∀ i < dw * dh * 4, out.bytes i = src.bytes i) := by
  obtain ⟨out, hrun, hout⟩ := bradsenseUpscaleRgba_resamples cfg hs hd hsize hdst hoff
  have hcopied {dy dx iy ix c : Nat} (hdy : dy < dh) (hdx : dx < dw) (hy : Over sh dh dy iy)
      (hx : Over sw dw dx ix)
      (hc : c < 4) : out.bytes ((dy * dw + dx) * 4 + c) = src.bytes ((iy * sw + ix) * 4 + c) :=
    (hout dy hdy dx hdx c hc).copied iy ix hy hx
  refine ⟨out, hrun, fun dy hdy dx hdx iy ix hy hx c hc => hcopied hdy hdx hy hx hc, ?_⟩
  rintro rfl rfl i hi
  obtain ⟨hw, -, -, -⟩ := frameDims_iff.mp hd
  have hy : i / 4 / dw < dh := Nat.div_lt_of_lt_mul (by omega)
  have hx : i / 4 % dw < dw := Nat.mod_lt _ hw
  have hplace : (i / 4 / dw * dw + i / 4 % dw) * 4 + i % 4 = i := by
    rw [Nat.div_add_mod', Nat.div_add_mod']
  have h := hcopied hy hx (over_self hy) (over_self hx) (Nat.mod_lt i (by decide))
  rwa [hplace] at h

theorem ramp_copies :
    ∃ out, bradsenseUpscaleRgba (some ramp) 2 2 (some blank) 3 3 (some ⟨.bicubic, false, 0⟩) =
      .ok (0, some out) ∧
      (∀ dy < 3, ∀ dx < 3, ∀ iy ix, Over 2 3 dy iy → Over 2 3 dx ix → ∀ c < 4,
        out.bytes ((dy * 3 + dx) * 4 + c) = ramp.bytes ((iy * 2 + ix) * 4 + c)) ∧
      (3 = 2 → 3 = 2 → ∀ i < 3 * 3 * 4, out.bytes i = ramp.bytes i) :=
  bradsenseUpscaleRgba_copies (some ⟨.bicubic, false, 0⟩) (by decide) (by decide) (by decide)
    (by decide) rfl

/-- **The linear filter stays in range.** -/
theorem bradsenseUpscaleRgba_within (cfg : Option UpscaleCfg) (hs : frameDims sw sh = true)
    (hd : frameDims dw dh = true) (hsize : sw * sh * 4 ≤ src.size) {dst : Buffer}
    (hdst : dw * dh * 4 ≤ dst.size)
    (hoff : (cfg.getD .dflt).sharpen = false) (hfilter : (cfg.getD .dflt).filter = .bilinear) :
    ∃ out, bradsenseUpscaleRgba (some src) sw sh (some dst) dw dh cfg = .ok (0, some out) ∧
      ∀ c < 4, ∀ m k : Nat, (∀ y < sh, ∀ x < sw, m ≤ (src.bytes ((y * sw + x) * 4 + c)).toNat ∧
          (src.bytes ((y * sw + x) * 4 + c)).toNat ≤ k) →
        ∀ dy < dh, ∀ dx < dw, m ≤ (out.bytes ((dy * dw + dx) * 4 + c)).toNat ∧
          (out.bytes ((dy * dw + dx) * 4 + c)).toNat ≤ k := by
  obtain ⟨out, hrun, hout⟩ := bradsenseUpscaleRgba_resamples cfg hs hd hsize hdst hoff
  exact ⟨out, hrun, fun c hc m k hrange dy hdy dx hdx =>
    (hout dy hdy dx hdx c hc).within hfilter m k hrange⟩

theorem ramp_within :
    ∃ out, bradsenseUpscaleRgba (some ramp) 2 2 (some blank) 3 3 (some ⟨.bilinear, false, 0⟩) =
      .ok (0, some out) ∧
      ∀ c < 4, ∀ m k : Nat, (∀ y < 2, ∀ x < 2, m ≤ (ramp.bytes ((y * 2 + x) * 4 + c)).toNat ∧
          (ramp.bytes ((y * 2 + x) * 4 + c)).toNat ≤ k) →
        ∀ dy < 3, ∀ dx < 3, m ≤ (out.bytes ((dy * 3 + dx) * 4 + c)).toNat ∧
          (out.bytes ((dy * 3 + dx) * 4 + c)).toNat ≤ k :=
  bradsenseUpscaleRgba_within (some ⟨.bilinear, false, 0⟩) (by decide) (by decide) (by decide)
    (by decide) rfl rfl

end Upscale

/-- **Sharpening in place.** For every gain the pass stays in the frame, keeps alpha, and leaves
each pixel as it was or cuts its colours to the luma around it at its turn; where the luma around it
is flat by then it stays, and so a frame that is flat everywhere is unchanged. -/
theorem bradsenseSharpen_inPlace (img : Buffer) (w h : Nat) (mag : ℚ)
    (hsize : w * h * 4 ≤ img.size) :
    ∃ out, bradsenseSharpen w h mag img = .ok out ∧ out.size = img.size ∧
      Sharpened img.bytes out.bytes w h (w * h) ∧
      ((∀ y < h, ∀ x < w, Flat img.bytes w h y x) → out.bytes = img.bytes) := by
  obtain ⟨V, hrun, hV⟩ := bradsenseSharpen_spec img.bytes w h mag
  have hpaint {V : Nat → Byte} (hrest : ∀ j, w * h * 4 ≤ j → V j = img.bytes j) :
      img.paint V (w * h * 4) = { img with bytes := V } := by
    have hbytes : (fun i => if i < w * h * 4 then V i else img.bytes i) = V := by
      funext i
      split_ifs with hi
      · rfl
      · exact (hrest i (not_lt.mp hi)).symm
    rw [Buffer.paint, hbytes]
  have hrun := hrun img hsize
  rw [hpaint fun _ _ => rfl, hpaint hV.rest] at hrun
  exact ⟨_, hrun, rfl, hV, hV.eq_of_flat⟩

/-- Three by three pixels, the one in the middle brighter than the others. -/
def spot : Buffer := ⟨fun i => if i / 4 = 4 then 200 else 100, 36⟩

/-- The middle is raised to 12 above the brightest luma around it, which is its own. -/
theorem spot_sharpened :
    ∃ out, bradsenseSharpen 3 3 (3 / 4) spot = .ok out ∧
      Sharpened spot.bytes out.bytes 3 3 (3 * 3) ∧
      spot.bytes 16 = 200 ∧ out.bytes 16 = 212 := by
  obtain ⟨out, hrun, -, hout, -⟩ := bradsenseSharpen_inPlace spot 3 3 (3 / 4) (by decide)
  have hbyte : (match bradsenseSharpen 3 3 (3 / 4) spot with
      | .ok img => img.bytes 16
      | _ => 0) = 212 := by decide +kernel
  rw [hrun] at hbyte
  exact ⟨out, hrun, hout, rfl, hbyte⟩

end BradVector.Sense
