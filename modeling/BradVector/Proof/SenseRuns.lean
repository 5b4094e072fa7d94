import BradVector.Proof.Reconstruction

/-!
# Runs of the frame reconstructor

What the driver has to know is what its calls were since it was last initialized, as far as they
succeeded. Its counters and its averages are read off that session.
-/

namespace BradVector.Sense

open CSem

/-! ### Sessions -/

/-- The calls that succeeded since the last initialization: the settings in force, the frame
supplied last, the modes of the frames reconstructed, latest first, and how many of the others there
were. -/
structure Session where
  quality : Word
  fg : Word
  accum : AccumConfig
  front : Option FrontFrame
  shown : List Word
  lastFrameId : Size
  generated : Nat
  fed : Nat
  asked : Nat

/-- A call that succeeded. -/
def record : Option Session → SenseCall → Option Session
  | _, .init quality fg => some ⟨quality, fg, ⟨16, 8, 2, 3⟩, none, [], 0, 0, 0, 0⟩
  | some t, .setQuality mode => some { t with quality := mode }
  | some t, .setFrameGen fg => some { t with fg := fg }
  | some t, .submitSemantic _ => some { t with fed := t.fed + 1 }
  | some t, .supplyFrame (some ⟨w, h, some rgba⟩) _ =>
      some { t with front := some ⟨⟨rgba.bytes, w.toNat * h.toNat * 4⟩, w, h⟩ }
  | some t, .reconstruct frameId _ _ =>
    some { t with shown := t.quality :: t.shown, lastFrameId := frameId }
  | some t, .generateFrame _ _ _ _ => some { t with generated := t.generated + 1 }
  | some t, .setAccumConfig (some cfg) => some { t with accum := cfg }
  | some t, .tifaTelemetry => some { t with asked := t.asked + 1 }
  | t, _ => t

/-- A call that failed changes nothing. -/
def follow (t : Option Session) (step : SenseCall × SenseReply) : Option Session :=
  if step.2.code = 0 then record t step.1 else t

def session (calls : List SenseCall) (replies : List SenseReply) : Option Session :=
  (calls.zip replies).foldl follow none

/-- The load of a mode in percent. -/
def load (mode : Word) : Nat := (qualityModes[mode.toNat]?.map fun qr => qr.nsuLoadPct.toNat).getD 0

/-- The average after frames of these modes, latest first. -/
def latency : List Word → Nat
  | [] => 0
  | mode :: shown => (latency shown + 10 * load mode) / 2

/-- The greatest average so far. -/
def peak : List Word → Nat
  | [] => 0
  | mode :: shown => max (peak shown) (latency (mode :: shown))

/-- The driver in a session. -/
def view : Option Session → BsState
  | none => .zero
  | some t => {
      initialized := true
      quality := t.quality
      fg := t.fg
      accum := t.accum
      stats := {
        nsuLoadPct := BitVec.ofNat 32 ((t.shown.head?.map load).getD 0)
        avgLatencyUs := BitVec.ofNat 32 (latency t.shown)
        peakLatencyUs := BitVec.ofNat 32 (peak t.shown)
        framesProcessed := BitVec.ofNat 64 (t.shown.length + t.generated)
        pixelsReconstructed := BitVec.ofNat 64 (t.shown.length * (3840 * 2160))
        semanticBytesRx := BitVec.ofNat 64 (t.fed * semanticFeedBytes)
        fg := ⟨BitVec.ofNat 32 (2 * t.generated), BitVec.ofNat 32 t.generated,
          if t.generated = 0 then 0 else frameGenLatencyUs⟩
        expertSwitches := 0
        tifaPredictions := BitVec.ofNat 32 t.asked
        tifaHits := BitVec.ofNat 32 t.asked }
      semanticFeeds := BitVec.ofNat 64 t.fed
      lastFrameId := t.lastFrameId
      front := t.front }

structure AccumConfig.Valid (cfg : AccumConfig) : Prop where
  static : 1 ≤ cfg.staticMaxFrames.toNat ∧ cfg.staticMaxFrames.toNat ≤ 16
  slow : 1 ≤ cfg.slowMaxFrames.toNat ∧ cfg.slowMaxFrames.toNat ≤ cfg.staticMaxFrames.toNat
  fast : 1 ≤ cfg.fastMaxFrames.toNat ∧ cfg.fastMaxFrames.toNat ≤ cfg.slowMaxFrames.toNat
  bootstrap : 1 ≤ cfg.newBootstrapFrames.toNat ∧ cfg.newBootstrapFrames.toNat ≤ 8

theorem AccumConfig.valid_default : AccumConfig.Valid ⟨16, 8, 2, 3⟩ :=
  ⟨by decide, by decide, by decide, by decide⟩

/-- What the checks of the calls guarantee. -/
structure Session.Valid (t : Session) : Prop where
  quality : t.quality.toNat ≤ 4
  fg : t.fg.toNat ≤ 2
  accum : t.accum.Valid
  front : ∀ f, t.front = some f → frameDims f.w.toNat f.h.toNat = true ∧
    f.w.toNat * f.h.toNat * 4 ≤ f.rgba.size
  shown : ∀ mode ∈ t.shown, mode.toNat ≤ 4

/-- The buffers of a call are as large as it says. -/
def SenseCall.Fits : SenseCall → Prop
  | .supplyFrame (some ⟨w, h, some rgba⟩) _ => w.toNat * h.toNat * 4 ≤ rgba.size
  | .reconstruct _ (some out) size => size.toNat ≤ out.size
  | .generateFrame _ _ (some out) size => size.toNat ≤ out.size
  | _ => True

/-! ### Averages -/

theorem load_le {mode : Word} (h : mode.toNat ≤ 4) : load mode ≤ 60 := by
  have hcase : mode.toNat = 0 ∨ mode.toNat = 1 ∨ mode.toNat = 2 ∨ mode.toNat = 3 ∨
    mode.toNat = 4 := by omega
  unfold load
  rcases hcase with h | h | h | h | h <;> rw [h] <;> decide

theorem latency_le {shown : List Word} (h : ∀ mode ∈ shown, mode.toNat ≤ 4) :
    latency shown ≤ 600 := by
  induction shown with
  | nil => exact Nat.zero_le _
  | cons mode shown ih =>
      have hload := load_le (h mode List.mem_cons_self)
      have hrest := ih fun m hm => h m (List.mem_cons_of_mem mode hm)
      rw [latency]
      omega

theorem latency_le_peak (shown : List Word) : latency shown ≤ peak shown := by
  cases shown with
  | nil => exact le_rfl
  | cons mode shown => exact le_max_right _ _

theorem peak_le {shown : List Word} (h : ∀ mode ∈ shown, mode.toNat ≤ 4) : peak shown ≤ 600 := by
  induction shown with
  | nil => exact Nat.zero_le _
  | cons mode shown ih =>
      exact max_le (ih fun m hm => h m (List.mem_cons_of_mem mode hm)) (latency_le h)

/-! ### One call -/

section Step

variable {t : Session} (ht : t.Valid)
include ht

theorem view_mode : ∃ qr, (view (some t)).mode = .ok qr ∧
    qr.needed = BitVec.ofNat 64 (3840 * 2160 * 4) ∧
    qr.nsuLoadPct = BitVec.ofNat 32 (load t.quality) ∧ qr.targetW = 3840 ∧ qr.targetH = 2160 := by
  have hcase : t.quality.toNat = 0 ∨ t.quality.toNat = 1 ∨ t.quality.toNat = 2 ∨
      t.quality.toNat = 3 ∨
      t.quality.toNat = 4 := by
    have := ht.quality
    omega
  have hquality : (view (some t)).quality = t.quality := rfl
  rw [BsState.mode, hquality, load]
  rcases hcase with h | h | h | h | h <;> rw [h] <;> exact ⟨_, rfl, by decide, by decide, rfl, rfl⟩

/-- The average and the peak of one frame more, which do not overflow. -/
theorem reconstructed_view {qr : QualityRes}
    (hneeded : qr.needed = BitVec.ofNat 64 (3840 * 2160 * 4))
    (hload : qr.nsuLoadPct = BitVec.ofNat 32 (load t.quality)) (frameId : Size) :
    (view (some t)).stats.reconstructed qr qr.needed =
      (view (some { t with shown := t.quality :: t.shown, lastFrameId := frameId })).stats := by
  have hlat := latency_le ht.shown
  have hpeak := peak_le ht.shown
  have hq := load_le ht.quality
  have havg : (BitVec.ofNat 32 (latency t.shown) + BitVec.ofNat 32 (load t.quality) * 10) / 2 =
      BitVec.ofNat 32 (latency (t.quality :: t.shown)) := by
    apply BitVec.eq_of_toNat_eq
    rw [latency]
    simp only [BitVec.toNat_udiv, BitVec.toNat_add, BitVec.toNat_mul, BitVec.toNat_ofNat,
      BitVec.ofNat_eq_ofNat, Nat.reducePow, Nat.reduceMod]
    simp (disch := omega) only [Nat.mod_eq_of_lt, mul_comm (load t.quality)]
  have hnew : latency (t.quality :: t.shown) ≤ 600 := by
    rw [latency]
    omega
  have hmax : (if BitVec.ofNat 32 (peak t.shown) < BitVec.ofNat 32
      (latency (t.quality :: t.shown)) then
      BitVec.ofNat 32 (latency (t.quality :: t.shown)) else BitVec.ofNat 32 (peak t.shown)) =
      BitVec.ofNat 32 (peak (t.quality :: t.shown)) := by
    rw [peak]
    simp only [BitVec.lt_def, BitVec.toNat_ofNat]
    rw [Nat.mod_eq_of_lt (by omega), Nat.mod_eq_of_lt (by omega)]
    split_ifs with hlt
    · rw [max_eq_right hlt.le]
    · rw [max_eq_left (not_lt.mp hlt)]
  have hframes : BitVec.ofNat 64 (t.shown.length + t.generated) + 1 =
      BitVec.ofNat 64 ((t.quality :: t.shown).length + t.generated) := by
    rw [List.length_cons, Nat.add_right_comm, BitVec.ofNat_add (t.shown.length + t.generated) 1]
    rfl
  have hpixels : BitVec.ofNat 64 (t.shown.length * (3840 * 2160)) + BitVec.ofNat 64
      (3840 * 2160 * 4) / 4 =
      BitVec.ofNat 64 ((t.quality :: t.shown).length * (3840 * 2160)) := by
    have hquarter : (BitVec.ofNat 64 (3840 * 2160 * 4) / 4 : Size) =
      BitVec.ofNat 64 (3840 * 2160) := by decide
    rw [hquarter, List.length_cons, Nat.succ_mul t.shown.length, BitVec.ofNat_add]
  simp only [PerfStats.reconstructed, view, hneeded, hload, havg, hmax, hframes, hpixels,
    List.head?_cons, Option.map_some, Option.getD_some]

end Step

/-- A call leaves the driver in the session that follows. -/
def Follows (t : Option Session) (call : SenseCall) : Prop :=
  ∃ reply, senseCall (view t) call = .ok (reply, view (follow t (call, reply))) ∧
    ∀ u, follow t (call, reply) = some u → u.Valid

theorem follows_failed {t : Option Session} (hvalid : ∀ u, t = some u → u.Valid) {call : SenseCall}
    (reply : SenseReply) (hcode : reply.code ≠ 0)
    (hcall : senseCall (view t) call = .ok (reply, view t)) :
    Follows t call := by
  have hsame : follow t (call, reply) = t := if_neg hcode
  refine ⟨reply, ?_, ?_⟩
  · rw [hsame]
    exact hcall
  · rw [hsame]
    exact hvalid

theorem follows_recorded {t : Option Session} {call : SenseCall} {u : Session} (hu : u.Valid)
    (hrecord : record t call = some u) (reply : SenseReply) (hcode : reply.code = 0)
    (hcall : senseCall (view t) call = .ok (reply, view (some u))) : Follows t call := by
  have hnext : follow t (call, reply) = some u := (if_pos hcode).trans hrecord
  refine ⟨reply, ?_, ?_⟩
  · rw [hnext]
    exact hcall
  · rw [hnext]
    rintro _ ⟨⟩
    exact hu

section Calls

theorem init_follows {t : Option Session} (hvalid : ∀ u, t = some u → u.Valid) (quality fg : Word) :
    Follows t (.init quality fg) := by
  by_cases hquality : nativeAa < quality
  · refine follows_failed hvalid (.plain (-einval)) (by decide) ?_
    rw [senseCall, bradsenseInit, if_pos hquality]
  by_cases hfg : fg2x < fg
  · refine follows_failed hvalid (.plain (-einval)) (by decide) ?_
    rw [senseCall, bradsenseInit, if_neg hquality, if_pos hfg]
  have hquality₄ : quality.toNat ≤ 4 := not_lt.mp hquality
  have hfg₂ : fg.toNat ≤ 2 := not_lt.mp hfg
  refine follows_recorded (u := ⟨quality, fg, ⟨16, 8, 2, 3⟩, none, [], 0, 0, 0, 0⟩) ?_ rfl
    (.plain 0) rfl ?_
  · exact ⟨hquality₄, hfg₂, AccumConfig.valid_default, (fun _ h => by cases h),
      (fun _ h => by cases h)⟩
  · rw [senseCall, bradsenseInit, if_neg hquality, if_neg hfg]
    simp only [view, BsState.zero, PerfStats.zero, latency, peak, List.head?_nil, Option.map_none,
      Option.getD_none, List.length_nil, Nat.zero_mul, Nat.mul_zero, Nat.add_zero, if_true]
    rfl

/-- Nothing else works before. -/
theorem none_follows {call : SenseCall} (hcall : ∀ quality fg, call ≠ .init quality fg) :
    Follows none call := by
  have hvalid : ∀ u, (none : Option Session) = some u → u.Valid := fun u hu => by cases hu
  cases call with
  | init quality fg => exact absurd rfl (hcall quality fg)
  | reconstruct _ output _ =>
      exact follows_failed hvalid { SenseReply.plain (-enodev) with output := output }
        (by exact (by decide : (-enodev : Int) ≠ 0)) rfl
  | generateFrame _ _ output _ =>
      exact follows_failed hvalid { SenseReply.plain (-enodev) with output := output }
        (by exact (by decide : (-enodev : Int) ≠ 0)) rfl
  | _ => exact follows_failed hvalid (.plain (-enodev)) (by decide) rfl

variable {t : Session} (ht : t.Valid)
include ht

theorem valid_some : ∀ u, some t = some u → u.Valid := by
  rintro _ ⟨⟩
  exact ht

theorem setQuality_follows (mode : Word) : Follows (some t) (.setQuality mode) := by
  by_cases hmode : nativeAa < mode
  · refine follows_failed (valid_some ht) (.plain (-einval)) (by decide) ?_
    rw [senseCall, bradsenseSetQuality, if_neg (by simp [view]), if_pos hmode]
  · have hmode₄ : mode.toNat ≤ 4 := not_lt.mp hmode
    refine follows_recorded (u := { t with quality := mode }) { ht with quality := hmode₄ } rfl
      (.plain 0) rfl ?_
    rw [senseCall, bradsenseSetQuality, if_neg (by simp [view]), if_neg hmode]
    rfl

theorem setFrameGen_follows (fg : Word) : Follows (some t) (.setFrameGen fg) := by
  by_cases hfg : fg2x < fg
  · refine follows_failed (valid_some ht) (.plain (-einval)) (by decide) ?_
    rw [senseCall, bradsenseSetFrameGen, if_neg (by simp [view]), if_pos hfg]
  · have hfg₂ : fg.toNat ≤ 2 := not_lt.mp hfg
    refine follows_recorded (u := { t with fg := fg }) { ht with fg := hfg₂ } rfl (.plain 0) rfl ?_
    rw [senseCall, bradsenseSetFrameGen, if_neg (by simp [view]), if_neg hfg]
    rfl

theorem submitSemantic_follows (feed : Bool) : Follows (some t) (.submitSemantic feed) := by
  cases feed with
  | false => exact follows_failed (valid_some ht) (.plain (-einval)) (by decide) rfl
  | true =>
      have hbytes : BitVec.ofNat 64 (t.fed * semanticFeedBytes) +
          BitVec.ofNat 64 semanticFeedBytes =
          BitVec.ofNat 64 ((t.fed + 1) * semanticFeedBytes) := by
        rw [Nat.succ_mul, BitVec.ofNat_add]
      have hfeeds : BitVec.ofNat 64 t.fed + 1 = BitVec.ofNat 64 (t.fed + 1) :=
        (BitVec.ofNat_add t.fed 1).symm
      refine follows_recorded (u := { t with fed := t.fed + 1 }) { ht with } rfl (.plain 0) rfl ?_
      rw [senseCall, bradsenseSubmitSemantic, if_neg (by simp [view]), if_neg (by decide)]
      simp only [view, hbytes, hfeeds]

theorem supplyFrame_follows (frame : Option FrameArg) (granted : Bool) :
    (SenseCall.supplyFrame frame granted).Fits → Follows (some t) (.supplyFrame frame granted) := by
  intro hfits
  have hinit : (view (some t)).initialized = true := rfl
  cases frame with
  | none => exact follows_failed (valid_some ht) (.plain (-einval)) (by decide) rfl
  | some frame =>
      obtain ⟨w, h, rgba⟩ := frame
      cases rgba with
      | none => exact follows_failed (valid_some ht) (.plain (-einval)) (by decide) rfl
      | some rgba =>
          by_cases hdims : frameDims w.toNat h.toNat = true
          · cases granted with
            | false =>
                refine follows_failed (valid_some ht) (.plain (-enomem)) (by decide) ?_
                simp only [senseCall, bradsenseSupplyFrame, hinit, hdims]
                rfl
            | true =>
                refine follows_recorded (u := { t with front := some ⟨⟨rgba.bytes,
                  w.toNat * h.toNat * 4⟩, w, h⟩ }) { ht with front := ?_ } rfl (.plain 0) rfl ?_
                · rintro _ ⟨⟩
                  exact ⟨hdims, le_rfl⟩
                · have hsize : w.toNat * h.toNat * 4 ≤ rgba.size := hfits
                  simp only [senseCall, bradsenseSupplyFrame, hinit, hdims, hsize]
                  rfl
          · refine follows_failed (valid_some ht) (.plain (-einval)) (by decide) ?_
            simp only [senseCall, bradsenseSupplyFrame, hinit, hdims]
            rfl

theorem tifaTelemetry_follows : Follows (some t) .tifaTelemetry := by
  have hasked : BitVec.ofNat 32 t.asked + 1 = BitVec.ofNat 32 (t.asked + 1) :=
    (BitVec.ofNat_add t.asked 1).symm
  refine follows_recorded (u := { t with asked := t.asked + 1 }) { ht with } rfl
    { SenseReply.plain 0 with telemetry := (bradsenseTifaTelemetry (view (some t))).2.2 } rfl ?_
  rw [senseCall, bradsenseTifaTelemetry, if_neg (by simp [view])]
  simp only [view, hasked, SenseReply.plain]

theorem getPerf_follows (stats : Bool) : Follows (some t) (.getPerf stats) := by
  cases stats with
  | false => exact follows_failed (valid_some ht) (.plain (-einval)) (by decide) rfl
  | true =>
      exact follows_recorded ht rfl { SenseReply.plain 0 with perf := some (view (some t)).stats }
        rfl rfl

theorem getAccumConfig_follows (cfg : Bool) : Follows (some t) (.getAccumConfig cfg) := by
  cases cfg with
  | false => exact follows_failed (valid_some ht) (.plain (-einval)) (by decide) rfl
  | true =>
      exact follows_recorded ht rfl { SenseReply.plain 0 with accum := some (view (some t)).accum }
        rfl rfl

theorem setAccumConfig_follows (cfg : Option AccumConfig) :
    Follows (some t) (.setAccumConfig cfg) := by
  cases cfg with
  | none => exact follows_failed (valid_some ht) (.plain (-einval)) (by decide) rfl
  | some cfg =>
      have hcall : senseCall (view (some t)) (.setAccumConfig (some cfg)) =
          .ok (.plain (bradsenseSetAccumConfig (view (some t)) (some cfg)).1,
            (bradsenseSetAccumConfig (view (some t)) (some cfg)).2) := rfl
      have hinit : (view (some t)).initialized = true := rfl
      simp only [bradsenseSetAccumConfig, hinit, not_true, if_false] at hcall
      split_ifs at hcall with hstatic hslow hfast hboot
      · exact follows_failed (valid_some ht) (.plain (-einval)) (by decide) hcall
      · exact follows_failed (valid_some ht) (.plain (-einval)) (by decide) hcall
      · exact follows_failed (valid_some ht) (.plain (-einval)) (by decide) hcall
      · exact follows_failed (valid_some ht) (.plain (-einval)) (by decide) hcall
      · simp only [not_or, BitVec.not_lt, BitVec.le_def,
          maxAccumFrames] at hstatic hslow hfast hboot
        exact follows_recorded (u := { t with accum := cfg })
          { ht with accum := ⟨hstatic, hslow, hfast, hboot⟩ } rfl (.plain 0) rfl hcall

theorem bradsenseReconstruct_ok {f : FrontFrame} (hfront : t.front = some f) (frameId : Size)
    {out o : Buffer}
    {size : Size} (hzero : size ≠ 0) (hsize : ¬ size < BitVec.ofNat 64 (3840 * 2160 * 4))
    (hup : bradsenseUpscaleRgba (some f.rgba) f.w.toNat f.h.toNat (some out) 3840 2160
      (some .dflt) =
      .ok (0, some o)) :
    bradsenseReconstruct (view (some t)) frameId (some out) size =
      .ok (0, view (some { t with shown := t.quality :: t.shown, lastFrameId := frameId }),
        some o) := by
  obtain ⟨qr, hmode, hneeded, hload, hw, hh⟩ := view_mode ht
  have hstats := reconstructed_view ht hneeded hload frameId
  have hchecks : ¬ ((some out).isNone = true ∨ size = 0) := by
    rintro (h | h)
    · cases h
    · exact hzero h
  have hviewfront : (view (some t)).front = some f := hfront
  have hw' : qr.targetW.toNat = 3840 := by rw [hw]; rfl
  have hh' : qr.targetH.toNat = 2160 := by rw [hh]; rfl
  have hroom : ¬ size < qr.needed := by rwa [hneeded]
  rw [bradsenseReconstruct, if_neg (by simp [view]), if_neg hchecks, hviewfront]
  simp only [hmode, Outcome.bind_eq_bind, Outcome.ok_bind, if_neg hroom, hw', hh', hup,
    Outcome.pure_eq_ok, hstats]
  simp only [view, hfront]

omit ht in
theorem room_of_size {out : Buffer} {size : Size} (hfits : size.toNat ≤ out.size)
    (hsize : ¬ size < BitVec.ofNat 64 (3840 * 2160 * 4)) : 3840 * 2160 * 4 ≤ out.size := by
  have h : 3840 * 2160 * 4 ≤ size.toNat := not_lt.mp hsize
  exact h.trans hfits

theorem reconstruct_follows (frameId : Size) (output : Option Buffer) (size : Size) :
    (SenseCall.reconstruct frameId output size).Fits →
      Follows (some t) (.reconstruct frameId output size) := by
  intro hfits
  have hfailed (code : Int) (hcode : code ≠ 0)
      (hcall : bradsenseReconstruct (view (some t)) frameId output size =
        .ok (code, view (some t), output)) :
      Follows (some t) (.reconstruct frameId output size) := by
    refine follows_failed (valid_some ht) { SenseReply.plain code with output := output } hcode ?_
    rw [senseCall, hcall]
    rfl
  cases output with
  | none => exact hfailed (-einval) (by decide) rfl
  | some out =>
      have hchecks (hzero : size ≠ 0) : ¬ ((some out).isNone = true ∨ size = 0) := by
        rintro (h | h)
        · cases h
        · exact hzero h
      by_cases hzero : size = 0
      · apply hfailed (-einval) (by decide)
        rw [bradsenseReconstruct, if_neg (by simp [view]), if_pos (.inr hzero)]
      cases hfront : t.front with
      | none =>
          apply hfailed (-enodata) (by decide)
          have hviewfront : (view (some t)).front = none := hfront
          rw [bradsenseReconstruct, if_neg (by simp [view]), if_neg (hchecks hzero), hviewfront]
      | some f =>
          by_cases hsize : size < BitVec.ofNat 64 (3840 * 2160 * 4)
          · apply hfailed (-enobufs) (by decide)
            obtain ⟨qr, hmode, hneeded, -, -, -⟩ := view_mode ht
            have hviewfront : (view (some t)).front = some f := hfront
            have hfew : size < qr.needed := by rwa [hneeded]
            rw [bradsenseReconstruct, if_neg (by simp [view]), if_neg (hchecks hzero), hviewfront]
            simp only [hmode, Outcome.bind_eq_bind, Outcome.ok_bind, if_pos hfew,
              Outcome.pure_eq_ok]
          · obtain ⟨hdims, hbytes⟩ := ht.front f hfront
            obtain ⟨-, V, hup, -, -⟩ := bradsenseUpscaleRgba_spec (some .dflt) hdims
              (by decide : frameDims 3840 2160 = true) hbytes
            have hrun := bradsenseReconstruct_ok ht hfront frameId hzero hsize
              (hup out (room_of_size hfits hsize))
            refine follows_recorded
              (u := { t with shown := t.quality :: t.shown, lastFrameId := frameId })
              { ht with shown := ?_ } rfl
              { SenseReply.plain 0 with output := some (out.paint V (3840 * 2160 * 4)) } rfl ?_
            · intro mode hmode
              rcases List.mem_cons.mp hmode with rfl | hmode
              · exact ht.quality
              · exact ht.shown mode hmode
            · rw [senseCall, hrun]
              rfl

theorem generateFrame_follows (frameN frameN1 : Size) (output : Option Buffer) (size : Size) :
    (SenseCall.generateFrame frameN frameN1 output size).Fits →
      Follows (some t) (.generateFrame frameN frameN1 output size) := by
  intro hfits
  have hfailed (code : Int) (hcode : code ≠ 0)
      (hcall : bradsenseGenerateFrame (view (some t)) frameN frameN1 output size =
        .ok (code, view (some t), output)) :
      Follows (some t) (.generateFrame frameN frameN1 output size) := by
    refine follows_failed (valid_some ht) { SenseReply.plain code with output := output } hcode ?_
    rw [senseCall, hcall]
    rfl
  cases output with
  | none => exact hfailed (-einval) (by decide) rfl
  | some out =>
      by_cases hzero : size = 0
      · apply hfailed (-einval) (by decide)
        rw [bradsenseGenerateFrame, if_neg (by simp [view])]
        exact if_pos hzero
      by_cases hoff : (view (some t)).fg = fgOff
      · apply hfailed (-enotsup) (by decide)
        rw [bradsenseGenerateFrame, if_neg (by simp [view])]
        simp only [if_neg hzero, if_pos hoff]
      by_cases horder : frameN1 ≤ frameN
      · apply hfailed (-einval) (by decide)
        rw [bradsenseGenerateFrame, if_neg (by simp [view])]
        simp only [if_neg hzero, if_neg hoff, if_pos horder]
      obtain ⟨qr, hmode, hneeded, -, -, -⟩ := view_mode ht
      by_cases hsize : size < BitVec.ofNat 64 (3840 * 2160 * 4)
      · apply hfailed (-enobufs) (by decide)
        have hfew : size < qr.needed := by rwa [hneeded]
        rw [bradsenseGenerateFrame, if_neg (by simp [view])]
        simp only [if_neg hzero, if_neg hoff, if_neg horder, hmode, Outcome.bind_eq_bind,
          Outcome.ok_bind, if_pos hfew, Outcome.pure_eq_ok]
      · have hroom : ¬ size < qr.needed := by rwa [hneeded]
        have hclear : qr.needed.toNat ≤ out.size := by
          have h : qr.needed.toNat ≤ size.toNat := not_lt.mp hroom
          exact h.trans hfits
        have hstats : { view (some t) with stats := (view (some t)).stats.generated } =
            view (some { t with generated := t.generated + 1 }) := by
          have hreal : BitVec.ofNat 32 (2 * t.generated) + 2 =
              BitVec.ofNat 32 (2 * (t.generated + 1)) :=
            (BitVec.ofNat_add (2 * t.generated) 2).symm
          have hgen : BitVec.ofNat 32 t.generated + 1 = BitVec.ofNat 32 (t.generated + 1) :=
            (BitVec.ofNat_add t.generated 1).symm
          have hframes : BitVec.ofNat 64 (t.shown.length + t.generated) + 1 =
              BitVec.ofNat 64 (t.shown.length + (t.generated + 1)) :=
            (BitVec.ofNat_add (t.shown.length + t.generated) 1).symm
          simp only [PerfStats.generated, view, hreal, hgen, hframes, Nat.succ_ne_zero, if_false]
        refine follows_recorded (u := { t with generated := t.generated + 1 }) { ht with } rfl
          { SenseReply.plain 0 with
            output := some { out with
              bytes := fun i => if i < qr.needed.toNat then 0 else out.bytes i } } rfl ?_
        rw [senseCall, bradsenseGenerateFrame, if_neg (by simp [view])]
        simp only [if_neg hzero, if_neg hoff, if_neg horder, hmode, Outcome.bind_eq_bind,
          Outcome.ok_bind, if_neg hroom, Buffer.clear, if_pos hclear, Outcome.pure_eq_ok, hstats]

end Calls

/-- **One call.** -/
theorem senseCall_follows {t : Option Session} (hvalid : ∀ u, t = some u → u.Valid)
    {call : SenseCall} (hfits : call.Fits) : Follows t call := by
  cases t with
  | none =>
      by_cases hinit : ∃ quality fg, call = .init quality fg
      · obtain ⟨quality, fg, rfl⟩ := hinit
        exact init_follows hvalid quality fg
      · exact none_follows fun quality fg hcall => hinit ⟨quality, fg, hcall⟩
  | some t =>
      have ht : t.Valid := hvalid t rfl
      cases call with
      | init quality fg => exact init_follows hvalid quality fg
      | setQuality mode => exact setQuality_follows ht mode
      | setFrameGen fg => exact setFrameGen_follows ht fg
      | submitSemantic feed => exact submitSemantic_follows ht feed
      | supplyFrame frame granted => exact supplyFrame_follows ht frame granted hfits
      | reconstruct frameId output size => exact reconstruct_follows ht frameId output size hfits
      | generateFrame frameN frameN1 output size =>
        exact generateFrame_follows ht frameN frameN1 output size hfits
      | getPerf stats => exact getPerf_follows ht stats
      | getAccumConfig cfg => exact getAccumConfig_follows ht cfg
      | setAccumConfig cfg => exact setAccumConfig_follows ht cfg
      | tifaTelemetry => exact tifaTelemetry_follows ht

/-! ### Runs -/

/-- The run from any session. -/
theorem senseRun_follows {t : Option Session} (hvalid : ∀ u, t = some u → u.Valid)
    {calls : List SenseCall} (hfits : ∀ call ∈ calls, call.Fits) :
    ∃ replies, replies.length = calls.length ∧
      senseRun (view t) calls = .ok (replies, view ((calls.zip replies).foldl follow t)) ∧
      ∀ u, (calls.zip replies).foldl follow t = some u → u.Valid := by
  induction calls generalizing t with
  | nil => exact ⟨[], rfl, rfl, hvalid⟩
  | cons call calls ih =>
      obtain ⟨reply, hcall, hnext⟩ := senseCall_follows hvalid (hfits call List.mem_cons_self)
      obtain ⟨replies, hlength, hrun, hend⟩ :=
        ih hnext fun c hc => hfits c (List.mem_cons_of_mem call hc)
      refine ⟨reply :: replies, by rw [List.length_cons, List.length_cons, hlength], ?_, hend⟩
      simp only [senseRun, hcall, hrun, Outcome.bind_eq_bind, Outcome.ok_bind, Outcome.pure_eq_ok,
        List.zip_cons_cons, List.foldl_cons]

/-- **Runs of the driver.** From power-on, every sequence of calls whose buffers are as large as
they say runs without undefined behaviour, and leaves the driver as the calls that succeeded since
the last initialization say: its settings and its front frame are the last accepted ones, every
counter counts the successes (modulo its width), the latencies are the averages of the frames
reconstructed and never exceed 600 µs, and the settings have passed their checks. A call that fails
changes nothing. -/
theorem senseRun_session (calls : List SenseCall) (hfits : ∀ call ∈ calls, call.Fits) :
    ∃ replies, replies.length = calls.length ∧
      senseRun .zero calls = .ok (replies, view (session calls replies)) ∧
      ∀ t, session calls replies = some t → t.Valid ∧ latency t.shown ≤ peak t.shown ∧
        peak t.shown ≤ 600 := by
  obtain ⟨replies, hlength, hrun, hvalid⟩ :=
    senseRun_follows (t := none) (fun u hu => by cases hu) hfits
  exact ⟨replies, hlength, hrun, fun t ht =>
    ⟨hvalid t ht, latency_le_peak t.shown, peak_le (hvalid t ht).shown⟩⟩

/-- A driver that is initialized, given a grey frame and asked about its statistics. -/
def grayCalls : List SenseCall :=
  [.init 1 1, .setQuality 2, .supplyFrame (some ⟨8, 8, some ⟨fun _ => 0x40, 256⟩⟩) true,
    .submitSemantic true, .getPerf true, .tifaTelemetry]

theorem grayCalls_fit : ∀ call ∈ grayCalls, call.Fits := by
  simp only [grayCalls, List.forall_mem_cons, SenseCall.Fits, true_and]
  exact ⟨by decide, fun _ h => by cases h⟩

theorem grayCalls_session : ∃ replies, replies.length = grayCalls.length ∧
    senseRun .zero grayCalls = .ok (replies, view (session grayCalls replies)) ∧
    ∀ t, session grayCalls replies = some t → t.Valid ∧ latency t.shown ≤ peak t.shown ∧
      peak t.shown ≤ 600 :=
  senseRun_session grayCalls grayCalls_fit

/-- **What is shown.** In every run, a frame reconstructed from a front frame of one colour is of
that colour. -/
theorem senseRun_oneColour (calls : List SenseCall) (hfits : ∀ call ∈ calls, call.Fits)
    (v : Nat → Byte) :
    ∃ replies, senseRun .zero calls = .ok (replies, view (session calls replies)) ∧
      ∀ t f, session calls replies = some t → t.front = some f →
        (∀ c < 4, ChannelIs f.rgba.bytes f.w.toNat f.h.toNat c (v c)) →
        ∀ (frameId : Size) (out : Buffer) (size : Size), size.toNat ≤ out.size →
          3840 * 2160 * 4 ≤ size.toNat →
          ∃ reply s, senseCall (view (session calls replies))
            (.reconstruct frameId (some out) size) = .ok (reply, s) ∧
            reply.code = 0 ∧ ∃ o, reply.output = some o ∧ ∀ c < 4,
              ChannelIs o.bytes 3840 2160 c (v c) := by
  obtain ⟨replies, hlength, hrun, hvalid⟩ :=
    senseRun_follows (t := none) (fun u hu => by cases hu) hfits
  refine ⟨replies, hrun, fun t f ht hfront hcolour frameId out size hroom hsize => ?_⟩
  have htvalid := hvalid t ht
  obtain ⟨hdims, hbytes⟩ := htvalid.front f hfront
  have hzero : size ≠ 0 := fun h => by
    rw [h] at hsize
    exact absurd hsize (by decide)
  have henough : ¬ size < BitVec.ofNat 64 (3840 * 2160 * 4) := not_lt.mpr hsize
  obtain ⟨U, V, hup, hU, hV⟩ :=
    bradsenseUpscaleRgba_spec (some .dflt) hdims (by decide : frameDims 3840 2160 = true)
    hbytes
  have hscaled : ∀ c < 4, ChannelIs U 3840 2160 c (v c) := fun c hc dy hdy dx hdx =>
    (hU dy hdy dx hdx c hc).kept (v c) (hcolour c hc)
  have hcall : senseCall (view (some t)) (.reconstruct frameId (some out) size) =
      .ok ({ SenseReply.plain 0 with output := some (out.paint V (3840 * 2160 * 4)) },
        view (some { t with shown := t.quality :: t.shown, lastFrameId := frameId })) := by
    rw [senseCall, bradsenseReconstruct_ok htvalid hfront frameId hzero henough
      (hup out (room_of_size hroom henough))]
    rfl
  rw [ht]
  refine ⟨_, _, hcall, rfl, _, rfl, fun c hc dy hdy dx hdx => ?_⟩
  rw [Buffer.paint_bytes (channel_lt hdy hdx hc)]
  exact hV.kept.2 v hscaled c hc dy hdy dx hdx

theorem grayCalls_oneColour :
    ∃ replies, senseRun .zero grayCalls = .ok (replies, view (session grayCalls replies)) ∧
      ∀ t f, session grayCalls replies = some t → t.front = some f →
        (∀ c < 4, ChannelIs f.rgba.bytes f.w.toNat f.h.toNat c 0x40) →
        ∀ (frameId : Size) (out : Buffer) (size : Size), size.toNat ≤ out.size →
          3840 * 2160 * 4 ≤ size.toNat →
          ∃ reply s, senseCall (view (session grayCalls replies))
            (.reconstruct frameId (some out) size) =
              .ok (reply, s) ∧
            reply.code = 0 ∧ ∃ o, reply.output = some o ∧ ∀ c < 4,
              ChannelIs o.bytes 3840 2160 c 0x40 :=
  senseRun_oneColour grayCalls grayCalls_fit fun _ => 0x40

end BradVector.Sense
