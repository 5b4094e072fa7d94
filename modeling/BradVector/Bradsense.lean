import BradVector.Isa
import BradVector.Library.Binary32
import BradVector.Library.Outcome
import Mathlib.Data.Fin.VecNotation
import Mathlib.Data.List.FinRange

/-!
# The frame reconstructor

The reference pixel path of `bradsense.c` and the driver state around it. A buffer is given with the
number of bytes that may be accessed, and a `float` is the number it stands for.
-/

namespace BradVector.Sense

open CSem

def framesMax : Nat := 16384

/-! ### Pixels -/

/-- What the language gives no meaning to. -/
inductive PixelUb where
  | read (index : Nat)
  | write (index : Nat)
  | convert (x : ℚ)
  | overflow
  | nullPointer
  deriving DecidableEq

abbrev PixelOutcome (α : Type) := Outcome PixelUb Empty α

structure Buffer where
  bytes : Nat → Byte
  size : Nat

def Buffer.read (b : Buffer) (i : Nat) : PixelOutcome Byte :=
  if i < b.size then .ok (b.bytes i) else .undefined (.read i)

def Buffer.write (b : Buffer) (i : Nat) (v : Byte) : PixelOutcome Buffer :=
  if i < b.size then .ok { b with bytes := Function.update b.bytes i v } else .undefined (.write i)

/-- `(int)x`, which drops the fraction. -/
def toCInt (x : ℚ) : PixelOutcome ℤ :=
  let n := if 0 ≤ x then ⌊x⌋ else ⌈x⌉
  if -2 ^ 31 ≤ n ∧ n < 2 ^ 31 then .ok n else .undefined (.convert x)

/-- The result of an operation on `int`. -/
def cInt (n : ℤ) : PixelOutcome ℤ :=
  if -2 ^ 31 ≤ n ∧ n < 2 ^ 31 then .ok n else .undefined .overflow

/-- `bradsense_clamp_u`. -/
def bradsenseClampU (v : ℤ) (max : Nat) : Nat :=
  if v < 0 then 0 else if max ≤ v.toNat then max - 1 else v.toNat

/-- `iv = (int)(v + 0.5f)`, cut to a byte. -/
def toByte (v : ℚ) : PixelOutcome Byte := do
  let iv ← toCInt (fadd v (1 / 2))
  return BitVec.ofNat 8 (if iv < 0 then 0 else if 255 < iv then 255 else iv.toNat)

/-- `(float)px[c]` for the pixel at `x`, `y` of an image of width `w`. -/
def bradsenseChannel (src : Buffer) (w x y : Nat) (c : Nat) : PixelOutcome ℚ := do
  let b ← src.read ((y * w + x) * 4 + c)
  return f32 b.toNat

/-! ### Scaling -/

/-- `sx_scale` and `sy_scale`. -/
def axisScale (s : Nat) : ℚ := if 1 < s then f32 (s - 1 : Nat) else 0

/-- `dx_denom` and `dy_denom`. -/
def axisDenom (d : Nat) : ℚ := if 1 < d then f32 (d - 1 : Nat) else 1

/-- `sx` and `sy`: where the `k`-th of `d` pixels stands among `s`. -/
def axisCoord (s d k : Nat) : ℚ := fdiv (fmul (f32 k) (axisScale s)) (axisDenom d)

/-- `x0`, `x1` and `fx`, or those of `y`. -/
structure LinearTaps where
  lo : Nat
  hi : Nat
  frac : ℚ

def linearTaps (s d k : Nat) : PixelOutcome LinearTaps := do
  let i ← toCInt (axisCoord s d k)
  let lo := bradsenseClampU i s
  let next ← cInt (i + 1)
  return ⟨lo, bradsenseClampU next s, fsub (axisCoord s d k) (f32 lo)⟩

/-- One channel of a pixel of `bradsense_bilinear`. -/
def bilinearChannel (src : Buffer) (sw : Nat) (ty tx : LinearTaps) (c : Nat) :
    PixelOutcome Byte := do
  let p00 ← bradsenseChannel src sw tx.lo ty.lo c
  let p01 ← bradsenseChannel src sw tx.hi ty.lo c
  let p10 ← bradsenseChannel src sw tx.lo ty.hi c
  let p11 ← bradsenseChannel src sw tx.hi ty.hi c
  let top := fadd (fmul p00 (fsub 1 tx.frac)) (fmul p01 tx.frac)
  let bot := fadd (fmul p10 (fsub 1 tx.frac)) (fmul p11 tx.frac)
  toByte (fadd (fmul top (fsub 1 ty.frac)) (fmul bot ty.frac))

/-- `bradsense_cubic_weights`. -/
def bradsenseCubicWeights (t : ℚ) : Fin 4 → ℚ :=
  ![fsub (fadd (fmul (fmul (fmul (-1 / 2) t) t) t) (fmul t t)) (fmul (1 / 2) t),
    fadd (fsub (fmul (fmul (fmul (3 / 2) t) t) t) (fmul (fmul (5 / 2) t) t)) 1,
    fadd (fadd (fmul (fmul (fmul (-3 / 2) t) t) t) (fmul (fmul 2 t) t)) (fmul (1 / 2) t),
    fsub (fmul (fmul (fmul (1 / 2) t) t) t) (fmul (fmul (1 / 2) t) t)]

/-- `xt` and `wx`, or those of `y`. -/
structure CubicTaps where
  tap : Fin 4 → Nat
  weight : Fin 4 → ℚ

def cubicTaps (s d k : Nat) : PixelOutcome CubicTaps := do
  let i ← toCInt (axisCoord s d k)
  let lo := bradsenseClampU i s
  let before ← cInt (lo - 1)
  let behind ← cInt (lo + 1)
  let last ← cInt (lo + 2)
  return ⟨![bradsenseClampU before s, lo, bradsenseClampU behind s, bradsenseClampU last s],
    bradsenseCubicWeights (fsub (axisCoord s d k) (f32 lo))⟩

/-- One channel of a pixel of `bradsense_bicubic`. -/
def bicubicChannel (src : Buffer) (sw : Nat) (ty tx : CubicTaps) (c : Nat) : PixelOutcome Byte := do
  let v ← Outcome.forRange 4 (fun j v => do
    let row ← Outcome.forRange 4 (fun i row => do
      let p ← bradsenseChannel src sw (tx.tap i) (ty.tap j) c
      return fadd row (fmul (tx.weight i) p)) 0
    return fadd v (fmul (ty.weight j) row)) 0
  toByte v

/-- The loops of both filters: the taps of a row and of a column, and then the four channels. -/
def resample {α : Type} (axis : Nat → Nat → Nat → PixelOutcome α)
    (channel : Buffer → Nat → α → α → Nat → PixelOutcome Byte) (src : Buffer) (sw sh dw dh : Nat) :
    Buffer → PixelOutcome Buffer :=
  Outcome.forRange dh fun dy dst => do
    let ty ← axis sh dh dy
    Outcome.forRange dw (fun dx dst => do
      let tx ← axis sw dw dx
      Outcome.forRange 4 (fun c dst => do
        let v ← channel src sw ty tx c
        dst.write ((dy * dw + dx) * 4 + c) v) dst) dst

def bradsenseBilinear : Buffer → Nat → Nat → Nat → Nat → Buffer → PixelOutcome Buffer :=
  resample linearTaps bilinearChannel

def bradsenseBicubic : Buffer → Nat → Nat → Nat → Nat → Buffer → PixelOutcome Buffer :=
  resample cubicTaps bicubicChannel

/-! ### Sharpening -/

def bradsenseLuma (r g b : Byte) : ℚ :=
  fadd (fadd (fmul (f32 (2126 / 10000)) (f32 r.toNat)) (fmul (f32 (7152 / 10000)) (f32 g.toNat)))
    (fmul (f32 (722 / 10000)) (f32 b.toNat))

def lumaAt (img : Buffer) (p : Nat) : PixelOutcome ℚ := do
  let r ← img.read p
  let g ← img.read (p + 1)
  let b ← img.read (p + 2)
  return bradsenseLuma r g b

/-- `sum`, `mn`, `mx`, `center` and `n`. -/
structure LumaStats where
  sum : ℚ
  mn : ℚ
  mx : ℚ
  center : Option Nat
  n : Nat

def lumaStep (img : Buffer) (w y x yy xx : Nat) (st : LumaStats) : PixelOutcome LumaStats := do
  let p := yy * (w * 4) + xx * 4
  let luma ← lumaAt img p
  return {
    sum := fadd st.sum luma
    mn := if luma < st.mn then luma else st.mn
    mx := if st.mx < luma then luma else st.mx
    center := if yy = y ∧ xx = x then some p else st.center
    n := st.n + 1 }

/-- The neighbours of a coordinate among `n`: the first and the last. -/
def neighbours (n k : Nat) : Nat × Nat :=
  (if k = 0 then 0 else k - 1, if n ≤ k + 1 then n - 1 else k + 1)

/-- The statistics of the three by three pixels around one. -/
def lumaStats (img : Buffer) (w h y x : Nat) : PixelOutcome LumaStats :=
  let (y0, y1) := neighbours h y
  let (x0, x1) := neighbours w x
  Outcome.forRange (y1 + 1 - y0) (fun j st =>
    Outcome.forRange (x1 + 1 - x0) (fun i st => lumaStep img w y x (y0 + j) (x0 + i) st) st)
    ⟨0, 1000000000, -1000000000, none, 0⟩

/-- The correction of one channel, cut to the luma around it. -/
def sharpenChannel (st : LumaStats) (d : ℚ) (p : Nat) (c : Nat) (img : Buffer) :
    PixelOutcome Buffer := do
  let b ← img.read (p + c)
  let v := fadd (f32 b.toNat) d
  let lo := fsub st.mn 12
  let hi := fadd st.mx 12
  let v := if v < lo then lo else v
  let v := if hi < v then hi else v
  let o ← toByte v
  img.write (p + c) o

def sharpenPixel (mag : ℚ) (w h y x : Nat) (img : Buffer) : PixelOutcome Buffer := do
  let st ← lumaStats img w h y x
  match st.center with
  | none => .undefined .nullPointer
  | some p =>
      let luma ← lumaAt img p
      let detail := fsub luma (fdiv st.sum (f32 st.n))
      if detail < -2 ∨ 2 < detail then
        Outcome.forRange 3 (fun c img => sharpenChannel st (fmul mag detail) p c img) img
      else .ok img

def bradsenseSharpen (w h : Nat) (mag : ℚ) (img : Buffer) : PixelOutcome Buffer :=
  if w < 3 ∨ h < 3 ∨ mag ≤ 0 then .ok img
  else
    let mag := if 3 / 2 < mag then 3 / 2 else mag
    Outcome.forRange h (fun y img => Outcome.forRange w (fun x img =>
      sharpenPixel mag w h y x img) img) img

/-! ### The core -/

inductive Filter where
  | bilinear
  | bicubic
  deriving DecidableEq, Repr

/-- `struct bradsense_upscale_cfg`, with a finite gain. -/
structure UpscaleCfg where
  filter : Filter
  sharpen : Bool
  sharpenMag : ℚ

/-- `dflt`. -/
def UpscaleCfg.dflt : UpscaleCfg := ⟨.bicubic, true, 3 / 4⟩

def frameDims (w h : Nat) : Bool := 1 ≤ w && 1 ≤ h && w ≤ framesMax && h ≤ framesMax

def bradsenseUpscaleRgba (src : Option Buffer) (sw sh : Nat) (dst : Option Buffer) (dw dh : Nat)
    (cfg : Option UpscaleCfg) : PixelOutcome (Int × Option Buffer) :=
  match src, dst with
  | some src, some out =>
      if frameDims sw sh && frameDims dw dh then do
        let cfg := cfg.getD .dflt
        let out ← match cfg.filter with
          | .bilinear => bradsenseBilinear src sw sh dw dh out
          | .bicubic => bradsenseBicubic src sw sh dw dh out
        let out ← if cfg.sharpen then bradsenseSharpen dw dh cfg.sharpenMag out else .ok out
        return (0, some out)
      else .ok (-einval, dst)
  | _, _ => .ok (-einval, dst)

/-! ### The driver -/

def enodata : Int := 61
def enotsup : Int := 95
def enobufs : Int := 105

def frameGenLatencyUs : Word := 4000
def maxAccumFrames : Word := 16
def semanticW : Nat := 1920
def semanticH : Nat := 1080

/-- Values of `enum bradsense_quality_mode`, which a caller may leave. -/
def balanced : Word := 1
def performance : Word := 2
def nativeAa : Word := 4

/-- And of `enum bradsense_frame_gen`. -/
def fgOff : Word := 0
def fg2x : Word := 2

/-- The members of `struct bradsense_quality_res` that are read. -/
structure QualityRes where
  targetW : Word
  targetH : Word
  nsuLoadPct : Word

def qualityModes : List QualityRes :=
  [⟨3840, 2160, 60⟩, ⟨3840, 2160, 40⟩, ⟨3840, 2160, 25⟩, ⟨3840, 2160, 15⟩, ⟨3840, 2160, 10⟩]

structure FrameGenStats where
  realFrames : Word
  genFrames : Word
  genLatencyUs : Word

structure PerfStats where
  nsuLoadPct : Word
  avgLatencyUs : Word
  peakLatencyUs : Word
  framesProcessed : Size
  pixelsReconstructed : Size
  semanticBytesRx : Size
  fg : FrameGenStats
  expertSwitches : Word
  tifaPredictions : Word
  tifaHits : Word

structure AccumConfig where
  staticMaxFrames : Word
  slowMaxFrames : Word
  fastMaxFrames : Word
  newBootstrapFrames : Word

/-- `front_rgba`, `front_w` and `front_h`. -/
structure FrontFrame where
  rgba : Buffer
  w : Word
  h : Word

/-- The members of `bs_state` that are read. -/
structure BsState where
  initialized : Bool
  quality : Word
  fg : Word
  accum : AccumConfig
  stats : PerfStats
  semanticFeeds : Size
  lastFrameId : Size
  front : Option FrontFrame

def PerfStats.zero : PerfStats := ⟨0, 0, 0, 0, 0, 0, ⟨0, 0, 0⟩, 0, 0, 0⟩

/-- `bs_state` before the first call. -/
def BsState.zero : BsState := ⟨false, 0, 0, ⟨0, 0, 0, 0⟩, .zero, 0, 0, none⟩

def bradsenseInit (s : BsState) (quality fg : Word) : Int × BsState :=
  if nativeAa < quality then (-einval, s)
  else if fg2x < fg then (-einval, s)
  else (0, { BsState.zero with
    initialized := true, quality := quality, fg := fg, accum := ⟨16, 8, 2, 3⟩ })

def bradsenseSetQuality (s : BsState) (mode : Word) : Int × BsState :=
  if ¬ s.initialized then (-enodev, s)
  else if nativeAa < mode then (-einval, s)
  else (0, { s with quality := mode })

def bradsenseSetFrameGen (s : BsState) (fg : Word) : Int × BsState :=
  if ¬ s.initialized then (-enodev, s)
  else if fg2x < fg then (-einval, s)
  else (0, { s with fg := fg })

/-- The bytes of the five maps of a `struct bradsense_semantic_feed`. -/
def semanticFeedBytes : Nat :=
  semanticW * semanticH + semanticW * semanticH / 2 + 2 * (semanticW * semanticH) +
    2 * (semanticW * semanticH * 2) + 4 * (semanticW * semanticH)

/-- `feed` says that the pointer is not null: the maps are not read. -/
def bradsenseSubmitSemantic (s : BsState) (feed : Bool) : Int × BsState :=
  if ¬ s.initialized then (-enodev, s)
  else if ¬ feed then (-einval, s)
  else (0, { s with
    stats := { s.stats with
      semanticBytesRx := s.stats.semanticBytesRx + BitVec.ofNat 64 semanticFeedBytes }
    semanticFeeds := s.semanticFeeds + 1 })

/-- `struct bradsense_frame`. -/
structure FrameArg where
  w : Word
  h : Word
  rgba : Option Buffer

/-- `granted` says whether `realloc` finds the memory. -/
def bradsenseSupplyFrame (s : BsState) (frame : Option FrameArg) (granted : Bool) :
    PixelOutcome (Int × BsState) :=
  if ¬ s.initialized then .ok (-enodev, s)
  else match frame with
  | none => .ok (-einval, s)
  | some ⟨_, _, none⟩ => .ok (-einval, s)
  | some ⟨w, h, some rgba⟩ =>
      if frameDims w.toNat h.toNat then
        if granted then
          let n := w.toNat * h.toNat * 4
          if n ≤ rgba.size then .ok (0, { s with front := some ⟨⟨rgba.bytes, n⟩, w, h⟩ })
          else .undefined (.read rgba.size)
        else .ok (-enomem, s)
      else .ok (-einval, s)

/-- The statistics after a frame of the mode `qr`. -/
def PerfStats.reconstructed (st : PerfStats) (qr : QualityRes) (needed : Size) : PerfStats :=
  let avg := (st.avgLatencyUs + qr.nsuLoadPct * 10) / 2
  { st with
    framesProcessed := st.framesProcessed + 1
    pixelsReconstructed := st.pixelsReconstructed + needed / 4
    avgLatencyUs := avg
    peakLatencyUs := if st.peakLatencyUs < avg then avg else st.peakLatencyUs
    nsuLoadPct := qr.nsuLoadPct }

def QualityRes.needed (qr : QualityRes) : Size :=
  qr.targetW.setWidth 64 * qr.targetH.setWidth 64 * 4

/-- `quality_modes[bs_state.quality]`. -/
def BsState.mode (s : BsState) : PixelOutcome QualityRes :=
  match qualityModes[s.quality.toNat]? with
  | some qr => .ok qr
  | none => .undefined (.read s.quality.toNat)

def bradsenseReconstruct (s : BsState) (frameId : Size) (output : Option Buffer)
    (outputSize : Size) :
    PixelOutcome (Int × BsState × Option Buffer) :=
  if ¬ s.initialized then .ok (-enodev, s, output)
  else if output.isNone ∨ outputSize = 0 then .ok (-einval, s, output)
  else match s.front with
  | none => .ok (-enodata, s, output)
  | some front => do
      let qr ← s.mode
      if outputSize < qr.needed then return (-enobufs, s, output)
      let up ← bradsenseUpscaleRgba (some front.rgba) front.w.toNat front.h.toNat output
          qr.targetW.toNat
        qr.targetH.toNat (some .dflt)
      return (0, { s with stats := s.stats.reconstructed qr qr.needed, lastFrameId := frameId },
        up.2)

/-- `memset(b, 0, n)`. -/
def Buffer.clear (b : Buffer) (n : Nat) : PixelOutcome Buffer :=
  if n ≤ b.size then .ok { b with bytes := fun i => if i < n then 0 else b.bytes i }
    else .undefined (.write b.size)

def PerfStats.generated (st : PerfStats) : PerfStats :=
  { st with
    fg := ⟨st.fg.realFrames + 2, st.fg.genFrames + 1, frameGenLatencyUs⟩
    framesProcessed := st.framesProcessed + 1 }

def bradsenseGenerateFrame (s : BsState) (frameN frameN1 : Size) (output : Option Buffer)
    (outputSize : Size) :
    PixelOutcome (Int × BsState × Option Buffer) :=
  if ¬ s.initialized then .ok (-enodev, s, output)
  else match output with
  | none => .ok (-einval, s, output)
  | some out =>
      if outputSize = 0 then .ok (-einval, s, output)
      else if s.fg = fgOff then .ok (-enotsup, s, output)
      else if frameN1 ≤ frameN then .ok (-einval, s, output)
      else do
        let qr ← s.mode
        if outputSize < qr.needed then return (-enobufs, s, output)
        let out ← out.clear qr.needed.toNat
        return (0, { s with stats := s.stats.generated }, some out)

/-- With what is stored at `stats`, unless that is null. -/
def bradsenseGetPerf (s : BsState) (stats : Bool) : Int × Option PerfStats :=
  if ¬ s.initialized then (-enodev, none)
  else if ¬ stats then (-einval, none)
  else (0, some s.stats)

def bradsenseGetAccumConfig (s : BsState) (cfg : Bool) : Int × Option AccumConfig :=
  if ¬ s.initialized then (-enodev, none)
  else if ¬ cfg then (-einval, none)
  else (0, some s.accum)

def bradsenseSetAccumConfig (s : BsState) (cfg : Option AccumConfig) : Int × BsState :=
  if ¬ s.initialized then (-enodev, s)
  else match cfg with
  | none => (-einval, s)
  | some cfg =>
      if cfg.staticMaxFrames < 1 ∨ maxAccumFrames < cfg.staticMaxFrames then (-einval, s)
      else if cfg.slowMaxFrames < 1 ∨ cfg.staticMaxFrames < cfg.slowMaxFrames then (-einval, s)
      else if cfg.fastMaxFrames < 1 ∨ cfg.slowMaxFrames < cfg.fastMaxFrames then (-einval, s)
      else if cfg.newBootstrapFrames < 1 ∨ 8 < cfg.newBootstrapFrames then (-einval, s)
      else (0, { s with accum := cfg })

/-- What `bradsense_tifa_telemetry` stores where it is given a place. -/
structure Telemetry where
  utilPct : Word
  complexity : Word
  recommendedQuality : Word

def bradsenseTifaTelemetry (s : BsState) : Int × BsState × Option Telemetry :=
  if ¬ s.initialized then (-enodev, s, none)
  else
    let feedRate : Word := if 0 < s.semanticFeeds then (s.semanticFeeds / 60).setWidth 32 else 0
    (0,
      { s with stats := { s.stats with
        tifaPredictions := s.stats.tifaPredictions + 1
        tifaHits := s.stats.tifaHits + 1 } },
      some {
        utilPct := s.stats.nsuLoadPct
        complexity := if 30 < feedRate then feedRate else 30
        recommendedQuality :=
          if 80 < s.stats.nsuLoadPct then performance
          else if 60 < s.stats.nsuLoadPct then balanced
          else s.quality })

/-! ### Runs of the driver -/

inductive SenseCall where
  | init (quality fg : Word)
  | setQuality (mode : Word)
  | setFrameGen (fg : Word)
  | submitSemantic (feed : Bool)
  | supplyFrame (frame : Option FrameArg) (granted : Bool)
  | reconstruct (frameId : Size) (output : Option Buffer) (outputSize : Size)
  | generateFrame (frameN frameN1 : Size) (output : Option Buffer) (outputSize : Size)
  | getPerf (stats : Bool)
  | getAccumConfig (cfg : Bool)
  | setAccumConfig (cfg : Option AccumConfig)
  | tifaTelemetry

/-- What a call returns, and what it leaves where the caller looks for it. -/
structure SenseReply where
  code : Int
  output : Option Buffer
  perf : Option PerfStats
  accum : Option AccumConfig
  telemetry : Option Telemetry

def SenseReply.plain (code : Int) : SenseReply := ⟨code, none, none, none, none⟩

def senseCall (s : BsState) : SenseCall → PixelOutcome (SenseReply × BsState)
  | .init quality fg => let (code, s) := bradsenseInit s quality fg; .ok (.plain code, s)
  | .setQuality mode => let (code, s) := bradsenseSetQuality s mode; .ok (.plain code, s)
  | .setFrameGen fg => let (code, s) := bradsenseSetFrameGen s fg; .ok (.plain code, s)
  | .submitSemantic feed => let (code, s) := bradsenseSubmitSemantic s feed; .ok (.plain code, s)
  | .supplyFrame frame granted => do
      let (code, s) ← bradsenseSupplyFrame s frame granted
      return (.plain code, s)
  | .reconstruct frameId output outputSize => do
      let (code, s, out) ← bradsenseReconstruct s frameId output outputSize
      return ({ SenseReply.plain code with output := out }, s)
  | .generateFrame frameN frameN1 output outputSize => do
      let (code, s, out) ← bradsenseGenerateFrame s frameN frameN1 output outputSize
      return ({ SenseReply.plain code with output := out }, s)
  | .getPerf stats =>
      let (code, perf) := bradsenseGetPerf s stats
      .ok ({ SenseReply.plain code with perf }, s)
  | .getAccumConfig cfg =>
      let (code, accum) := bradsenseGetAccumConfig s cfg
      .ok ({ SenseReply.plain code with accum }, s)
  | .setAccumConfig cfg => let (code, s) := bradsenseSetAccumConfig s cfg; .ok (.plain code, s)
  | .tifaTelemetry =>
      let (code, s, telemetry) :=
        bradsenseTifaTelemetry s; .ok ({ SenseReply.plain code with telemetry }, s)

/-- The replies to a sequence of calls, and the state after it. -/
def senseRun : BsState → List SenseCall → PixelOutcome (List SenseReply × BsState)
  | s, [] => .ok ([], s)
  | s, call :: calls => do
      let (reply, s) ← senseCall s call
      let (replies, s) ← senseRun s calls
      return (reply :: replies, s)

end BradVector.Sense
