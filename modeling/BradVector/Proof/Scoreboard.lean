import BradVector.BradvectorCore
import BradVector.Library.Commands

/-!
# The scoreboard of the vector core

A ghost list remembers the instructions that have left issue and are not yet written back. The reset
leaves every warp inactive and nothing makes one active, so that the fetch never leaves its idle
state: no instruction reaches issue, no entry is ever marked, and the scoreboard is right.
-/

namespace BradVector.Rtl

open CSem

/-! ### The instructions in flight -/

/-- An instruction that leaves issue. -/
structure Issued where
  warp : BitVec 5
  opcode : BitVec 6
  dst : BitVec 5
  isVector : Bool
  isScalar : Bool
  deriving DecidableEq, Repr

/-- The register file that the instruction writes its destination in. A load and a gather write a
vector. -/
def Issued.writes (x : Issued) : RegClass → Bool
  | .vector => x.isVector || x.opcode == opGather || x.opcode == opLoad
  | .scalar => x.isScalar

/-- The register is the destination of the instruction. -/
def Issued.HasDest (x : Issued) (c : RegClass) (warp reg : BitVec 5) : Prop :=
  x.writes c = true ∧ x.warp = warp ∧ x.dst = reg

/-- An instruction of the list has the register as destination. -/
def Busy (xs : List Issued) (c : RegClass) (warp reg : BitVec 5) : Prop :=
  ∃ x ∈ xs, x.HasDest c warp reg

theorem not_busy_nil {c : RegClass} {warp reg : BitVec 5} : ¬ Busy [] c warp reg :=
  fun ⟨_, hx, _⟩ => List.not_mem_nil hx

/-- The instruction that the register read takes at the next edge. -/
def BradvectorCore.leaving (s : BradvectorCore) : List Issued :=
  if s.iValid && s.iPredOk then [⟨s.iWarpId, s.iOpcode, s.iDstReg, s.iIsVector, s.iIsScalar⟩]
    else []

/-- The core with the instructions that have left issue and are not yet written back, the oldest
first. -/
structure CoreRun where
  core : BradvectorCore
  outstanding : List Issued

namespace CoreRun

def start : CoreRun := ⟨.reset, []⟩

variable (r : CoreRun)

/-- What the writeback does not complete at the next edge. -/
def remaining : List Issued := if r.core.wValid then r.outstanding.drop 1 else r.outstanding

def next (inp : Cycle) : CoreRun := ⟨r.core.clock inp, r.remaining ++ r.core.leaving⟩

/-- An entry of the scoreboard is nonzero exactly when an instruction with the register as
destination has left issue and is not yet written back. -/
def Tracks : Prop :=
  ∀ c warp reg, warp.toNat < numWarps → reg ≠ 0 →
    (r.core.sbRdy c warp reg ≠ 0 ↔ Busy r.outstanding c warp reg)

end CoreRun

/-! ### The stages behind issue -/

/-- What a stage behind issue knows of its instruction. -/
structure Stage where
  valid : Bool
  warp : BitVec 5
  dst : BitVec 5
  isVector : Bool
  isScalar : Bool

/-- The stages behind issue, and the scoreboard. -/
structure BackEnd where
  read : Stage
  predOk : Bool
  execute : Stage
  writeback : Stage
  sbRdy : RegClass → BitVec 5 → BitVec 5 → BitVec 16

namespace BradvectorCore

def backEnd (s : BradvectorCore) : BackEnd where
  read := ⟨s.rValid, s.rWarpId, s.rDstReg, s.rIsVector, s.rIsScalar⟩
  predOk := s.rPredOk
  execute := ⟨s.eValid, s.eWarpId, s.eDstReg, s.eIsVector, s.eIsScalar⟩
  writeback := ⟨s.wValid, s.wWarpId, s.wDstReg, s.wIsVector, s.wIsScalar⟩
  sbRdy := s.sbRdy

variable {s t : BradvectorCore} {inp : Cycle} {c : RegClass} {warp reg : BitVec 5}

theorem backEnd_clockFetch : (s.clockFetch t inp).backEnd = t.backEnd := by
  unfold clockFetch
  cases s.fetchState with
  | idle =>
      dsimp only
      split_ifs
      all_goals rfl
  | wait =>
      dsimp only
      split_ifs
      all_goals rfl
  | ready =>
      dsimp only
      split_ifs
      all_goals rfl

theorem backEnd_clockDecode : (s.clockDecode t inp).backEnd = t.backEnd := rfl

theorem backEnd_clockIssue : (s.clockIssue t inp).backEnd = t.backEnd := by
  unfold clockIssue
  dsimp only
  split_ifs
  all_goals rfl

theorem backEnd_clockScoreboard :
    (s.clockScoreboard t inp).backEnd =
      { t.backEnd with sbRdy := (s.clockScoreboard t inp).sbRdy } := rfl

theorem backEnd_clockWriteback :
    (s.clockWriteback t).backEnd = { t.backEnd with writeback := s.backEnd.execute } := rfl

theorem backEnd_clockExecute :
    (s.clockExecute t).backEnd =
      { t.backEnd with execute := { s.backEnd.read with valid := s.rValid && s.rPredOk } } := rfl

/-- Each stage takes over from the one before it. -/
theorem backEnd_clock :
    (s.clock inp).backEnd =
      { read := (s.clockRead s).backEnd.read
        predOk := (s.clockRead s).backEnd.predOk
        execute := { s.backEnd.read with valid := s.rValid && s.rPredOk }
        writeback := s.backEnd.execute
        sbRdy := (s.clockScoreboard s inp).sbRdy } :=
  calc
    (s.clock inp).backEnd = (s.clockDecode _ inp).backEnd := backEnd_clockFetch
    _ = (s.clockIssue _ inp).backEnd := backEnd_clockDecode
    _ = (s.clockScoreboard (s.clockWriteback (s.clockExecute (s.clockRead s))) inp).backEnd :=
      backEnd_clockIssue
    _ = _ := by
      rw [backEnd_clockScoreboard, backEnd_clockWriteback, backEnd_clockExecute]
      rfl

end BradvectorCore

/-! ### A core that nothing starts -/

/-- No warp is active, no stage holds an instruction, and no entry of the scoreboard is marked. -/
structure BradvectorCore.Dormant (s : BradvectorCore) : Prop where
  inactive : ∀ warp, s.warpActive warp = 0
  idle : s.fetchState = .idle
  fetch : s.fValid = false
  decode : s.dValid = false
  issue : s.iValid = false
  read : s.rValid = false
  execute : s.eValid = false
  writeback : s.wValid = false
  entries : ∀ c warp reg, s.sbRdy c warp reg = 0

namespace BradvectorCore

variable {s : BradvectorCore} {inp : Cycle}

theorem dormant_reset : reset.Dormant :=
  ⟨fun _ => rfl, rfl, rfl, rfl, rfl, rfl, rfl, rfl, fun _ _ _ => rfl⟩

/-- The fetch finds no warp to wait for. -/
theorem Dormant.clockFetch (h : s.Dormant) (t : BradvectorCore) (inp : Cycle) :
    (s.clockFetch t inp).warpActive = t.warpActive ∧ (s.clockFetch t inp).fetchState = .idle ∧
      (s.clockFetch t inp).fValid = false ∧ (s.clockFetch t inp).dValid = t.dValid ∧
      (s.clockFetch t inp).iValid = t.iValid := by
  unfold BradvectorCore.clockFetch
  rw [h.idle, h.inactive, if_neg (not_not_intro rfl)]
  dsimp only
  split_ifs
  · exact ⟨rfl, rfl, rfl, rfl, rfl⟩
  · exact ⟨rfl, rfl, rfl, rfl, rfl⟩

theorem Dormant.clockIssue (h : s.Dormant) (t : BradvectorCore) (inp : Cycle) :
    (s.clockIssue t inp).warpActive = t.warpActive ∧ (s.clockIssue t inp).iValid = false := by
  unfold BradvectorCore.clockIssue
  simp only [h.decode, Bool.false_and, Bool.false_eq_true, if_false]
  split_ifs
  · exact ⟨rfl, rfl⟩
  · exact ⟨rfl, rfl⟩

theorem warpActive_clockScoreboard {t : BradvectorCore} :
    (s.clockScoreboard (s.clockWriteback (s.clockExecute t)) inp).warpActive = t.warpActive := rfl

theorem Dormant.clockRead (h : s.Dormant) : s.clockRead s = { s with rValid := false } := by
  unfold BradvectorCore.clockRead
  rw [h.issue]
  rfl

/-- The processes behind issue pass on that they hold nothing. -/
theorem Dormant.backEnd_clock (h : s.Dormant) (inp : Cycle) :
    (s.clock inp).rValid = false ∧ (s.clock inp).eValid = false ∧ (s.clock inp).wValid = false ∧
      ∀ c warp reg, (s.clock inp).sbRdy c warp reg = 0 := by
  have hback : (s.clock inp).backEnd = _ := BradvectorCore.backEnd_clock
  refine ⟨?_, ?_, ?_, fun c warp reg => ?_⟩
  · have hread := congrArg (fun b => b.read.valid) hback
    rw [h.clockRead] at hread
    exact hread
  · have hexecute : (s.clock inp).eValid = (s.rValid && s.rPredOk) :=
      congrArg (fun b => b.execute.valid) hback
    rw [hexecute, h.read, Bool.false_and]
  · have hwriteback : (s.clock inp).wValid = s.eValid := congrArg (fun b => b.writeback.valid) hback
    rw [hwriteback, h.execute]
  · have hmarked : s.marked c warp reg = false := by simp [marked, h.issue]
    have hreleased : s.released c warp reg = false := by simp [released, h.writeback]
    calc
      (s.clock inp).sbRdy c warp reg = (s.clockScoreboard s inp).sbRdy c warp reg :=
        congrArg (fun b => b.sbRdy c warp reg) hback
      _ = s.sbRdy c warp reg := by
        unfold clockScoreboard
        simp [hmarked, hreleased]
      _ = 0 := h.entries c warp reg

theorem Dormant.clock (h : s.Dormant) (inp : Cycle) : (s.clock inp).Dormant := by
  obtain ⟨hread, hexecute, hwriteback, hentries⟩ := h.backEnd_clock inp
  generalize hinner : s.clockScoreboard (s.clockWriteback (s.clockExecute (s.clockRead s))) inp =
    inner
  have hactive : inner.warpActive = s.warpActive := by
    rw [← hinner, warpActive_clockScoreboard, h.clockRead]
  have hclock : s.clock inp =
      s.clockFetch (s.clockDecode (s.clockIssue inner inp) inp) inp := by
    unfold BradvectorCore.clock
    rw [hinner]
  obtain ⟨hissueActive, hissueValid⟩ := h.clockIssue inner inp
  obtain ⟨hfetchActive, hidle, hfetch, hdecode, hissue⟩ :=
    h.clockFetch (s.clockDecode (s.clockIssue inner inp) inp) inp
  rw [← hclock] at hfetchActive hidle hfetch hdecode hissue
  refine ⟨fun warp => ?_, hidle, hfetch, hdecode.trans h.fetch, hissue.trans hissueValid, hread,
    hexecute, hwriteback, hentries⟩
  calc
    (s.clock inp).warpActive warp = (s.clockIssue inner inp).warpActive warp :=
      congrFun hfetchActive warp
    _ = s.warpActive warp := by rw [hissueActive, hactive]
    _ = 0 := h.inactive warp

theorem Dormant.leaving (h : s.Dormant) : s.leaving = [] := by
  unfold BradvectorCore.leaving
  rw [h.issue]
  rfl

end BradvectorCore

/-! ### Runs -/

/-- Nothing ever leaves issue. -/
theorem run_dormant (cycles : List Cycle) :
    (cycles.foldl CoreRun.next .start).core.Dormant ∧
      (cycles.foldl CoreRun.next .start).outstanding = [] := by
  have hinputs : Throughout CoreRun.next (fun _ _ => True) .start cycles :=
    throughout_of_forall fun _ _ => trivial
  apply hinputs.foldl (I := fun r => r.core.Dormant ∧ r.outstanding = [])
  · exact ⟨BradvectorCore.dormant_reset, rfl⟩
  · rintro r inp ⟨hdormant, hnone⟩ -
    refine ⟨hdormant.clock inp, ?_⟩
    change r.remaining ++ r.core.leaving = []
    unfold CoreRun.remaining
    rw [hdormant.writeback, hdormant.leaving, hnone]
    rfl

/-- **The scoreboard.** In every state that the core reaches from its reset, whatever it fetches, an
entry is nonzero exactly when an instruction with the register as destination is in flight. -/
theorem scoreboard_tracks (cycles : List Cycle) : (cycles.foldl CoreRun.next .start).Tracks := by
  obtain ⟨hdormant, hnone⟩ := run_dormant cycles
  intro c warp reg _ _
  rw [hnone]
  exact iff_of_false (fun h => h (hdormant.entries c warp reg)) not_busy_nil

end BradVector.Rtl
