import BradVector.BradBp
import BradVector.Library.Potential
import Mathlib.Algebra.Order.BigOperators.Group.Finset

/-!
# What the branch predictor predicts

The tables are a summary of all updates there have been: the predictor answers what the whole log of
them says, however the branches share entries and counters. On any run it mispredicts at most as
often as the best fixed direction for each counter would have it, up to a factor of two and the time
to learn it.
-/

namespace BradVector.Bp

open CSem

variable {c : BpParams}

/-! ### The log of the updates -/

/-- All updates, the outcomes since the last flush, and the outcomes each counter was for; the
newest first. -/
structure BpLog where
  updates : List BpInputs
  outcomes : List Bool
  counted : Fin 256 → List Bool

namespace BpLog

def empty : BpLog := ⟨[], [], fun _ => []⟩

/-- The last eight outcomes. -/
def recent (l : BpLog) : BitVec 8 := (BitVec.ofBoolListLE l.outcomes).setWidth 8

def counter (l : BpLog) (pc : Word) : Fin 256 := (pc.extractLsb' 2 8 ^^^ l.recent).toFin

def next (l : BpLog) (i : BpInputs) : BpLog :=
  if i.flush then { l with outcomes := [] }
  else if i.updateValid then
    { updates := i :: l.updates
      outcomes := i.updateTaken :: l.outcomes
      counted :=
        Function.update l.counted (l.counter i.updatePc)
          (i.updateTaken :: l.counted (l.counter i.updatePc)) }
  else l

/-- The last update for the entry of `pc`. -/
def lastFor (c : BpParams) (l : BpLog) (idx : BitVec c.btbIndexBits) : Option BpInputs :=
  l.updates.find? fun i => btbIdx c i.updatePc == idx

/-- The target of the branch at `pc`, if the last update for its entry was for this branch. -/
def target (c : BpParams) (l : BpLog) (pc : Word) : Option Word :=
  (l.lastFor c (btbIdx c pc)).bind fun i =>
    if i.updatePc >>> 2 = pc >>> 2 then some i.updateTarget else none

/-- The direction for a branch at `pc` to `target`. -/
def direction (c : BpParams) (l : BpLog) (pc target : Word) : Bool :=
  match c.bpType with
  | 1 => (target - pc).slt 0
  | 2 => ((l.counted (l.counter pc)).foldr (fun taken v => nextCntr v taken) 1).msb
  | _ => false

/-- What the log says of the branch at `pc`. -/
def predict (c : BpParams) (l : BpLog) (pc : Word) : Bool × Word :=
  if c.bpType = 1 ∨ c.bpType = 2 then
    match l.target c pc with
    | some target => (l.direction c pc target, target)
    | none => (false, 0)
  else (false, 0)

end BpLog

/-- The entry holds the update, or nothing. -/
def BradBp.Holds (s : BradBp c) (idx : BitVec c.btbIndexBits) : Option BpInputs → Prop
  | none => s.btbValid idx = false
  | some i =>
      s.btbValid idx = true ∧ s.btbTagArr idx = btbTag c i.updatePc ∧
        s.btbTarget idx = i.updateTarget

/-- The registers are a summary of the log. -/
structure BradBp.Summarizes (s : BradBp c) (l : BpLog) : Prop where
  entry : ∀ idx, s.Holds idx (l.lastFor c idx)
  ghist : c.bpType = 2 → ∀ k < c.ghistBits, s.ghist.getLsbD k = l.outcomes.getD k false
  cntrTable : c.bpType = 2 → ∀ i, s.cntrTable i = (l.counted i).foldr
    (fun taken v => nextCntr v taken) 1

section Log

variable {s : BradBp c} {l : BpLog}

theorem btbTag_eq_iff {a b : Word} (h : btbIdx c a = btbIdx c b) :
    btbTag c a = btbTag c b ↔ a >>> 2 = b >>> 2 := by
  have hlt := c.index_lt
  have hidx : ∀ k < c.btbIndexBits, a.getLsbD (2 + k) = b.getLsbD (2 + k) := by
    intro k hk
    have hbit := congrArg (fun x => x.getLsbD k) h
    simpa [btbIdx, hk] using hbit
  constructor
  · intro htag
    apply BitVec.eq_of_getLsbD_eq
    intro k hk
    rw [BitVec.getLsbD_ushiftRight, BitVec.getLsbD_ushiftRight]
    by_cases hlow : k < c.btbIndexBits
    · exact hidx k hlow
    · by_cases hhigh : k < 30
      · have hbit := congrArg (fun x => x.getLsbD (k - c.btbIndexBits)) htag
        have hin : k - c.btbIndexBits < c.btbTagBits := by
          unfold BpParams.btbTagBits
          omega
        have hat : c.btbIndexBits + 2 + (k - c.btbIndexBits) = 2 + k := by omega
        simpa [btbTag, hin, hat] using hbit
      · rw [BitVec.getLsbD_of_ge a _ (by omega), BitVec.getLsbD_of_ge b _ (by omega)]
  · intro hline
    apply BitVec.eq_of_getLsbD_eq
    intro k hk
    have hbit := congrArg (fun x => x.getLsbD (c.btbIndexBits + k)) hline
    have hat : c.btbIndexBits + 2 + k = 2 + (c.btbIndexBits + k) := by omega
    simpa [btbTag, hk, hat] using hbit

theorem BradBp.Summarizes.reset (c : BpParams) : (BradBp.reset c).Summarizes .empty :=
  ⟨fun _ => rfl, fun _ k _ => by simp [BradBp.reset, BpLog.empty], fun _ _ => rfl⟩

/-- Both find a counter in the same way. -/
theorem BradBp.Summarizes.gshareIdx (h : s.Summarizes l) (htype : c.bpType = 2) (pc : Word) :
    s.gshareIdx pc = l.counter pc := by
  have hrecent : s.ghist.extractLsb' 0 8 = l.recent := by
    apply BitVec.eq_of_getLsbD_eq
    intro k hk
    have hbit := h.ghist htype k (Nat.lt_of_lt_of_le hk c.ghist_ge)
    rw [BpLog.recent, BitVec.getLsbD_setWidth, BitVec.getLsbD_ofBoolListLE, ← hbit]
    simp [hk]
  rw [BradBp.gshareIdx, BpLog.counter, hrecent]

theorem BradBp.Holds.update {i : BpInputs} {idx : BitVec c.btbIndexBits} {o : Option BpInputs}
    (h : s.Holds idx o) (hflush : i.flush = false) (hvalid : i.updateValid = true) :
    (s.clock i).Holds idx (if btbIdx c i.updatePc = idx then some i else o) := by
  have htag : (s.clock i).btbTagArr =
      Function.update s.btbTagArr (btbIdx c i.updatePc) (btbTag c i.updatePc) := by
    unfold BradBp.clock
    split_ifs <;> simp_all
  have htarget : (s.clock i).btbTarget =
      Function.update s.btbTarget (btbIdx c i.updatePc) i.updateTarget := by
    unfold BradBp.clock
    split_ifs <;> simp_all
  have hbit : (s.clock i).btbValid = Function.update s.btbValid (btbIdx c i.updatePc) true := by
    unfold BradBp.clock
    split_ifs <;> simp_all
  by_cases hidx : btbIdx c i.updatePc = idx
  · subst hidx
    rw [if_pos rfl]
    refine ⟨?_, ?_, ?_⟩
    · rw [hbit, Function.update_self]
    · rw [htag, Function.update_self]
    · rw [htarget, Function.update_self]
  · rw [if_neg hidx]
    cases o with
    | none =>
        unfold BradBp.Holds at h ⊢
        rw [hbit, Function.update_of_ne (Ne.symm hidx), h]
    | some u =>
        unfold BradBp.Holds at h ⊢
        rw [hbit, htag, htarget, Function.update_of_ne (Ne.symm hidx),
          Function.update_of_ne (Ne.symm hidx), Function.update_of_ne (Ne.symm hidx)]
        exact h

/-- A clock edge. -/
theorem BradBp.Summarizes.clock (h : s.Summarizes l) (i : BpInputs) :
    (s.clock i).Summarizes (l.next i) := by
  cases hflush : i.flush with
  | true =>
      have hs : s.clock i = { s with ghist := 0 } := if_pos hflush
      have hl : l.next i = { l with outcomes := [] } := if_pos hflush
      rw [hs, hl]
      exact ⟨h.entry, fun _ k _ => by simp, h.cntrTable⟩
  | false =>
      cases hvalid : i.updateValid with
      | false =>
          have hs : s.clock i = s := by simp [BradBp.clock, hflush, hvalid]
          have hl : l.next i = l := by simp [BpLog.next, hflush, hvalid]
          rw [hs, hl]
          exact h
      | true =>
          have hl : l.next i =
              { updates := i :: l.updates
                outcomes := i.updateTaken :: l.outcomes
                counted :=
                  Function.update l.counted (l.counter i.updatePc)
                    (i.updateTaken :: l.counted (l.counter i.updatePc)) } := by
            simp [BpLog.next, hflush, hvalid]
          refine ⟨fun idx => ?_, fun htype k hk => ?_, fun htype j => ?_⟩
          · have hlast : (l.next i).lastFor c idx =
                if btbIdx c i.updatePc = idx then some i else l.lastFor c idx := by
              rw [hl, BpLog.lastFor, List.find?_cons]
              by_cases hidx : btbIdx c i.updatePc = idx
              · simp [hidx]
              · rw [if_neg hidx, beq_false_of_ne hidx]
                rfl
            rw [hlast]
            exact (h.entry idx).update hflush hvalid
          · have hghist : (s.clock i).ghist =
                s.ghist <<< 1 ||| (BitVec.ofBool i.updateTaken).setWidth c.ghistBits := by
              simp [BradBp.clock, hflush, hvalid, htype]
            rw [hghist, hl, BitVec.getLsbD_or, BitVec.getLsbD_shiftLeft, BitVec.getLsbD_setWidth]
            cases k with
            | zero => simp [hk]
            | succ k =>
                have hbit := h.ghist htype k (by omega)
                simp [hk, hbit]
          · have htable : (s.clock i).cntrTable =
                Function.update s.cntrTable (s.gshareIdx i.updatePc)
                  (nextCntr (s.cntrTable (s.gshareIdx i.updatePc)) i.updateTaken) := by
              simp [BradBp.clock, hflush, hvalid, htype]
            rw [htable, hl, h.gshareIdx htype]
            dsimp only
            by_cases hj : j = l.counter i.updatePc
            · subst hj
              rw [Function.update_self, Function.update_self, List.foldr_cons, h.cntrTable htype]
            · rw [Function.update_of_ne hj, Function.update_of_ne hj, h.cntrTable htype]

theorem BradBp.Summarizes.run (h : s.Summarizes l) (inputs : List BpInputs) :
    (inputs.foldl BradBp.clock s).Summarizes (inputs.foldl BpLog.next l) := by
  induction inputs generalizing s l with
  | nil => exact h
  | cons i inputs ih => exact ih (h.clock i)

theorem BradBp.Summarizes.target (h : s.Summarizes l) (pc : Word) :
    l.target c pc = if s.btbHit pc then some (s.btbTarg pc) else none := by
  have hentry := h.entry (btbIdx c pc)
  unfold BpLog.target
  cases hlast : l.lastFor c (btbIdx c pc) with
  | none =>
      rw [hlast] at hentry
      have hvalid : s.btbValid (btbIdx c pc) = false := hentry
      simp [BradBp.btbHit, hvalid]
  | some i =>
      rw [hlast] at hentry
      obtain ⟨hvalid, htag, htarget⟩ := hentry
      have hidx : btbIdx c i.updatePc = btbIdx c pc := by
        simpa using List.find?_some hlast
      by_cases hline : i.updatePc >>> 2 = pc >>> 2
      · simp [BradBp.btbHit, BradBp.btbTarg, hvalid, htag, htarget, (btbTag_eq_iff hidx).mpr hline,
          hline]
      · have hne : ¬ btbTag c i.updatePc = btbTag c pc := fun h => hline ((btbTag_eq_iff hidx).mp h)
        simp [BradBp.btbHit, hvalid, htag, hne, hline]

theorem BradBp.Summarizes.predict (h : s.Summarizes l) (pc : Word) :
    s.predict pc = l.predict c pc := by
  have htarget := h.target pc
  by_cases htype : c.bpType = 2
  · have hcounter : s.cntrTable (s.gshareIdx pc) =
        (l.counted (l.counter pc)).foldr (fun taken v => nextCntr v taken) 1 := by
      rw [h.cntrTable htype, h.gshareIdx htype]
    cases hhit : s.btbHit pc <;>
      simp [BradBp.predict, BpLog.predict, BpLog.direction, htype, htarget, hhit, hcounter]
  · by_cases hstatic : c.bpType = 1
    · cases hhit : s.btbHit pc <;>
        simp [BradBp.predict, BpLog.predict, BpLog.direction, hstatic, htarget, hhit]
    · have hs : s.predict pc = (false, 0) := by
        unfold BradBp.predict
        split
        · contradiction
        · contradiction
        · rfl
      have hl : l.predict c pc = (false, 0) := if_neg (not_or.mpr ⟨hstatic, htype⟩)
      rw [hs, hl]

end Log

/-- **The predictor answers what the log of all updates says.** -/
theorem predict_run (c : BpParams) (inputs : List BpInputs) (pc : Word) :
    (inputs.foldl BradBp.clock (.reset c)).predict pc =
      (inputs.foldl BpLog.next .empty).predict c pc :=
  ((BradBp.Summarizes.reset c).run inputs).predict pc

/-! ### Mispredictions -/

/-- The update takes place. -/
def BpInputs.records (i : BpInputs) : Bool := i.updateValid && !i.flush

/-- The branch of the update was predicted with another direction, or taken to another target. -/
def mispredicts (s : BradBp c) (i : BpInputs) : Nat :=
  if i.records ∧ ((s.predict i.updatePc).1 ≠ i.updateTaken ∨
      (i.updateTaken ∧ (s.predict i.updatePc).2 ≠ i.updateTarget)) then 1 else 0

/-- A taken branch whose target the table of targets does not have. -/
def unknownTarget (s : BradBp c) (i : BpInputs) : Nat :=
  if i.records ∧ i.updateTaken ∧ ¬ (s.btbHit i.updatePc ∧
    s.btbTarg i.updatePc = i.updateTarget) then 1
  else 0

/-- The branch goes the other way than `f` says for its counter. -/
def against (f : Fin 256 → Bool) (s : BradBp c) (i : BpInputs) : Nat :=
  if i.records ∧ f (s.gshareIdx i.updatePc) ≠ i.updateTaken then 1 else 0

/-- The number of outcomes `taken` after which a counter predicts it. -/
def lag (taken : Bool) (v : BitVec 2) : Nat := if taken then 2 - v.toNat else v.toNat - 1

def BradBp.lags (s : BradBp c) (f : Fin 256 → Bool) : Nat := ∑ j, lag (f j) (s.cntrTable j)

/-- A wrong prediction of a counter brings it closer, and an outcome against the direction takes it
away by at most one. -/
theorem lag_nextCntr (way taken : Bool) (v : BitVec 2) :
    (if v.msb ≠ taken then 1 else 0) + lag way (nextCntr v taken) ≤
      2 * (if way ≠ taken then 1 else 0) + lag way v := by
  revert way taken v
  decide

section Costs

variable {s : BradBp c} {f : Fin 256 → Bool}

theorem predict_of_two (htype : c.bpType = 2) (s : BradBp c) (pc : Word) :
    s.predict pc =
      (if s.btbHit pc then (s.cntrTable (s.gshareIdx pc)).msb else false,
        if s.btbHit pc then s.btbTarg pc else 0) := by
  unfold BradBp.predict
  rw [htype]
  rfl

/-- A misprediction is one of the counter, or of a branch whose target the table does not have. -/
theorem mispredicts_le (htype : c.bpType = 2) (s : BradBp c) (i : BpInputs)
    (hrecords : i.records = true) :
    mispredicts s i ≤
      (if (s.cntrTable (s.gshareIdx i.updatePc)).msb ≠ i.updateTaken then 1 else 0) +
        unknownTarget s i := by
  rw [mispredicts, unknownTarget, predict_of_two htype]
  cases hhit : s.btbHit i.updatePc <;> cases htaken : i.updateTaken <;> simp [hrecords]
  by_cases htarget : s.btbTarg i.updatePc = i.updateTarget <;> simp [htarget]

theorem clock_cntrTable (htype : c.bpType = 2) {i : BpInputs} (hrecords : i.records = true) :
    (s.clock i).cntrTable =
      Function.update s.cntrTable (s.gshareIdx i.updatePc)
        (nextCntr (s.cntrTable (s.gshareIdx i.updatePc)) i.updateTaken) := by
  rw [BpInputs.records, Bool.and_eq_true, Bool.not_eq_true'] at hrecords
  simp [BradBp.clock, hrecords.1, hrecords.2, htype]

theorem clock_cntrTable_of_not {i : BpInputs} (hrecords : i.records = false) :
    (s.clock i).cntrTable = s.cntrTable := by
  unfold BradBp.clock
  cases hflush : i.flush with
  | true => rw [if_pos rfl]
  | false =>
      have hvalid : i.updateValid = false := by simpa [BpInputs.records, hflush] using hrecords
      rw [if_neg (by simp), hvalid, if_neg (by simp)]

/-- What one clock edge costs. -/
theorem mispredicts_step (htype : c.bpType = 2) (f : Fin 256 → Bool) (s : BradBp c) (i : BpInputs) :
    mispredicts s i + (s.clock i).lags f ≤ (2 * against f s i + unknownTarget s i) + s.lags f := by
  cases hrecords : i.records with
  | false =>
      have hlags : (s.clock i).lags f = s.lags f := by
        rw [BradBp.lags, BradBp.lags, clock_cntrTable_of_not hrecords]
      simp [mispredicts, hrecords, hlags]
  | true =>
      have hcost := mispredicts_le htype s i hrecords
      have hcounter := lag_nextCntr (f (s.gshareIdx i.updatePc)) i.updateTaken
        (s.cntrTable (s.gshareIdx i.updatePc))
      have hsum := sum_update_add (fun j v => lag (f j) v) s.cntrTable (s.gshareIdx i.updatePc)
        (nextCntr (s.cntrTable (s.gshareIdx i.updatePc)) i.updateTaken)
      rw [← clock_cntrTable htype hrecords] at hsum
      have hagainst : against f s i =
          if f (s.gshareIdx i.updatePc) ≠ i.updateTaken then 1 else 0 := by
        simp [against, hrecords]
      rw [hagainst]
      unfold BradBp.lags
      omega

theorem lags_le (s : BradBp c) (f : Fin 256 → Bool) : s.lags f ≤ 512 := by
  have hlag : ∀ taken v, lag taken v ≤ 2 := by decide
  have hle : s.lags f ≤ Finset.univ.card • 2 :=
    Finset.sum_le_card_nsmul _ _ 2 fun j _ => hlag (f j) (s.cntrTable j)
  simpa using hle

theorem lags_reset (c : BpParams) (f : Fin 256 → Bool) :
    (BradBp.reset c).lags f = (Finset.univ.filter fun j => f j = true).card := by
  rw [Finset.card_filter]
  refine Finset.sum_congr rfl fun j _ => ?_
  cases f j <;> rfl

end Costs

/-- **Mispredictions on any run.** -/
theorem mispredicts_run (c : BpParams) (htype : c.bpType = 2) (f : Fin 256 → Bool)
    (inputs : List BpInputs) :
    (∀ s : BradBp c, costs BradBp.clock mispredicts s inputs ≤
        512 + 2 * costs BradBp.clock (against f) s inputs +
          costs BradBp.clock unknownTarget s inputs) ∧
      costs BradBp.clock mispredicts (.reset c) inputs ≤
        (Finset.univ.filter fun j => f j = true).card +
          2 * costs BradBp.clock (against f) (.reset c) inputs +
            costs BradBp.clock unknownTarget (.reset c) inputs := by
  have hrun : ∀ s : BradBp c, costs BradBp.clock mispredicts s inputs ≤
      s.lags f + 2 * costs BradBp.clock (against f) s inputs +
        costs BradBp.clock unknownTarget s inputs := by
    intro s
    have hle := costs_le_of_potential (BradBp.lags · f) (mispredicts_step htype f) s inputs
    rw [costs_add, costs_mul] at hle
    omega
  refine ⟨fun s => ?_, ?_⟩
  · have hlags := lags_le s f
    exact (hrun s).trans (by omega)
  · rw [← lags_reset c f]
    exact hrun (.reset c)

/-- The defaults of the parameters. -/
def defaultParams : BpParams := ⟨2, 8, 12, by decide, by decide, by decide⟩

/-- One branch, taken twice. -/
def takenTwice : List BpInputs := [⟨true, 8, true, 0, false⟩, ⟨true, 8, true, 0, false⟩]

theorem defaultParams_mispredicts :
    defaultParams.bpType = 2 ∧
      (∀ s : BradBp defaultParams,
        costs BradBp.clock mispredicts s takenTwice ≤
          512 + 2 * costs BradBp.clock (against fun _ => true) s takenTwice +
            costs BradBp.clock unknownTarget s takenTwice) ∧
      costs BradBp.clock mispredicts (.reset defaultParams) takenTwice ≤
        (Finset.univ.filter fun _j : Fin 256 => true = true).card +
          2 * costs BradBp.clock (against fun _ => true) (.reset defaultParams) takenTwice +
            costs BradBp.clock unknownTarget (.reset defaultParams) takenTwice :=
  ⟨rfl, mispredicts_run defaultParams rfl (fun _ => true) takenTwice⟩

end BradVector.Bp
