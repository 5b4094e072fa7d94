import BradVector.Proof.Runs
import Mathlib.Order.Bounds.Basic
import Mathlib.Order.OrderDual
import Mathlib.Data.Set.Lattice

/-!
# What an instruction leaves in a lane

A data instruction that touches nothing but the registers of its lane rewrites every enabled lane
and keeps the others. Two instructions compute something else than their comments say: the mask of
`SEL` passes over the lanes of its second arm, and the maximum of `VREDUCE` leaves out the first
element.
-/

namespace BradVector

open CSem Machine

/-! ### Folds that keep an extreme -/

section Fold

variable {α β ι : Type*} [LinearOrder β]

/-- The value kept has the greatest key of the values met. -/
theorem isGreatest_foldl (key : α → β) (x : ι → α) (l : List ι) (a : α) :
    IsGreatest {y | y = key a ∨ ∃ k ∈ l, key (x k) = y}
      (key (l.foldl (fun m k => if key m < key (x k) then x k else m) a)) := by
  induction l generalizing a with
  | nil =>
      constructor
      · exact Or.inl rfl
      · rintro y (rfl | ⟨k, hk, -⟩)
        · exact le_rfl
        · cases hk
  | cons k l ih =>
      rw [List.foldl_cons]
      obtain ⟨hmem, hbound⟩ := ih (if key a < key (x k) then x k else a)
      have hpick : key a ≤ key (if key a < key (x k) then x k else a) ∧
          key (x k) ≤ key (if key a < key (x k) then x k else a) := by
        split_ifs with hlt
        · exact ⟨hlt.le, le_rfl⟩
        · exact ⟨le_rfl, not_lt.mp hlt⟩
      have hfirst := hbound (Or.inl rfl)
      constructor
      · obtain heq | ⟨j, hj, heq⟩ := hmem
        · rw [heq]
          split_ifs
          · exact Or.inr ⟨k, List.mem_cons_self, rfl⟩
          · exact Or.inl rfl
        · exact Or.inr ⟨j, List.mem_cons_of_mem k hj, heq⟩
      · rintro y (rfl | ⟨j, hj, rfl⟩)
        · exact hpick.1.trans hfirst
        · obtain rfl | hj := List.mem_cons.mp hj
          · exact hpick.2.trans hfirst
          · exact hbound (Or.inr ⟨j, hj, rfl⟩)

theorem isLeast_foldl (key : α → β) (x : ι → α) (l : List ι) (a : α) :
    IsLeast {y | y = key a ∨ ∃ k ∈ l, key (x k) = y}
      (key (l.foldl (fun m k => if key (x k) < key m then x k else m) a)) :=
  isGreatest_foldl (β := βᵒᵈ) key x l a

end Fold

/-! ### Lane by lane -/

section Lanewise

variable {F : HostMath} {d : Device} {body : Fin warpSize → Local → LaneOutcome Local}
  {g : Fin warpSize → Lane → Lane}

/-- `d'` has every enabled lane of `d` rewritten by `g`, and the others as they are. -/
def Device.Rewrites (d : Device) (pred : BitVec 8) (g : Fin warpSize → Lane → Lane) (d' : Device) :
    Prop :=
  ∀ l, d'.lane l = if d.EnabledLane pred l then g l (d.lane l) else d.lane l

theorem Device.Rewrites.of_enabled {d' : Device} {pred : BitVec 8} (h : d.Rewrites pred g d')
    {l : Fin warpSize} (hl : d.EnabledLane pred l) : d'.lane l = g l (d.lane l) := by
  rw [h l, if_pos hl]

theorem Device.Rewrites.of_not_enabled {d' : Device} {pred : BitVec 8} (h : d.Rewrites pred g d')
    {l : Fin warpSize} (hl : ¬ d.EnabledLane pred l) : d'.lane l = d.lane l := by
  rw [h l, if_neg hl]

/-- An instruction whose body is `g` on the registers of a lane. -/
theorem bvrtStep_rewrites (hex : d.Executing) (hpred : ¬ PredOutOfRange d.fetch.pred)
    (heff : effect F d.warp.pc d.warp.cycles d.fetch = .lanes body)
    (hbody : ∀ l m r, d.EnabledLane d.fetch.pred l →
      body l ⟨d.lane l, m, r⟩ = .ok ⟨g l (d.lane l), m, r⟩) :
    ∃ d', bvrtStep F d = .ok (.ok, d') ∧ d.Rewrites d.fetch.pred g d' := by
  have hloop : ∃ e, forLanes d.fetch.pred body d.counted = .ok e ∧
      LanesDone d.counted e d.fetch.pred (fun l r => r = g l (d.lane l)) warpSize ∧ True := by
    apply forLanes_completes (J := fun _ _ _ => True) hpred trivial (fun _ _ _ _ h => h)
    intro l m r hl _
    rw [show d.counted.lane l = d.lane l from rfl, hbody l m r hl]
    exact ⟨rfl, trivial⟩
  obtain ⟨e, he, hdone, -⟩ := hloop
  refine ⟨e.advance, ?_, ?_⟩
  · rw [bvrtStep_of_executing hex, executeInsn_of_lanes (d := d.counted) heff he]
    rfl
  · intro l
    by_cases hl : d.EnabledLane d.fetch.pred l
    · rw [if_pos hl]
      exact hdone.post_of_enabled hl
    · rw [if_neg hl]
      exact hdone.lane_eq_of_not_enabled hl

end Lanewise

/-! ### `SEL` -/

section Sel

variable {d d' : Device} {i : BvInsn}

/-- Every active lane has got the first source if its predicate is true, and the second if it is
false. -/
def Device.Selects (d : Device) (i : BvInsn) (d' : Device) : Prop :=
  ∀ l, d.laneActive l = true →
    (d'.lane l).s i.dst =
      if (d.lane l).PredHolds i.pred then (d.lane l).s i.src1 else (d.lane l).s i.src2

/-- The second arm has nothing to do: where the predicate is false, the destination is the second
source already. -/
def Device.SecondArmIdle (d : Device) (i : BvInsn) : Prop :=
  ∀ l, d.laneActive l = true → ¬ (d.lane l).PredHolds i.pred →
    (d.lane l).s i.dst = (d.lane l).s i.src2

theorem sel_of_enabled {c : Local} (hpred : i.pred ≠ 0) (hc : c.lane.PredHolds i.pred) :
    sel i c = .ok { c with lane := c.lane.wrS i.dst (c.lane.s i.src1) } := by
  have hrange : ¬ PredOutOfRange i.pred := fun hout => not_predHolds_of_outOfRange hout hc
  unfold sel
  rw [if_neg hpred, predOk_eq, if_neg hrange]
  simp [hc]

/-- **`SEL`.** Only lanes with a true predicate are written, so the instruction selects exactly when
its second arm has nothing to do. -/
theorem sel_selects_iff (F : HostMath) (hex : d.Executing)
    (hop : Opcode.ofByte d.fetch.op = some .sel) (hne : d.fetch.pred ≠ 0)
    (hpred : ¬ PredOutOfRange d.fetch.pred) (hdst : d.fetch.dst ≠ sZero) :
    ∃ d', bvrtStep F d = .ok (.ok, d') ∧ (d.Selects d.fetch d' ↔ d.SecondArmIdle d.fetch) := by
  have heff : effect F d.warp.pc d.warp.cycles d.fetch = .lanes fun _ => sel d.fetch := by
    unfold effect
    rw [hop]
  obtain ⟨d', hstep, hlanes⟩ := bvrtStep_rewrites (F := F) hex hpred heff
    (g := fun _ r => r.wrS d.fetch.dst (r.s d.fetch.src1))
    (fun l m r hl => sel_of_enabled hne hl.2)
  have hwritten (r : Lane) (v : Word) : (r.wrS d.fetch.dst v).s d.fetch.dst = v := by
    unfold Lane.wrS
    rw [if_neg hdst]
    exact Function.update_self ..
  refine ⟨d', hstep, ?_⟩
  apply forall₂_congr
  intro l hactive
  by_cases hl : (d.lane l).PredHolds d.fetch.pred
  · rw [hlanes.of_enabled ⟨hactive, hl⟩, if_pos hl, hwritten]
    exact iff_of_true rfl fun hfalse => absurd hl hfalse
  · rw [hlanes.of_not_enabled fun h => hl h.2, if_neg hl]
    exact ⟨fun h _ => h, fun h => h hl⟩

end Sel

/-- A kernel `k` of `SEL@P0 S2, S3, S1`. -/
def selKernel : BvbcImage :=
  { BvbcImage.zero with
    kernels := [{ name := kernelName (cstr "k"), entry := 0, nargs := 0 }]
    insns := .array [bven Opcode.sel.toByte 1 2 3 1 0 0 0]
    ninsn := 1 }

def selLaunched : Device :=
  (bvrtLaunch (bvrtLoad (bvrtCreate 64 fun _ => 0) selKernel) (cstr "k") []).getD
    (bvrtCreate 64 fun _ => 0)

theorem selKernel_selects_iff :
    ∃ d', bvrtStep HostMath.integer selLaunched = .ok (.ok, d') ∧
      (selLaunched.Selects selLaunched.fetch d' ↔ selLaunched.SecondArmIdle selLaunched.fetch) :=
  sel_selects_iff HostMath.integer ⟨by decide, by decide, by decide⟩ rfl (by decide) (by decide)
    (by decide)

/-- At launch all predicates are false, and no lane gets its number. -/
theorem not_forall_reachable_selects :
    ¬ ∀ (F : HostMath) (d : Device), Reachable F d → d.Executing →
      Opcode.ofByte d.fetch.op = some .sel → d.fetch.pred ≠ 0 → ¬ PredOutOfRange d.fetch.pred →
        d.fetch.dst ≠ sZero → ∃ d', bvrtStep F d = .ok (.ok, d') ∧ d.Selects d.fetch d' := by
  intro h
  have hreach : Reachable HostMath.integer selLaunched :=
    ⟨bvrtLoad (bvrtCreate 64 fun _ => 0) selKernel, cstr "k", [], selLaunched, rfl, .start⟩
  obtain ⟨d', hstep, hselects⟩ := h _ _ hreach ⟨by decide, by decide, by decide⟩ rfl (by decide)
    (by decide) (by decide)
  have hnumber := hselects ⟨1, by decide⟩ (by decide)
  obtain rfl := (Prod.mk.inj (Except.ok.inj hstep)).2
  exact absurd hnumber (by decide)

/-! ### `VREDUCE` -/

instance : NeZero vecLanes := ⟨by decide⟩

instance : NeZero vecRegs := ⟨by decide⟩

section Reduce

variable {d : Device} {i : BvInsn}

/-- `r'` is `r` with the first element of the vector register `v` replaced by its unsigned
extreme. -/
structure Lane.ReducesTo (r : Lane) (flags : BitVec 8) (v : Fin vecRegs) (r' : Lane) : Prop where
  max : flags = redMax → IsGreatest (Set.range fun k => (r.v v k).toNat) (r'.v v 0).toNat
  min : flags = redMin → IsLeast (Set.range fun k => (r.v v k).toNat) (r'.v v 0).toNat
  elements : ∀ k, k ≠ 0 → r'.v v k = r.v v k
  vectors : ∀ v', v' ≠ v → r'.v v' = r.v v'
  rest : r' = { r with v := r'.v }

/-- The loop of the maximum starts at the second element. -/
theorem isGreatest_reduce_max (F : HostMath) (x : Fin vecLanes → Word) :
    IsGreatest {y | ∃ k, k ≠ 0 ∧ (x k).toNat = y} (reduce F redMax x).toNat := by
  have htail : (List.finRange vecLanes).drop 1 = (List.finRange vecLanes).filter (· ≠ 0) := by
    decide
  have hfold := isGreatest_foldl BitVec.toNat x ((List.finRange vecLanes).filter (· ≠ 0)) 0
  have hsame : reduce F redMax x =
      ((List.finRange vecLanes).filter (· ≠ 0)).foldl
        (fun m k => if m.toNat < (x k).toNat then x k else m) 0 := by
    unfold reduce
    rw [if_pos rfl, htail]
    rfl
  rw [← hsame] at hfold
  obtain ⟨hmem, hbound⟩ := hfold
  have hothers : ∀ k, k ≠ 0 → (x k).toNat ≤ (reduce F redMax x).toNat := by
    intro k hk
    exact hbound (Or.inr ⟨k, by simp [hk], rfl⟩)
  constructor
  · obtain hzero | ⟨k, hk, heq⟩ := hmem
    · -- the initial value is the least word, so the second element equals it too
      refine ⟨1, by decide, ?_⟩
      have hle := hothers 1 (by decide)
      have hz : (0 : Word).toNat = 0 := rfl
      omega
    · exact ⟨k, by simpa using hk, heq⟩
  · rintro y ⟨k, hk, rfl⟩
    exact hothers k hk

theorem isLeast_reduce_min (F : HostMath) (x : Fin vecLanes → Word) :
    IsLeast (Set.range fun k => (x k).toNat) (reduce F redMin x).toNat := by
  have hfold := isLeast_foldl BitVec.toNat x (List.finRange vecLanes) 0xFFFFFFFF
  have hsame : reduce F redMin x =
      (List.finRange vecLanes).foldl
        (fun m k => if (x k).toNat < m.toNat then x k else m) 0xFFFFFFFF := by
    unfold reduce
    rw [if_neg (by decide), if_pos rfl]
    rfl
  rw [← hsame] at hfold
  obtain ⟨hmem, hbound⟩ := hfold
  have hall : ∀ k, (reduce F redMin x).toNat ≤ (x k).toNat := by
    intro k
    exact hbound (Or.inr ⟨k, List.mem_finRange k, rfl⟩)
  constructor
  · obtain htop | ⟨k, -, heq⟩ := hmem
    · -- the initial value is the greatest word
      refine ⟨0, ?_⟩
      have hle := hall 0
      have hlt : (x 0).toNat < 2 ^ 32 := (x 0).isLt
      have hmax : (0xFFFFFFFF : Word).toNat = 2 ^ 32 - 1 := rfl
      dsimp only
      omega
    · exact ⟨k, heq⟩
  · rintro y ⟨k, rfl⟩
    exact hall k

/-- What `VREDUCE` makes of a lane. -/
def Lane.reduced (F : HostMath) (flags : BitVec 8) (v : Fin vecRegs) (r : Lane) : Lane :=
  { r with v := Function.update r.v v fun k => if k.val = 0 then reduce F flags (r.v v)
    else r.v v k }

theorem vreduce_eq (F : HostMath) {c : Local} {v : Fin vecRegs} (hv : i.dst.toNat = v) :
    vreduce F i c = .ok { c with lane := c.lane.reduced F i.flags v } := by
  have hlt : i.dst.toNat < vecRegs := hv ▸ v.isLt
  have hreg : (⟨i.dst.toNat, hlt⟩ : Fin vecRegs) = v := Fin.ext hv
  unfold vreduce Lane.readV Lane.writeV Lane.reduced
  simp [hlt, hreg]

section Reduced

variable {F : HostMath} {flags : BitVec 8} {v : Fin vecRegs} {r : Lane}

theorem reduced_first : (r.reduced F flags v).v v 0 = reduce F flags (r.v v) := by
  simp [Lane.reduced]

/-- The second, which starts at the first element, is right; the first is right when it misses
nothing. -/
theorem reduced_reducesTo_iff :
    r.ReducesTo flags v (r.reduced F flags v) ↔
      (flags = redMax → ∃ k, k ≠ 0 ∧ (r.v v 0).toNat ≤ (r.v v k).toNat) := by
  constructor
  · intro h hmax
    obtain ⟨⟨k, hk, heq⟩, hbound⟩ := isGreatest_reduce_max F (r.v v)
    have hfirst := (h.max hmax).2 ⟨0, rfl⟩
    subst hmax
    rw [reduced_first] at hfirst
    exact ⟨k, hk, heq ▸ hfirst⟩
  · intro h
    refine ⟨?_, ?_, ?_, ?_, rfl⟩
    · intro hmax
      obtain ⟨k, hk, hle⟩ := h hmax
      subst hmax
      obtain ⟨⟨j, -, heq⟩, hbound⟩ := isGreatest_reduce_max F (r.v v)
      rw [reduced_first]
      refine ⟨⟨j, heq⟩, ?_⟩
      rintro y ⟨m, rfl⟩
      by_cases hm : m = 0
      · subst hm
        exact hle.trans (hbound ⟨k, hk, rfl⟩)
      · exact hbound ⟨m, hm, rfl⟩
    · intro hmin
      subst hmin
      rw [reduced_first]
      exact isLeast_reduce_min F (r.v v)
    · intro k hk
      simp [Lane.reduced, hk]
    · intro v' hv'
      exact Function.update_of_ne hv' _ _

end Reduced

/-- **`VREDUCE`.** The minimum is always right, the maximum in the lanes where the first element is
not the only greatest one. -/
theorem vreduce_extreme_iff (F : HostMath) (hex : d.Executing)
    (hop : Opcode.ofByte d.fetch.op = some .vreduce) (hpred : ¬ PredOutOfRange d.fetch.pred)
    {v : Fin vecRegs} (hv : d.fetch.dst.toNat = v) :
    ∃ d', bvrtStep F d = .ok (.ok, d') ∧ ∀ l, d.EnabledLane d.fetch.pred l →
      ((d.lane l).ReducesTo d.fetch.flags v (d'.lane l) ↔
        (d.fetch.flags = redMax →
          ∃ k, k ≠ 0 ∧ ((d.lane l).v v 0).toNat ≤ ((d.lane l).v v k).toNat)) := by
  have heff : effect F d.warp.pc d.warp.cycles d.fetch = .lanes fun _ => vreduce F d.fetch := by
    unfold effect
    rw [hop]
  obtain ⟨d', hstep, hlanes⟩ := bvrtStep_rewrites (F := F) hex hpred heff
    (g := fun _ r => r.reduced F d.fetch.flags v) (fun l m r _ => vreduce_eq F hv)
  refine ⟨d', hstep, ?_⟩
  intro l hl
  rw [hlanes.of_enabled hl]
  exact reduced_reducesTo_iff

/-- The float of a natural number below 2^24. -/
def floatOfNat (n : Nat) : Word :=
  if n = 0 then 0
  else BitVec.ofNat 32 ((127 + Nat.log2 n) * 2 ^ 23 + (n * 2 ^ (23 - Nat.log2 n) - 2 ^ 23))

/-- The natural number below 2^24 whose float this is. -/
def natOfFloat (w : Word) : Nat :=
  if w = 0 then 0 else (2 ^ 23 + w.toNat % 2 ^ 23) / 2 ^ (150 - w.toNat / 2 ^ 23)

/-- A host that adds and multiplies the floats of natural numbers, as long as the results stay below
2^24: they are exact there. -/
def hostOfNat : HostMath :=
  { HostMath.integer with
    add := fun a b => floatOfNat (natOfFloat a + natOfFloat b)
    mul := fun a b => floatOfNat (natOfFloat a * natOfFloat b)
    mad := fun a b c => floatOfNat (natOfFloat a * natOfFloat b + natOfFloat c) }

example : hostOfNat.add 0x41700000 0x3F800000 = 0x41800000 := by decide

/-- A kernel `k` of `VBROADCAST V0, S16`, `VREDUCE.SUM V0` and `VREDUCE.MAX V0`. -/
def reduceKernel : BvbcImage :=
  { BvbcImage.zero with
    kernels := [{ name := kernelName (cstr "k"), entry := 0, nargs := 0 }]
    insns := .array [bven Opcode.vbroadcast.toByte 0 0 16 0 0 0 0,
      bven Opcode.vreduce.toByte 0 0 0 0 0 redSum 0, bven Opcode.vreduce.toByte 0 0 0 0 0 redMax 0]
    ninsn := 3 }

/-- Launched with the argument 1.0, before the `VREDUCE.MAX`: the first element of `V0` is 16.0 and
the others are 1.0. -/
def reduceReady : Device :=
  (((bvrtLaunch (bvrtLoad (bvrtCreate 64 fun _ => 0) reduceKernel) (cstr "k")
    [floatOne]).bind fun d =>
    (after (Device.next hostOfNat) 2 d).toOption)).getD (bvrtCreate 64 fun _ => 0)

theorem reduceReady_reduces_iff :
    ∃ d', bvrtStep hostOfNat reduceReady = .ok (.ok, d') ∧
      ∀ l, reduceReady.EnabledLane 0 l →
        ((reduceReady.lane l).ReducesTo redMax 0 (d'.lane l) ↔
          (redMax = redMax → ∃ k, k ≠ 0 ∧
            ((reduceReady.lane l).v 0 0).toNat ≤ ((reduceReady.lane l).v 0 k).toNat)) :=
  vreduce_extreme_iff hostOfNat (d := reduceReady) ⟨by decide, by decide, by decide⟩ rfl
    (by decide) rfl

/-- The maximum of 16.0 and fifteen times 1.0 comes out as 1.0. -/
theorem not_forall_reachable_reduces :
    ¬ ∀ (F : HostMath) (d : Device), Reachable F d → d.Executing →
      Opcode.ofByte d.fetch.op = some .vreduce → ¬ PredOutOfRange d.fetch.pred →
        ∀ v : Fin vecRegs, d.fetch.dst.toNat = v →
          d.fetch.flags = redMax ∨ d.fetch.flags = redMin →
            ∃ d', bvrtStep F d = .ok (.ok, d') ∧ ∀ l, d.EnabledLane d.fetch.pred l →
              (d.lane l).ReducesTo d.fetch.flags v (d'.lane l) := by
  intro h
  have hreach : Reachable hostOfNat reduceReady := by
    refine ⟨bvrtLoad (bvrtCreate 64 fun _ => 0) reduceKernel, cstr "k", [floatOne], _, rfl, ?_⟩
    exact .step (.step .start (show _ = Except.ok (BvStatus.ok, _) from rfl))
      (show _ = Except.ok (BvStatus.ok, _) from rfl)
  obtain ⟨d', hstep, hreduces⟩ :=
    h _ _ hreach ⟨by decide, by decide, by decide⟩ rfl (by decide) 0 rfl
    (Or.inl rfl)
  have hfirst := ((hreduces ⟨0, by decide⟩ (by decide)).max rfl).2 ⟨0, rfl⟩
  obtain rfl := (Prod.mk.inj (Except.ok.inj hstep)).2
  exact absurd hfirst (by decide)

end Reduce

end BradVector
