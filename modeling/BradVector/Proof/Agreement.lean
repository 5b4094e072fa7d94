import BradVector.Proof.AllGather

/-!
# Agreement of the ranks

Floating-point addition depends on the order of its operands, so that two ranks that add up the same
numbers may differ. The ring adds every element up once, in an order its chunk fixes, and hands the
sum round: all ranks end up with the same bits whatever the addition is. A broadcast and an
all-gather leave all ranks with the same bits too, and no collective makes ranks differ that agreed.
-/

namespace BradVector

open CSem Collective

/-! ### All-reduce with any addition -/

/-- Rank `p` owns element `e` of a range of `count` elements split over `n` ranks. -/
def OwnsElem (count n p e : Nat) : Prop := splitStart count n p ≤ e ∧ e < splitStart count n (p + 1)

/-- Every element has been added up once, round the ring from the rank that owns it, and has arrived
in every rank's range. The other bytes of the user buffers are as they were. -/
structure Comm.FoldsInto (add : Word → Word → Word) (c : Comm) (off count : Nat) (c' : Comm) :
    Prop where
  sums : ∀ r < c.world.nranks, ∀ (p : Fin c.world.nranks) e, OwnsElem count c.world.nranks p e →
    c'.elem r (off + e) = partialSum add p (fun q => c.elem q (off + e)) (c.world.nranks - 1)
  outside : ∀ r < c.world.nranks, ∀ x < c.world.bufBytes.toNat,
    x < 4 * off ∨ 4 * (off + count) ≤ x → c'.rank r x = c.rank r x

section AllReduce

variable {add : Word → Word → Word} {c c' : Comm} {off count : Size}

theorem Comm.Walked.foldsInto (h : c.Walked off (chunkOffsets count c.world.nranks)
    (fun (p : Fin c.world.nranks) v =>
      allGather p (reduceScatter add p v (c.world.nranks - 1)) (c.world.nranks - 1)) c') :
    c.FoldsInto add off.toNat count.toNat c' := by
  have hpos := c.world.nranks_pos
  have hoffs : ∀ i ≤ c.world.nranks, (chunkOffsets count c.world.nranks i).toNat =
      splitStart count.toNat c.world.nranks i :=
    fun i hi => chunkOffsets_toNat hpos c.world.nranks_le hi
  constructor
  · rintro r hr p e ⟨hlo, hhi⟩
    rw [h.elems p e (by rwa [hoffs p (Nat.le_of_lt p.isLt)]) (by rwa [hoffs (p + 1) p.isLt])
      ⟨r, hr⟩, allGather_reduceScatter_eq]
  · intro r hr x hx hout
    refine h.outside ⟨r, hr⟩ x hx ?_
    rw [chunkStart, chunkStart, hoffs 0 (Nat.zero_le _), hoffs _ le_rfl, splitStart_last _ hpos]
    simp only [splitStart]
    omega

theorem foldsInto_of_one (h : c.world.nranks = 1) (off count : Nat) :
    c.FoldsInto add off count c := by
  refine ⟨fun r hr p e _ => ?_, fun _ _ _ _ _ => rfl⟩
  have hp := p.isLt
  obtain rfl : r = p := by omega
  have hsteps : c.world.nranks - 1 = 0 := by omega
  rw [hsteps]
  rfl

theorem allreduce_folds_sat (add : Word → Word → Word) (hc : c.Ready) (hw : ¬ c.world.Wrapped)
    (hsize : (off.toNat + count.toNat) * 4 < 2 ^ 64) (hcount : count ≠ 0)
    (hfits : c.AllreduceFits off count) :
    (bvcommAllreduceSumF32 add off count c).Sat
      (fun t => t.1 = 0 ∧ c.Keeps t.2 ∧ c.FoldsInto add off.toNat count.toNat t.2) (fun _ => False)
      fun _ => False := by
  by_cases hone : c.world.nranks = 1
  · rw [allreduce_of_one hcount hone hfits]
    exact ⟨rfl, Comm.Keeps.refl c, foldsInto_of_one hone _ _⟩
  have hplan := allreduce_plan hc hw hsize hfits.1 (hfits.2.resolve_left hone)
  rw [allreduce_of_fits hcount hone hfits]
  exact (allRounds_sat add rfl hc hplan).bind fun _ h => ⟨rfl, h.keeps, h.foldsInto⟩

theorem foldsInto_of_empty (add : Word → Word → Word) (off : Nat) : c.FoldsInto add off 0 c := by
  refine ⟨fun r hr p e hown => ?_, fun _ _ _ _ _ => rfl⟩
  have hend : splitStart 0 c.world.nranks (p + 1) ≤ 0 := splitStart_le 0 c.world.nranks_pos p.isLt
  obtain ⟨_, hhi⟩ := hown
  omega

/-- **All-reduce with any addition.** In every world a program can have, and for every range whose
size does not wrap, a call that returns 0 has added every element up once, in the order of the ring
from its owner on, and every rank has that sum. The addition need not be associative nor
commutative, so this holds of floats. Where the world's sizes did not wrap either, the call returns
0 whenever its tests pass. -/
theorem bvcommAllreduceSumF32_folds {add : Word → Word → Word} {c : Comm} (hlive : c.Live add)
    {off count : Size} (hsize : (off.toNat + count.toNat) * 4 < 2 ^ 64) :
    (∀ c', bvcommAllreduceSumF32 add off count c = .ok (0, c') →
      c.FoldsInto add off.toNat count.toNat c') ∧
    (¬ c.world.Wrapped → c.AllreduceFits off count →
      ∃ c', bvcommAllreduceSumF32 add off count c = .ok (0, c')) := by
  have hc := hlive.ready
  by_cases hcount : count = 0
  · subst hcount
    rw [allreduce_of_empty]
    refine ⟨fun c' h => ?_, fun _ _ => ⟨c, rfl⟩⟩
    cases h
    exact foldsInto_of_empty add _
  by_cases hfits : c.AllreduceFits off count
  · by_cases hw : c.world.Wrapped
    · refine ⟨fun c' h => ?_, fun h => absurd hw h⟩
      by_cases hone : c.world.nranks = 1
      · rw [allreduce_of_one hcount hone hfits] at h
        cases h
        exact foldsInto_of_one hone _ _
      · exact ((allreduce_never add hc hw hsize hcount hone hfits).of_eq_ok h).elim
    · obtain ⟨⟨ret, c'⟩, hcall, rfl, _, hfolds⟩ :=
        (allreduce_folds_sat add hc hw hsize hcount hfits).exists_ok
      refine ⟨fun c'' h => ?_, fun _ _ => ⟨c', hcall⟩⟩
      rw [hcall] at h
      cases h
      exact hfolds
  · rw [allreduce_of_not_fits hcount hfits]
    refine ⟨fun c' h => ?_, fun _ h => absurd h hfits⟩
    cases h

/-- Three ranks adding up three of their four floats, with a subtraction in place of the
addition. -/
theorem threeRanks_allreduce_folds :
    ∃ c c' : Comm, c.world.nranks = 3 ∧
      bvcommAllreduceSumF32 (· - ·) 1 3 c = .ok (0, c') ∧ c.FoldsInto (· - ·) 1 3 c' := by
  obtain ⟨c, hinit, hranks, hw, hfits⟩ : ∃ c : Comm,
      bvcommInit (fun _ => true) emptyHeap 3 16 4 = .ok c ∧ c.world.nranks = 3 ∧
        ¬ c.world.Wrapped ∧ c.AllreduceFits 1 3 := ⟨_, rfl, by decide, by decide, by decide⟩
  let filled : Comm := { c with
    heap := { c.heap with bytes := fun b a => BitVec.ofNat 8 (b + a) } }
  have hlive : filled.Live (· - ·) := .write (.init hinit) _ rfl
  have hfolds := bvcommAllreduceSumF32_folds hlive
    (by decide : ((1 : Size).toNat + (3 : Size).toNat) * 4 < 2 ^ 64)
  obtain ⟨c', hcall⟩ := hfolds.2 hw hfits
  exact ⟨filled, c', hranks, hcall, hfolds.1 c' hcall⟩

end AllReduce

/-! ### Broadcast -/

/-- The root's range has arrived in every rank's range, and nothing else changed. -/
def Comm.Broadcasts (c : Comm) (root off count : Nat) (c' : Comm) : Prop :=
  ∀ r < c.world.nranks, ∀ x, c'.rank r x =
    if 4 * off ≤ x ∧ x < 4 * (off + count) then c.rank root x else c.rank r x

/-- The ranks before `k` have the `len` bytes the root has at `a`. -/
structure Comm.Delivered (c : Comm) (root a len k : Nat) (c' : Comm) : Prop where
  keeps : c.Keeps c'
  ranks : ∀ r < c.world.nranks, c'.rank r =
    if r < k then writeBytes (c.rank r) a (readBytes (c.rank root) a len) else c.rank r

section Broadcast

variable {c c' : Comm} {root k : Nat} {off count : Size}

theorem writeBytes_readBytes_self (mem : Nat → Byte) (a len : Nat) :
    writeBytes mem a (readBytes mem a len) = mem := by
  funext x
  by_cases hx : a ≤ x ∧ x < a + len
  · obtain ⟨i, rfl⟩ := Nat.exists_eq_add_of_le hx.1
    exact writeBytes_readBytes_add (by omega)
  · exact writeBytes_of_disjoint (by rw [readBytes_length]; omega)

theorem Comm.Delivered.root_eq {a len : Nat} (h : c.Delivered root a len k c')
    (hroot : root < c.world.nranks) : c'.rank root = c.rank root := by
  rw [h.ranks root hroot, writeBytes_readBytes_self, ite_self]

theorem Comm.Delivered.skip {a len : Nat} (h : c.Delivered root a len root c') :
    c.Delivered root a len (root + 1) c' := by
  refine ⟨h.keeps, fun r hr => ?_⟩
  rw [h.ranks r hr]
  by_cases heq : r = root
  · subst heq
    rw [if_neg (Nat.lt_irrefl r), if_pos (Nat.lt_succ_self r), writeBytes_readBytes_self]
  · simp only [show r < root + 1 ↔ r < root by omega]

theorem Comm.Delivered.next {a len : Nat} {c'' : Comm} (h : c.Delivered root a len k c')
    (hk : k < c.world.nranks) (hroot : root < c.world.nranks)
    (hw : c'.Wrote k a (readBytes (c'.rank root) a len) c'') :
      c.Delivered root a len (k + 1) c'' := by
  refine ⟨h.keeps.trans hw.keeps, fun r hr => ?_⟩
  by_cases heq : r = k
  · subst heq
    rw [hw.self, h.root_eq hroot, h.ranks r hr, if_neg (Nat.lt_irrefl r),
      if_pos (Nat.lt_succ_self r)]
  · rw [hw.other r (by rwa [h.keeps.nranks]) heq, h.ranks r hr]
    simp only [show r < k + 1 ↔ r < k by omega]

theorem Comm.Delivered.broadcasts
    (h : c.Delivered root (4 * off.toNat) (4 * count.toNat) c.world.nranks c') :
    c.Broadcasts root off.toNat count.toNat c' := by
  intro r hr x
  rw [h.ranks r hr, if_pos hr]
  by_cases hx : 4 * off.toNat ≤ x ∧ x < 4 * (off.toNat + count.toNat)
  · rw [if_pos hx]
    obtain ⟨i, rfl⟩ := Nat.exists_eq_add_of_le hx.1
    exact writeBytes_readBytes_add (by omega)
  · rw [if_neg hx]
    exact writeBytes_of_disjoint (by rw [readBytes_length]; omega)

theorem broadcast_sat (hc : c.Ready) (hw : ¬ c.world.Wrapped)
    (hsize : (off.toNat + count.toNat) * 4 < 2 ^ 64) (hcount : count ≠ 0)
    (hroot : root < c.world.nranks) (hfits : (off + count) * sizeofFloat ≤ c.world.bufBytes) :
    (bvcommBroadcastF32 root off count c).Sat
      (fun t => t.1 = 0 ∧ c.Keeps t.2 ∧ c.Broadcasts root off.toNat count.toNat t.2)
        (fun _ => False)
      fun _ => False := by
  have hwindow := hc.window_toNat hw
  have hbuf := BitVec.le_def.mp hfits
  rw [BitVec.toNat_mul, BitVec.toNat_add, sizeofFloat_toNat] at hbuf
  have hoff : (off * sizeofFloat).toNat = 4 * off.toNat := by
    rw [BitVec.toNat_mul, sizeofFloat_toNat]
    omega
  have hlen : (count * sizeofFloat).toNat = 4 * count.toNat := by
    rw [BitVec.toNat_mul, sizeofFloat_toNat]
    omega
  have hne := mul_sizeofFloat_ne_zero hcount (by omega)
  unfold bvcommBroadcastF32
  rw [if_neg (by omega), if_neg hcount, if_neg (BitVec.not_lt.mpr hfits)]
  refine Outcome.Sat.bind (Q := c.Delivered root (4 * off.toNat)
    (4 * count.toNat) c.world.nranks) ?_ fun c' h => ⟨rfl, h.keeps, h.broadcasts⟩
  refine Outcome.Sat.forRange (I := fun k => c.Delivered root (4 * off.toNat) (4 * count.toNat) k)
    ⟨Comm.Keeps.refl c, fun r _ => rfl⟩ fun r c' h => ?_
  rw [Int.toNat_natCast]
  split_ifs with hself
  · subst hself
    exact h.skip
  · have hkeep := h.keeps
    have hdma := dma_sat (hc.keeps hkeep) (s := root) (d := r) (by rwa [hkeep.nranks])
      (by rw [hkeep.nranks]; exact r.isLt) hne
      (show (off * sizeofFloat).toNat + (count * sizeofFloat).toNat ≤ c'.world.windowBytes.toNat by
        rw [hkeep.windowBytes]
        omega)
      (show (off * sizeofFloat).toNat + (count * sizeofFloat).toNat ≤ c'.world.windowBytes.toNat by
        rw [hkeep.windowBytes]
        omega)
    rw [hoff, hlen] at hdma
    exact hdma.mono (fun _ hw => h.next r.isLt hroot hw) (fun _ => id) fun _ => id

/-- **Broadcast.** In every world a program can have whose sizes did not wrap, and for every range
whose size does not wrap, the call comes back: with -1 for a root that is no rank, with -2 for a
range outside the buffers, both without an effect, and otherwise with 0 and the root's range in
every rank's buffer. -/
theorem bvcommBroadcastF32_delivers {add : Word → Word → Word} {c : Comm} (hlive : c.Live add)
    (hw : ¬ c.world.Wrapped) {off count : Size} (hsize : (off.toNat + count.toNat) * 4 < 2 ^ 64)
    (root : Int) :
    ((root < 0 ∨ c.world.nranks ≤ root) → bvcommBroadcastF32 root off count c = .ok (-1, c)) ∧
    ∀ r : Nat, r < c.world.nranks →
      (count = 0 ∨ 4 * (off.toNat + count.toNat) ≤ c.world.bufBytes.toNat →
        ∃ c', bvcommBroadcastF32 r off count c = .ok (0, c') ∧
          c.Broadcasts r off.toNat count.toNat c') ∧
      (¬ (count = 0 ∨ 4 * (off.toNat + count.toNat) ≤ c.world.bufBytes.toNat) →
        bvcommBroadcastF32 r off count c = .ok (-2, c)) := by
  refine ⟨fun hroot => by rw [bvcommBroadcastF32, if_pos hroot], fun r hr => ?_⟩
  have hrank : ¬ ((r : Int) < 0 ∨ (c.world.nranks : Int) ≤ r) := by omega
  have hbytes : ((off + count) * sizeofFloat).toNat = 4 * (off.toNat + count.toNat) := by
    rw [BitVec.toNat_mul, BitVec.toNat_add, sizeofFloat_toNat]
    omega
  by_cases hcount : count = 0
  · subst hcount
    refine ⟨fun _ => ⟨c, ?_, fun q _ x => (if_neg fun hx => ?_).symm⟩, fun h => absurd (.inl rfl) h⟩
    · rw [bvcommBroadcastF32, if_neg hrank, if_pos rfl]
    · rw [show (0 : Size).toNat = 0 from rfl] at hx
      omega
  · simp only [hcount, false_or, ← hbytes]
    refine ⟨fun hfits => ?_, fun hfits => ?_⟩
    · obtain ⟨⟨ret, c'⟩, hcall, rfl, _, h⟩ :=
        (broadcast_sat hlive.ready hw hsize hcount hr (BitVec.le_def.mpr hfits)).exists_ok
      exact ⟨c', hcall, h⟩
    · rw [bvcommBroadcastF32, if_neg hrank, if_neg hcount,
        if_pos (BitVec.lt_def.mpr (Nat.not_le.mp hfits))]

/-- Two ranks of eight floats each: rank 1 hands three of its floats round. -/
theorem twoRanks_broadcast_delivers :
    ∃ c c' : Comm, c.world.nranks = 2 ∧
      bvcommBroadcastF32 1 2 3 c = .ok (0, c') ∧ c.Broadcasts 1 2 3 c' := by
  obtain ⟨c, hinit, hranks, hw, hbuf⟩ : ∃ c : Comm,
      bvcommInit (fun _ => true) emptyHeap 2 32 12 = .ok c ∧ c.world.nranks = 2 ∧
        ¬ c.world.Wrapped ∧ c.world.bufBytes = 32 := ⟨_, rfl, by decide, by decide, by decide⟩
  let filled : Comm := { c with
    heap := { c.heap with bytes := fun b a => BitVec.ofNat 8 (b + a) } }
  have hlive : filled.Live (· + ·) := .write (.init hinit) _ rfl
  have hdelivers := bvcommBroadcastF32_delivers hlive hw
    (by decide : ((2 : Size).toNat + (3 : Size).toNat) * 4 < 2 ^ 64) 1
  obtain ⟨c', hcall, h⟩ := (hdelivers.2 1 (by rw [hranks]; decide)).1 (.inr (by rw [hbuf]; decide))
  exact ⟨filled, c', hranks, hcall, h⟩

end Broadcast

/-! ### Agreement over a run -/

/-- All ranks have the same bits in element `e`. -/
def Comm.Agrees (c : Comm) (e : Nat) : Prop :=
  ∀ r < c.world.nranks, ∀ q < c.world.nranks, c.elem r e = c.elem q e

inductive CollectiveCall where
  | allreduce (off count : Size)
  | broadcast (root : Int) (off count : Size)
  | allgather (inOff outOff count : Size)

namespace CollectiveCall

def run (add : Word → Word → Word) : CollectiveCall → Comm → CommOutcome (Int × Comm)
  | allreduce off count => bvcommAllreduceSumF32 add off count
  | broadcast root off count => bvcommBroadcastF32 root off count
  | allgather inOff outOff count => bvcommAllgatherF32 inOff outOff count

/-- The sizes of the call do not wrap. -/
def Sized (n : Nat) : CollectiveCall → Prop
  | allreduce off count | broadcast _ off count => (off.toNat + count.toNat) * 4 < 2 ^ 64
  | allgather inOff outOff count =>
      (inOff.toNat + count.toNat) * 4 < 2 ^ 64 ∧ (outOff.toNat + n * count.toNat) * 4 < 2 ^ 64

/-- Element `e` is in the range the call leaves with every rank. -/
def Covers (n : Nat) : CollectiveCall → Nat → Prop
  | allreduce off count, e | broadcast _ off count, e =>
      off.toNat ≤ e ∧ e < off.toNat + count.toNat
  | allgather _ outOff count, e => outOff.toNat ≤ e ∧ e < outOff.toNat + n * count.toNat

/-- Calls one after the other, and what they return. -/
def runs (add : Word → Word → Word) : List CollectiveCall → Comm → CommOutcome (List Int × Comm)
  | [], c => .ok ([], c)
  | call :: calls, c => do
      let (ret, c) ← call.run add c
      let (rets, c) ← runs add calls c
      return (ret :: rets, c)

end CollectiveCall

section Agreement

variable {add : Word → Word → Word} {c c' : Comm} {e : Nat}

theorem Comm.Agrees.of_eq (h : c.Agrees e) (hn : c'.world.nranks = c.world.nranks)
    (heq : ∀ r < c.world.nranks, ∀ b < 4, c'.rank r (4 * e + b) = c.rank r (4 * e + b)) :
    c'.Agrees e := by
  intro r hr q hq
  rw [hn] at hr hq
  have hsame : ∀ p < c.world.nranks, c'.elem p e = c.elem p e := fun p hp => wordAt_congr (heq p hp)
  rw [hsame r hr, hsame q hq, h r hr q hq]

theorem Comm.FoldsInto.agrees {off count : Nat} (h : c.FoldsInto add off count c')
    (hn : c'.world.nranks = c.world.nranks) (he : 4 * e + 4 ≤ c.world.bufBytes.toNat)
    (hwhy : c.Agrees e ∨ off ≤ e ∧ e < off + count) : c'.Agrees e := by
  by_cases hin : off ≤ e ∧ e < off + count
  · obtain ⟨p, hp, hown⟩ := exists_splitPart c.world.nranks_pos (by omega : e - off < count)
    intro r hr q hq
    rw [hn] at hr hq
    have hr' := h.sums r hr ⟨p, hp⟩ (e - off) hown
    have hq' := h.sums q hq ⟨p, hp⟩ (e - off) hown
    rw [Nat.add_sub_cancel' hin.1] at hr' hq'
    rw [hr', hq']
  · exact (hwhy.resolve_right hin).of_eq hn fun r hr b hb => h.outside r hr _ (by omega) (by omega)

theorem Comm.Broadcasts.agrees {root off count : Nat} (h : c.Broadcasts root off count c')
    (hn : c'.world.nranks = c.world.nranks) (hwhy : c.Agrees e ∨ off ≤ e ∧ e < off + count) :
    c'.Agrees e := by
  by_cases hin : off ≤ e ∧ e < off + count
  · have hroot : ∀ r < c.world.nranks, c'.elem r e = c.elem root e := fun r hr =>
      wordAt_congr fun b hb => by rw [h r hr, if_pos (by omega)]
    intro r hr q hq
    rw [hn] at hr hq
    rw [hroot r hr, hroot q hq]
  · exact (hwhy.resolve_right hin).of_eq hn fun r hr b hb => by rw [h r hr, if_neg (by omega)]

theorem Comm.GathersInto.agrees {inOff outOff count : Nat} (h : c.GathersInto inOff outOff count c')
    (hn : c'.world.nranks = c.world.nranks) (he : 4 * e + 4 ≤ c.world.bufBytes.toNat)
    (hwhy : c.Agrees e ∨ outOff ≤ e ∧ e < outOff + c.world.nranks * count) : c'.Agrees e := by
  by_cases hin : outOff ≤ e ∧ e < outOff + c.world.nranks * count
  · -- the element is the `i`-th of the piece of rank `p`
    have hcount : 0 < count := Nat.pos_of_ne_zero fun h => by rw [h] at hin; omega
    have hp : (e - outOff) / count < c.world.nranks := Nat.div_lt_of_lt_mul (by
      rw [Nat.mul_comm]
      omega)
    have hi := Nat.mod_lt (e - outOff) hcount
    have hplace : outOff + (e - outOff) / count * count + (e - outOff) % count = e := by
      have := Nat.div_add_mod' (e - outOff) count
      omega
    intro r hr q hq
    rw [hn] at hr hq
    have hr' := (h r hr).1 _ hp _ hi
    have hq' := (h q hq).1 _ hp _ hi
    rw [hplace] at hr' hq'
    rw [hr', hq']
  · exact (hwhy.resolve_right hin).of_eq hn fun r hr b hb => (h r hr).2 _ (by omega) (by omega)

/-- What one call does: it keeps what agreed, and when it returns 0 its range agrees too. -/
def CollectiveCall.Spreads (call : CollectiveCall) (c : Comm) (ret : Int) (c' : Comm) : Prop :=
  ∀ e, 4 * e + 4 ≤ c.world.bufBytes.toNat →
    c.Agrees e ∨ ret = 0 ∧ call.Covers c.world.nranks e → c'.Agrees e

theorem CollectiveCall.spreads_of_failed {call : CollectiveCall} {ret : Int} (hret : ret ≠ 0) :
    call.Spreads c ret c :=
  fun _ _ h => h.resolve_right fun h => hret h.1

theorem allreduce_spreads (hc : c.Ready) (hw : ¬ c.world.Wrapped) {off count : Size}
    (hsize : (off.toNat + count.toNat) * 4 < 2 ^ 64) :
    ∃ ret c', bvcommAllreduceSumF32 add off count c = .ok (ret, c') ∧ c.Keeps c' ∧
      (CollectiveCall.allreduce off count).Spreads c ret c' := by
  by_cases hcount : count = 0
  · subst hcount
    exact ⟨0, c, allreduce_of_empty, Comm.Keeps.refl c, fun e he h =>
      (foldsInto_of_empty add off.toNat).agrees rfl he (h.imp_right And.right)⟩
  by_cases hfits : c.AllreduceFits off count
  · obtain ⟨⟨ret, c'⟩, hcall, rfl, hkeeps, h⟩ :=
      (allreduce_folds_sat add hc hw hsize hcount hfits).exists_ok
    exact ⟨0, c', hcall, hkeeps, fun e he hwhy =>
      h.agrees hkeeps.nranks he (hwhy.imp_right And.right)⟩
  · exact ⟨-2, c, allreduce_of_not_fits hcount hfits, Comm.Keeps.refl c,
      CollectiveCall.spreads_of_failed (by decide)⟩

theorem broadcast_spreads (hc : c.Ready) (hw : ¬ c.world.Wrapped) {off count : Size} (root : Int)
    (hsize : (off.toNat + count.toNat) * 4 < 2 ^ 64) :
    ∃ ret c', bvcommBroadcastF32 root off count c = .ok (ret, c') ∧ c.Keeps c' ∧
      (CollectiveCall.broadcast root off count).Spreads c ret c' := by
  by_cases hroot : root < 0 ∨ c.world.nranks ≤ root
  · exact ⟨-1, c, by rw [bvcommBroadcastF32, if_pos hroot], Comm.Keeps.refl c,
      CollectiveCall.spreads_of_failed (by decide)⟩
  by_cases hcount : count = 0
  · subst hcount
    refine ⟨0, c, by rw [bvcommBroadcastF32, if_neg hroot, if_pos rfl], Comm.Keeps.refl c,
      fun e he h => h.resolve_right fun ⟨_, hlo, hhi⟩ => ?_⟩
    rw [show (0 : Size).toNat = 0 from rfl] at hhi
    omega
  by_cases hfits : (off + count) * sizeofFloat ≤ c.world.bufBytes
  · lift root to Nat using by omega
    obtain ⟨⟨ret, c'⟩, hcall, rfl, hkeeps, h⟩ :=
      (broadcast_sat hc hw hsize hcount (by omega : root < c.world.nranks) hfits).exists_ok
    exact ⟨0, c', hcall, hkeeps, fun e _ hwhy => h.agrees hkeeps.nranks (hwhy.imp_right And.right)⟩
  · refine ⟨-2, c, ?_, Comm.Keeps.refl c, CollectiveCall.spreads_of_failed (by decide)⟩
    rw [bvcommBroadcastF32, if_neg hroot, if_neg hcount, if_pos (BitVec.not_le.mp hfits)]

theorem allgather_spreads (hc : c.Ready) (hw : ¬ c.world.Wrapped) {inOff outOff count : Size}
    (hin : (inOff.toNat + count.toNat) * 4 < 2 ^ 64)
    (hout : (outOff.toNat + c.world.nranks * count.toNat) * 4 < 2 ^ 64) :
    ∃ ret c', bvcommAllgatherF32 inOff outOff count c = .ok (ret, c') ∧ c.Keeps c' ∧
      (CollectiveCall.allgather inOff outOff count).Spreads c ret c' := by
  by_cases hcount : count = 0
  · subst hcount
    refine ⟨0, c, by rw [bvcommAllgatherF32, if_pos rfl], Comm.Keeps.refl c,
      fun e he h => h.resolve_right fun ⟨_, hlo, hhi⟩ => ?_⟩
    rw [show (0 : Size).toNat = 0 from rfl] at hhi
    omega
  by_cases hfits : c.AllgatherFits inOff outOff count
  · obtain ⟨⟨ret, c'⟩, hcall, rfl, h⟩ := (allgather_sat hc hw hin hout hcount hfits).exists_ok
    have hkeeps : c.Keeps c' := (keeps_allgather count c inOff outOff).of_eq_ok hcall
    exact ⟨0, c', hcall, hkeeps, fun e he hwhy =>
      h.agrees hkeeps.nranks he (hwhy.imp_right And.right)⟩
  · exact ⟨-2, c, allgather_of_not_fits hcount hfits, Comm.Keeps.refl c,
      CollectiveCall.spreads_of_failed (by decide)⟩

/-- Every call comes back, with agreement no smaller. -/
theorem CollectiveCall.run_spreads (add : Word → Word → Word) (hc : c.Ready)
    (hw : ¬ c.world.Wrapped) (call : CollectiveCall) (hsized : call.Sized c.world.nranks) :
    ∃ ret c', call.run add c = .ok (ret, c') ∧ c.Keeps c' ∧ call.Spreads c ret c' := by
  cases call with
  | allreduce off count => exact allreduce_spreads hc hw hsized
  | broadcast root off count => exact broadcast_spreads hc hw root hsized
  | allgather inOff outOff count => exact allgather_spreads hc hw hsized.1 hsized.2

/-- **Agreement.** In every world a program can have whose sizes did not wrap, every run of
collectives comes back, whatever each call returns, and every element on which the ranks agreed
before, or which a call that returned 0 covers, is one on which they agree after the run. -/
theorem collectives_agree {add : Word → Word → Word} {c : Comm} (hlive : c.Live add)
    (hw : ¬ c.world.Wrapped) (calls : List CollectiveCall)
    (hsized : ∀ call ∈ calls, call.Sized c.world.nranks) :
    ∃ rets c', CollectiveCall.runs add calls c = .ok (rets, c') ∧ rets.length = calls.length ∧
      ∀ e, 4 * e + 4 ≤ c.world.bufBytes.toNat →
        (c.Agrees e ∨ ∃ p ∈ calls.zip rets, p.2 = 0 ∧ p.1.Covers c.world.nranks e) →
          c'.Agrees e := by
  have hc := hlive.ready
  clear hlive
  induction calls generalizing c with
  | nil =>
      refine ⟨[], c, rfl, rfl, fun e _ h => h.resolve_right ?_⟩
      simp
  | cons call calls ih =>
      obtain ⟨ret, c₁, hcall, hkeeps, hspreads⟩ :=
        call.run_spreads add hc hw (hsized call List.mem_cons_self)
      have hw₁ : ¬ c₁.world.Wrapped := by
        unfold BvcommWorld.Wrapped
        rw [hkeeps.bufBytes, hkeeps.scratchBytes]
        exact hw
      obtain ⟨rets, c', hruns, hlength, hagree⟩ := ih hw₁
        (fun call' hmem => by
          rw [hkeeps.nranks]
          exact hsized call' (List.mem_cons_of_mem _ hmem)) (hc.keeps hkeeps)
      refine ⟨ret :: rets, c', ?_, congrArg Nat.succ hlength, fun e he hwhy => ?_⟩
      · simp only [CollectiveCall.runs, Outcome.bind_eq_bind, hcall, Outcome.bind, hruns]
        rfl
      · rw [hkeeps.bufBytes, hkeeps.nranks] at hagree
        refine hagree e he ?_
        rcases hwhy with hwhy | ⟨p, hp, hret, hcovers⟩
        · exact .inl (hspreads e he (.inl hwhy))
        · rw [List.zip_cons_cons, List.mem_cons] at hp
          rcases hp with rfl | hp
          · exact .inl (hspreads e he (.inr ⟨hret, hcovers⟩))
          · exact .inr ⟨p, hp, hret, hcovers⟩

/-- Two ranks of eight floats each: an all-gather, a broadcast of a range outside the buffers, which
is refused, and an all-reduce. -/
theorem twoRanks_collectives_agree :
    ∃ c c' : Comm, c.world.nranks = 2 ∧
      CollectiveCall.runs (· - ·) [.allgather 2 1 3, .broadcast 0 6 4, .allreduce 5 3] c =
        .ok ([0, -2, 0], c') ∧ c'.Agrees 4 ∧ c'.Agrees 7 := by
  obtain ⟨c, hinit, hranks, hw, hbuf, hrets⟩ : ∃ c : Comm,
      bvcommInit (fun _ => true) emptyHeap 2 32 12 = .ok c ∧ c.world.nranks = 2 ∧
        ¬ c.world.Wrapped ∧ c.world.bufBytes = 32 ∧ ∀ rets c',
          CollectiveCall.runs (· - ·) [.allgather 2 1 3, .broadcast 0 6 4, .allreduce 5 3]
            { c with heap := { c.heap with bytes := fun b a => BitVec.ofNat 8 (b + a) } } =
              .ok (rets, c') → rets = [0, -2, 0] :=
    ⟨_, rfl, by decide, by decide, by decide, fun _ _ h => by cases h; rfl⟩
  let filled : Comm := { c with
    heap := { c.heap with bytes := fun b a => BitVec.ofNat 8 (b + a) } }
  have hlive : filled.Live (· - ·) := .write (.init hinit) _ rfl
  obtain ⟨rets, c', hruns, _, hagree⟩ := collectives_agree hlive hw
    [.allgather 2 1 3, .broadcast 0 6 4, .allreduce 5 3] (by
      simp only [List.mem_cons, List.not_mem_nil, or_false, forall_eq_or_imp, forall_eq,
        CollectiveCall.Sized, show filled.world.nranks = 2 from hranks]
      decide)
  obtain rfl := hrets rets c' hruns
  have hbytes : filled.world.bufBytes = 32 := hbuf
  refine ⟨filled, c', hranks, hruns, hagree 4 (by rw [hbytes]; decide) (.inr ?_),
    hagree 7 (by rw [hbytes]; decide) (.inr ?_)⟩
  · exact ⟨(.allgather 2 1 3, 0), by simp, rfl, by
      rw [CollectiveCall.Covers, show filled.world.nranks = 2 from hranks]
      decide⟩
  · exact ⟨(.allreduce 5 3, 0), by simp, rfl, by rw [CollectiveCall.Covers]; decide⟩

end Agreement

end BradVector
