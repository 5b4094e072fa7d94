import BradVector.Proof.Ring

/-!
# The ring all-reduce

What a call of `bvcomm_allreduce_sum_f32` does over any world a program can have: the chunks it
computes split the range, each of them fits the inbox the call has checked for, so the rounds go
through and every rank ends with the sum. A world whose two sizes add up past `size_t` has inboxes
outside its blocks, and a call that needs one does not return.
-/

namespace BradVector

open CSem Collective

/-! ### The chunks of a call -/

theorem chunkOffsets_toNat {count : Size} {n i : Nat} (hn : 0 < n) (hn' : n ≤ 64) (hi : i ≤ n) :
    (chunkOffsets count n i).toNat = splitStart count.toNat n i := by
  induction i with
  | zero => simp [chunkOffsets, splitStart]
  | succ i ih =>
      have hstart := splitStart_succ count.toNat n i
      have hle := splitStart_le count.toNat hn hi
      have hcount := count.isLt
      have hnmod : n % 2 ^ 64 = n := Nat.mod_eq_of_lt (by omega)
      have himod : i % 2 ^ 64 = i := Nat.mod_eq_of_lt (by omega)
      have hrem : BitVec.ofNat 64 i < count % BitVec.ofNat 64 n ↔ i < count.toNat % n := by
        rw [BitVec.lt_def, BitVec.toNat_umod, BitVec.toNat_ofNat, BitVec.toNat_ofNat, hnmod, himod]
      have hbase : (count / BitVec.ofNat 64 n).toNat = count.toNat / n := by
        rw [BitVec.toNat_udiv, BitVec.toNat_ofNat, hnmod]
      rw [chunkOffsets, BitVec.toNat_add, BitVec.toNat_add, ih (Nat.le_of_succ_le hi), hbase]
      by_cases h : i < count.toNat % n
      · rw [if_pos h] at hstart
        rw [if_pos (hrem.mpr h), show (1 : Size).toNat = 1 from rfl]
        omega
      · rw [if_neg h] at hstart
        rw [if_neg (mt hrem.mp h), show (0 : Size).toNat = 0 from rfl]
        omega

theorem maxChunkBytes_toNat {count : Size} {n i : Nat} (hn : 0 < n) (hn' : n ≤ 64)
    (hcount : count.toNat * 4 < 2 ^ 64) (hi : i < n) :
    (splitStart count.toNat n (i + 1) - splitStart count.toNat n i) * 4 ≤
      (maxChunkBytes count n).toNat := by
  have hnmod : n % 2 ^ 64 = n := Nat.mod_eq_of_lt (by omega)
  have hstart := splitStart_succ count.toNat n i
  have hle := splitStart_le count.toNat hn hi
  have hrem : (count % BitVec.ofNat 64 n).toNat = count.toNat % n := by
    rw [BitVec.toNat_umod, BitVec.toNat_ofNat, hnmod]
  have hbase : (count / BitVec.ofNat 64 n).toNat = count.toNat / n := by
    rw [BitVec.toNat_udiv, BitVec.toNat_ofNat, hnmod]
  have hsplit := Nat.div_add_mod count.toNat n
  have hdiv : count.toNat / n ≤ n * (count.toNat / n) := Nat.le_mul_of_pos_left _ hn
  rw [maxChunkBytes, BitVec.toNat_mul, BitVec.toNat_add, hbase, sizeofFloat_toNat]
  by_cases hzero : count % BitVec.ofNat 64 n = 0
  · rw [hzero, show (0 : Size).toNat = 0 from rfl] at hrem
    rw [if_neg (not_not_intro hzero), show (0 : Size).toNat = 0 from rfl]
    rw [if_neg (by omega)] at hstart
    omega
  · have hpos : 0 < count.toNat % n :=
      Nat.pos_of_ne_zero fun h => hzero (BitVec.eq_of_toNat_eq (hrem.trans h))
    rw [if_pos hzero, show (1 : Size).toNat = 1 from rfl]
    have hone : (if i < count.toNat % n then 1 else 0) ≤ 1 := by split_ifs <;> omega
    omega

/-! ### Worlds whose sizes wrapped -/

/-- The sum of the two sizes did not fit `size_t` when the world was set up, so that its blocks are
smaller than its user buffers. -/
def BvcommWorld.Wrapped (w : BvcommWorld) : Prop :=
  2 ^ 64 ≤ w.bufBytes.toNat + w.scratchBytes.toNat

instance (w : BvcommWorld) : Decidable w.Wrapped := by
  unfold BvcommWorld.Wrapped
  infer_instance

section Wrapped

variable {c : Comm}

theorem Comm.Ready.window_toNat (hc : c.Ready) (hw : ¬ c.world.Wrapped) :
    c.world.windowBytes.toNat = c.world.bufBytes.toNat + c.world.scratchBytes.toNat := by
  unfold BvcommWorld.Wrapped at hw
  rw [hc.window_eq, BitVec.toNat_add, Nat.mod_eq_of_lt (by omega)]

/-- In a wrapped world the inbox lies behind the end of the rank's block. -/
theorem Comm.Ready.size_lt_buf (hc : c.Ready) (hw : c.world.Wrapped) {r : Nat}
    (hr : r < c.world.nranks) :
    c.heap.size (c.world.mem r + c.world.bufBytes.toNat).block <
      (c.world.mem r + c.world.bufBytes.toNat).off := by
  unfold BvcommWorld.Wrapped at hw
  have hscratch := c.world.scratchBytes.isLt
  have hbuf := c.world.bufBytes.isLt
  rw [Ptr.add_block, Ptr.add_off, hc.mem_size r hr, hc.window_eq, BitVec.toNat_add]
  omega

/-- Adding up from outside the block does not return. -/
theorem addElem_never (add : Word → Word → Word) {dst inbox : Ptr} {j : Nat}
    (hout : c.heap.size inbox.block < inbox.off) :
    (addElem add dst inbox j c).Sat (fun _ => False) (fun _ => False) fun _ => True := by
  refine (Heap.load32_sat c.heap (dst + 4 * j)).bind fun a _ => ?_
  rw [Outcome.bind_eq_bind, Heap.load32_of_outside (by
    simp only [Ptr.add_block, Ptr.add_off]
    omega)]
  trivial

theorem addChunk_never (add : Word → Word → Word) (hc : c.Ready) (hw : c.world.Wrapped) {off : Size}
    {cs : Nat → Size} {r j : Nat} (hr : r < c.world.nranks)
    (hlen : (chunkLen cs j / sizeofFloat).toNat ≠ 0) :
    (addChunk add off cs r j c).Sat (fun _ => False) (fun _ => False) fun _ => True := by
  have hne : chunkLen cs j ≠ 0 := fun h => hlen (by rw [h]; rfl)
  rw [addChunk, if_neg hne]
  refine Outcome.Sat.forRange_of_never (I := c.Keeps) ⟨0, Nat.pos_of_ne_zero hlen⟩
    (Comm.Keeps.refl c) (fun j c' h => ?_) fun c' h => ?_
  · exact (keeps_addElem add c' _ _ j).mono (fun _ => h.trans) (fun _ => id) fun _ => id
  · refine addElem_never add ?_
    rw [h.blocks]
    exact hc.size_lt_buf hw hr

end Wrapped

/-! ### The call -/

/-- The sum over the ranks has arrived in every rank's range, and the other bytes of the user
buffers are as they were. -/
def Comm.SumsInto (add : Word → Word → Word) (c : Comm) (off count : Nat) (c' : Comm) : Prop :=
  ∀ r < c.world.nranks,
    (∀ i, off ≤ i → i < off + count →
      c'.elem r i = rankSum add fun q : Fin c.world.nranks => c.elem q i) ∧
    ∀ x < c.world.bufBytes.toNat, x < 4 * off ∨ 4 * (off + count) ≤ x → c'.rank r x = c.rank r x

/-- The tests of `bvcomm_allreduce_sum_f32`. -/
def Comm.AllreduceFits (c : Comm) (off count : Size) : Prop :=
  (off + count) * sizeofFloat ≤ c.world.bufBytes ∧
    (c.world.nranks = 1 ∨ maxChunkBytes count c.world.nranks ≤ c.world.scratchBytes)

section Call

variable {add : Word → Word → Word} {c : Comm} {off count : Size}

theorem allreduce_plan (hc : c.Ready) (hw : ¬ c.world.Wrapped)
    (hsize : (off.toNat + count.toNat) * 4 < 2 ^ 64)
    (hfits : (off + count) * sizeofFloat ≤ c.world.bufBytes)
    (hscratch : maxChunkBytes count c.world.nranks ≤ c.world.scratchBytes) :
    Plan c.world off (chunkOffsets count c.world.nranks) := by
  have hpos := c.world.nranks_pos
  have hle : c.world.nranks ≤ 64 := c.world.nranks_le
  have hfits' : (off.toNat + count.toNat) * 4 ≤ c.world.bufBytes.toNat := by
    have := BitVec.le_def.mp hfits
    rw [BitVec.toNat_mul, BitVec.toNat_add, sizeofFloat_toNat] at this
    omega
  have hoffs : ∀ i ≤ c.world.nranks, (chunkOffsets count c.world.nranks i).toNat =
      splitStart count.toNat c.world.nranks i := fun i hi => chunkOffsets_toNat hpos hle hi
  refine ⟨hc.window_toNat hw, fun i j hij hj => ?_, fun i hi => ?_, fun i hi => ?_⟩
  · rw [hoffs i (hij.trans hj), hoffs j hj]
    exact splitStart_mono _ _ hij
  · have hlast := splitStart_le count.toNat hpos hi
    rw [chunkStart, hoffs _ hi]
    omega
  · have hmax := maxChunkBytes_toNat hpos hle (by omega : count.toNat * 4 < 2 ^ 64) hi
    have hscratch' := BitVec.le_def.mp hscratch
    rw [chunkStart, chunkStart, hoffs (i + 1) hi, hoffs i (Nat.le_of_lt hi)]
    omega

theorem Comm.Walked.sumsInto [Std.Commutative add] [Std.Associative add] {c' : Comm}
    (h : c.Walked off (chunkOffsets count c.world.nranks)
      (fun (p : Fin c.world.nranks) v =>
        allGather p (reduceScatter add p v (c.world.nranks - 1)) (c.world.nranks - 1)) c') :
    c.SumsInto add off.toNat count.toNat c' := by
  have hpos := c.world.nranks_pos
  have hoffs : ∀ i ≤ c.world.nranks, (chunkOffsets count c.world.nranks i).toNat =
      splitStart count.toNat c.world.nranks i :=
    fun i hi => chunkOffsets_toNat hpos c.world.nranks_le hi
  intro r hr
  refine ⟨fun i hlo hhi => ?_, fun x hx hout => h.outside ⟨r, hr⟩ x hx ?_⟩
  · obtain ⟨p, hp, hstart, hend⟩ := exists_splitPart hpos
      (by omega : i - off.toNat < count.toNat)
    have helem := h.elems ⟨p, hp⟩ (i - off.toNat) (by rwa [hoffs p (Nat.le_of_lt hp)])
      (by rwa [hoffs (p + 1) hp]) ⟨r, hr⟩
    rw [Nat.add_sub_cancel' hlo] at helem
    rw [helem, allGather_reduceScatter_eq, partialSum_eq_rankSum]
  · rw [chunkStart, chunkStart, hoffs 0 (Nat.zero_le _), hoffs _ le_rfl, splitStart_last _ hpos]
    simp only [splitStart]
    omega

theorem sumsInto_of_one (h : c.world.nranks = 1) (count : Nat) :
    c.SumsInto add off.toNat count c := by
  intro r hr
  exact ⟨fun i _ _ => (rankSum_of_one h (fun q => c.elem q i) ⟨r, hr⟩).symm, fun _ _ _ => rfl⟩

theorem sumsInto_of_empty (off : Nat) : c.SumsInto add off 0 c :=
  fun _ _ => ⟨fun _ hlo hhi => absurd hhi (by omega), fun _ _ _ => rfl⟩

theorem allreduce_of_fits (hcount : count ≠ 0) (hone : c.world.nranks ≠ 1)
    (hfits : c.AllreduceFits off count) :
    bvcommAllreduceSumF32 add off count c =
      ((Outcome.forRange (c.world.nranks - 1) (fun s => reduceScatterRound add off
        (chunkOffsets count c.world.nranks) c.world.nranks s) c).bind
        (Outcome.forRange (c.world.nranks - 1) fun s => allGatherRound off
          (chunkOffsets count c.world.nranks) c.world.nranks s)).bind fun c => .ok (0, c) := by
  obtain ⟨hbuf, hscratch⟩ := hfits
  rw [bvcommAllreduceSumF32, if_neg hcount, if_neg (BitVec.not_lt.mpr hbuf)]
  dsimp only
  rw [if_neg hone, if_neg (BitVec.not_lt.mpr (hscratch.resolve_left hone)), Outcome.bind_assoc]
  rfl

theorem allreduce_sat (add : Word → Word → Word) [Std.Commutative add] [Std.Associative add]
    (hc : c.Ready) (hw : ¬ c.world.Wrapped) (hsize : (off.toNat + count.toNat) * 4 < 2 ^ 64)
    (hcount : count ≠ 0) (hone : c.world.nranks ≠ 1) (hfits : c.AllreduceFits off count) :
    (bvcommAllreduceSumF32 add off count c).Sat
      (fun t => t.1 = 0 ∧ c.SumsInto add off.toNat count.toNat t.2) (fun _ => False)
      fun _ => False := by
  have hplan := allreduce_plan hc hw hsize hfits.1 (hfits.2.resolve_left hone)
  rw [allreduce_of_fits hcount hone hfits]
  exact (allRounds_sat add rfl hc hplan).bind fun _ h => ⟨rfl, h.sumsInto⟩

theorem allreduce_never (add : Word → Word → Word) (hc : c.Ready) (hw : c.world.Wrapped)
    (hsize : (off.toNat + count.toNat) * 4 < 2 ^ 64) (hcount : count ≠ 0)
    (hone : c.world.nranks ≠ 1) (hfits : c.AllreduceFits off count) :
    (bvcommAllreduceSumF32 add off count c).Sat (fun _ => False) (fun _ => False)
      fun _ => True := by
  have hpos := c.world.nranks_pos
  have hle : c.world.nranks ≤ 64 := c.world.nranks_le
  rw [allreduce_of_fits hcount hone hfits, Outcome.bind_assoc]
  set n := c.world.nranks with hn
  set cs := chunkOffsets count n
  refine Outcome.Sat.bind (Q := fun _ => False) ?_ fun _ => False.elim
  refine Outcome.Sat.forRange_of_never (I := c.Keeps) ⟨0, by omega⟩ (Comm.Keeps.refl c)
    (fun s c' h => (keeps_reduceScatterRound add off cs n c' s).mono (fun _ => h.trans)
      (fun _ => id) fun _ => id) fun c₁ h₁ => ?_
  refine (keeps_forRange c₁ fun r c' => keeps_sendChunk off cs n c' r _).bind fun c₂ h₂ => ?_
  have hc₂ := hc.keeps (h₁.trans h₂)
  refine Outcome.Sat.forRange_of_never (I := c₂.Keeps) ⟨1, by omega⟩ (Comm.Keeps.refl c₂)
    (fun r c' h => (keeps_addChunk add off cs c' r _).mono (fun _ => h.trans) (fun _ => id)
      fun _ => id) fun c₃ h₃ => ?_
  have hzero : (1 + n - 0 - 1) % n = 0 := by
    rw [Nat.sub_zero, Nat.add_sub_cancel_left, Nat.mod_self]
  have h₁₃ := (h₁.trans h₂).trans h₃
  dsimp only
  rw [hzero]
  refine addChunk_never add (hc₂.keeps h₃) ?_ ?_ ?_
  · unfold BvcommWorld.Wrapped
    rw [h₁₃.bufBytes, h₁₃.scratchBytes]
    exact hw
  · rw [h₁₃.nranks, ← hn]
    omega
  · have hcount' : 0 < count.toNat := Nat.pos_of_ne_zero fun h => hcount (BitVec.eq_of_toNat_eq h)
    have hfirst := splitStart_one_pos n hcount'
    have hle' := splitStart_le count.toNat hpos (by omega : 1 ≤ n)
    have hone' : (cs 1).toNat = splitStart count.toNat n 1 := chunkOffsets_toNat hpos hle (by omega)
    have hlen : (chunkLen cs 0).toNat = splitStart count.toNat n 1 * 4 := by
      rw [chunkLen, BitVec.toNat_mul, sizeofFloat_toNat, BitVec.toNat_sub, Nat.zero_add, hone',
        show (cs 0).toNat = 0 from rfl]
      omega
    rw [BitVec.toNat_udiv, hlen, sizeofFloat_toNat]
    omega

theorem allreduce_of_empty : bvcommAllreduceSumF32 add off 0 c = .ok (0, c) := by
  rw [bvcommAllreduceSumF32, if_pos rfl]

theorem allreduce_of_one (hcount : count ≠ 0) (hone : c.world.nranks = 1)
    (hfits : c.AllreduceFits off count) : bvcommAllreduceSumF32 add off count c = .ok (0, c) := by
  rw [bvcommAllreduceSumF32, if_neg hcount, if_neg (BitVec.not_lt.mpr hfits.1)]
  exact if_pos hone

theorem allreduce_of_not_fits (hcount : count ≠ 0) (hfits : ¬ c.AllreduceFits off count) :
    bvcommAllreduceSumF32 add off count c = .ok (-2, c) := by
  rw [bvcommAllreduceSumF32, if_neg hcount]
  by_cases hbuf : c.world.bufBytes < (off + count) * sizeofFloat
  · exact if_pos hbuf
  rw [if_neg hbuf]
  dsimp only
  rw [Comm.AllreduceFits, not_and, not_or] at hfits
  obtain ⟨hone, hscratch⟩ := hfits (BitVec.not_lt.mp hbuf)
  rw [if_neg hone, if_pos (BitVec.not_le.mp hscratch)]

/-- **All-reduce.** In every world a program can have, and for every range whose size does not wrap,
a call that returns 0 has put the sum over the ranks into every rank's range and changed no other
byte of a user buffer. Where the world's sizes did not wrap either, it does return 0 whenever its
tests pass. -/
theorem bvcommAllreduceSumF32_sums {add : Word → Word → Word} [Std.Commutative add]
    [Std.Associative add] {c : Comm} (hlive : c.Live add) {off count : Size}
    (hsize : (off.toNat + count.toNat) * 4 < 2 ^ 64) :
    (∀ c', bvcommAllreduceSumF32 add off count c = .ok (0, c') →
      c.SumsInto add off.toNat count.toNat c') ∧
    (¬ c.world.Wrapped → c.AllreduceFits off count →
      ∃ c', bvcommAllreduceSumF32 add off count c = .ok (0, c')) := by
  have hc := hlive.ready
  by_cases hcount : count = 0
  · subst hcount
    rw [allreduce_of_empty]
    refine ⟨fun c' h => ?_, fun _ _ => ⟨c, rfl⟩⟩
    cases h
    exact sumsInto_of_empty _
  by_cases hfits : c.AllreduceFits off count
  · by_cases hone : c.world.nranks = 1
    · rw [allreduce_of_one hcount hone hfits]
      refine ⟨fun c' h => ?_, fun _ _ => ⟨c, rfl⟩⟩
      cases h
      exact sumsInto_of_one hone _
    · by_cases hw : c.world.Wrapped
      · have hnever := allreduce_never add hc hw hsize hcount hone hfits
        exact ⟨fun c' h => (hnever.of_eq_ok h).elim, fun h => absurd hw h⟩
      · obtain ⟨⟨ret, c'⟩, hcall, rfl, hsums⟩ :=
          (allreduce_sat add hc hw hsize hcount hone hfits).exists_ok
        refine ⟨fun c'' h => ?_, fun _ _ => ⟨c', hcall⟩⟩
        rw [hcall] at h
        cases h
        exact hsums
  · rw [allreduce_of_not_fits hcount hfits]
    refine ⟨fun c' h => ?_, fun _ h => absurd h hfits⟩
    cases h

end Call

instance (c : Comm) (off count : Size) : Decidable (c.AllreduceFits off count) := by
  unfold Comm.AllreduceFits
  infer_instance

/-- Three ranks of four floats each, whose memory the program has filled: adding up three of them,
as words modulo `2 ^ 32`, returns 0 and leaves the sums. -/
theorem threeRanks_allreduce_sums :
    ∃ c c' : Comm, c.world.nranks = 3 ∧
      bvcommAllreduceSumF32 (· + ·) 1 3 c = .ok (0, c') ∧ c.SumsInto (· + ·) 1 3 c' := by
  obtain ⟨c, hinit, hranks, hw, hfits⟩ : ∃ c : Comm,
      bvcommInit (fun _ => true) emptyHeap 3 16 4 = .ok c ∧ c.world.nranks = 3 ∧
        ¬ c.world.Wrapped ∧ c.AllreduceFits 1 3 := ⟨_, rfl, by decide, by decide, by decide⟩
  let filled : Comm := { c with
    heap := { c.heap with bytes := fun b a => BitVec.ofNat 8 (b + a) } }
  have hlive : filled.Live (· + ·) := .write (.init hinit) _ rfl
  have hsums := bvcommAllreduceSumF32_sums hlive
    (by decide : ((1 : Size).toNat + (3 : Size).toNat) * 4 < 2 ^ 64)
  obtain ⟨c', hcall⟩ := hsums.2 hw hfits
  exact ⟨filled, c', hranks, hcall, hsums.1 c' hcall⟩

end BradVector
