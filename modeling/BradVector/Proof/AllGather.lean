import BradVector.Proof.AllReduce

/-!
# The all-gather

Every rank first copies its input into its own inbox. From then on the inboxes only are read and the
output ranges only are written, so it does not matter where the inputs and the outputs overlap.
-/

namespace BradVector

open CSem

section Phases

variable {c : Comm} {inOff outOff count : Size}

/-- The ranks below `k` have copied their inputs, and the user buffers are as they were. -/
structure Comm.Snapped (c : Comm) (inOff count k : Nat) (c' : Comm) : Prop where
  keeps : c.Keeps c'
  user : ∀ r < c.world.nranks, ∀ x < c.world.bufBytes.toNat, c'.rank r x = c.rank r x
  inbox : ∀ r < k, ∀ i < 4 * count,
    c'.rank r (c.world.bufBytes.toNat + i) = c.rank r (4 * inOff + i)

/-- What the two byte ranges of a call are, and that they lie in the buffer and the inbox. -/
structure Comm.GatherPlan (c : Comm) (inOff outOff count : Size) : Prop where
  window : c.world.windowBytes.toNat = c.world.bufBytes.toNat + c.world.scratchBytes.toNat
  input : 4 * inOff.toNat + 4 * count.toNat ≤ c.world.bufBytes.toNat
  output : 4 * (outOff.toNat + c.world.nranks * count.toNat) ≤ c.world.bufBytes.toNat
  inbox : 4 * count.toNat ≤ c.world.scratchBytes.toNat

theorem Comm.GatherPlan.keeps {c' : Comm} (h : c.GatherPlan inOff outOff count) (hk : c.Keeps c') :
    c'.GatherPlan inOff outOff count where
  window := by rw [hk.windowBytes, hk.bufBytes, hk.scratchBytes]; exact h.window
  input := by rw [hk.bufBytes]; exact h.input
  output := by rw [hk.bufBytes, hk.nranks]; exact h.output
  inbox := by rw [hk.scratchBytes]; exact h.inbox

theorem Comm.GatherPlan.count_toNat (h : c.GatherPlan inOff outOff count) :
    (count * sizeofFloat).toNat = 4 * count.toNat := by
  have hlt := c.world.bufBytes.isLt
  have hin := h.input
  rw [BitVec.toNat_mul, sizeofFloat_toNat]
  omega

theorem Comm.GatherPlan.inOff_toNat (h : c.GatherPlan inOff outOff count) :
    (inOff * sizeofFloat).toNat = 4 * inOff.toNat := by
  have hlt := c.world.bufBytes.isLt
  have hin := h.input
  rw [BitVec.toNat_mul, sizeofFloat_toNat]
  omega

theorem piece_le (outOff count : Nat) {n s : Nat} (hs : s < n) :
    4 * (outOff + s * count) + 4 * count ≤ 4 * (outOff + n * count) := by
  have hmul := Nat.mul_le_mul_right count (Nat.succ_le_of_lt hs)
  rw [Nat.succ_mul] at hmul
  omega

theorem Comm.GatherPlan.piece_toNat (h : c.GatherPlan inOff outOff count) {s : Nat}
    (hs : s < c.world.nranks) :
    ((outOff + BitVec.ofNat 64 s * count) * sizeofFloat).toNat =
      4 * (outOff.toNat + s * count.toNat) := by
  have hlt := c.world.bufBytes.isLt
  have hpiece := piece_le outOff.toNat count.toNat hs
  have hout := h.output
  have hrank : s < 64 := hs.trans_le c.world.nranks_le
  have hmul : (BitVec.ofNat 64 s * count).toNat = s * count.toNat := by
    rw [BitVec.toNat_mul, BitVec.toNat_ofNat, Nat.mod_eq_of_lt (by omega : s < 2 ^ 64),
      Nat.mod_eq_of_lt (by omega)]
  rw [BitVec.toNat_mul, BitVec.toNat_add, hmul, sizeofFloat_toNat]
  omega

theorem snapshotInput_sat (hc : c.Ready) (hp : c.GatherPlan inOff outOff count) {r : Nat}
    (hr : r < c.world.nranks) {c' : Comm} (h : c.Snapped inOff.toNat count.toNat r c') :
    (snapshotInput inOff count r c').Sat (c.Snapped inOff.toNat count.toNat (r + 1))
      (fun _ => False) fun _ => False := by
  have hp' := hp.keeps h.keeps
  have hr' : r < c'.world.nranks := by rwa [h.keeps.nranks]
  have hin := hp'.input
  have hinbox := hp'.inbox
  have hwindow := hp'.window
  have hcopy := memcpy_rank_sat (hc.keeps h.keeps) hr'
    (by omega : 4 * inOff.toNat + 4 * count.toNat ≤ c'.world.windowBytes.toNat)
    (by omega : c'.world.bufBytes.toNat + 4 * count.toNat ≤ c'.world.windowBytes.toNat) (by omega)
  rw [snapshotInput, hp'.count_toNat, hp'.inOff_toNat]
  refine hcopy.mono (fun c'' hw => ?_) (fun _ => id) fun _ => id
  rw [h.keeps.bufBytes] at hw hin
  refine ⟨h.keeps.trans hw.keeps, fun q hq x hx => ?_, fun q hq i hi => ?_⟩
  · rw [← h.user q hq x hx]
    by_cases hself : q = r
    · rw [hself, hw.self, writeBytes_of_disjoint (.inl hx)]
    · rw [hw.other q (by rwa [h.keeps.nranks]) hself]
  · by_cases hself : q = r
    · rw [hself, hw.self, writeBytes_readBytes_add hi, h.user r hr _ (by omega)]
    · have hlt : q < r := by omega
      rw [hw.other q (hlt.trans hr') hself, h.inbox q hlt i hi]

/-- **The snapshots.** -/
theorem snapshots_sat (hc : c.Ready) (hp : c.GatherPlan inOff outOff count) :
    (Outcome.forRange c.world.nranks (fun r => snapshotInput inOff count r) c).Sat
      (c.Snapped inOff.toNat count.toNat c.world.nranks) (fun _ => False) fun _ => False :=
  Outcome.Sat.forRange (I := fun k => c.Snapped inOff.toNat count.toNat k)
    ⟨Comm.Keeps.refl c, fun _ _ _ _ => rfl, fun r hr => absurd hr (Nat.not_lt_zero r)⟩
    fun r _ h => snapshotInput_sat hc hp r.isLt h

/-- The pieces of the pairs `done` names have arrived; the inboxes and the bytes outside the output
range are as they were. -/
structure Comm.Gathered (c : Comm) (outOff count : Nat) (done : Nat → Nat → Prop) (c' : Comm) :
    Prop where
  keeps : c.Keeps c'
  inbox : ∀ r < c.world.nranks, ∀ i < 4 * count,
    c'.rank r (c.world.bufBytes.toNat + i) = c.rank r (c.world.bufBytes.toNat + i)
  pieces : ∀ s < c.world.nranks, ∀ d < c.world.nranks, done s d → ∀ i < 4 * count,
    c'.rank d (4 * (outOff + s * count) + i) = c.rank s (c.world.bufBytes.toNat + i)
  outside : ∀ r < c.world.nranks, ∀ x < c.world.bufBytes.toNat,
    x < 4 * outOff ∨ 4 * (outOff + c.world.nranks * count) ≤ x → c'.rank r x = c.rank r x

theorem Comm.Gathered.mono {c' : Comm} {outOff count : Nat} {done done' : Nat → Nat → Prop}
    (h : c.Gathered outOff count done c') (himp : ∀ s d, done' s d → done s d) :
    c.Gathered outOff count done' c' :=
  ⟨h.keeps, h.inbox, fun s hs d hd hdone => h.pieces s hs d hd (himp s d hdone), h.outside⟩

theorem gatherPiece_sat (hc : c.Ready) (hp : c.GatherPlan inOff outOff count) (hcount : count ≠ 0)
    {done : Nat → Nat → Prop} {s d : Nat} (hs : s < c.world.nranks) (hd : d < c.world.nranks)
    {c' : Comm} (h : c.Gathered outOff.toNat count.toNat done c') :
    (gatherPiece outOff count s d c').Sat
      (c.Gathered outOff.toNat count.toNat fun s' d' => done s' d' ∨ s' = s ∧ d' = d)
      (fun _ => False) fun _ => False := by
  have hp' := hp.keeps h.keeps
  have hs' : s < c'.world.nranks := by rwa [h.keeps.nranks]
  have hd' : d < c'.world.nranks := by rwa [h.keeps.nranks]
  have hlen := hp'.count_toNat
  have hpiece := hp'.piece_toNat hs'
  have hle := piece_le outOff.toNat count.toNat hs
  have hout := hp.output
  have hinbox := hp'.inbox
  have hwindow := hp'.window
  have hbuf := h.keeps.bufBytes
  have hne := mul_sizeofFloat_ne_zero hcount (by omega)
  refine (dma_sat (hc.keeps h.keeps) hs' hd' hne (by omega) (by rw [← hbuf] at hout; omega)).mono
    (fun c'' hw => ?_) (fun _ => id) fun _ => id
  rw [hpiece, hlen, hbuf] at hw
  refine ⟨h.keeps.trans hw.keeps, fun r hr i hi => ?_, fun s' hs₁ d' hd₁ hdone i hi => ?_,
    fun r hr x hx hx' => ?_⟩
  · rw [← h.inbox r hr i hi]
    by_cases hself : r = d
    · rw [hself, hw.self, writeBytes_of_disjoint (by rw [readBytes_length]; omega)]
    · rw [hw.other r (by rwa [h.keeps.nranks]) hself]
  · by_cases hself : d' = d
    · subst hself
      by_cases hsrc : s' = s
      · rw [hsrc, hw.self, writeBytes_readBytes_add hi, h.inbox s hs i hi]
      · -- the pieces of two ranks lie apart
        have hapart : s' * count.toNat + count.toNat ≤ s * count.toNat ∨
            s * count.toNat + count.toNat ≤ s' * count.toNat := by
          rcases Nat.lt_or_gt_of_ne hsrc with hlt | hgt
          · exact .inl (by rw [← Nat.succ_mul]; exact Nat.mul_le_mul_right _ hlt)
          · exact .inr (by rw [← Nat.succ_mul]; exact Nat.mul_le_mul_right _ hgt)
        rw [hw.self, writeBytes_of_disjoint (by rw [readBytes_length]; omega),
          h.pieces s' hs₁ d' hd₁ (by tauto) i hi]
    · rw [hw.other d' (by rwa [h.keeps.nranks]) hself, h.pieces s' hs₁ d' hd₁ (by tauto) i hi]
  · rw [← h.outside r hr x hx hx']
    by_cases hself : r = d
    · rw [hself, hw.self, writeBytes_of_disjoint (by rw [readBytes_length]; omega)]
    · rw [hw.other r (by rwa [h.keeps.nranks]) hself]

/-- **The pieces.** -/
theorem gatherPieces_sat (hc : c.Ready) (hp : c.GatherPlan inOff outOff count)
    (hcount : count ≠ 0) :
    (Outcome.forRange c.world.nranks (fun src => Outcome.forRange c.world.nranks fun dst =>
      gatherPiece outOff count src dst) c).Sat
      (c.Gathered outOff.toNat count.toNat fun s d => s < c.world.nranks ∧ d < c.world.nranks)
      (fun _ => False) fun _ => False := by
  refine Outcome.Sat.forRange
    (I := fun i => c.Gathered outOff.toNat count.toNat fun s d => s < i ∧ d < c.world.nranks)
    ⟨Comm.Keeps.refl c, fun _ _ _ _ => rfl, fun s _ d _ h => absurd h.1 (Nat.not_lt_zero s),
      fun _ _ _ _ _ => rfl⟩ fun s c₁ h₁ => ?_
  have hrow : (Outcome.forRange c.world.nranks (fun d => gatherPiece outOff count s d) c₁).Sat
      (c.Gathered outOff.toNat count.toNat fun s' d' =>
        s' < s.val ∧ d' < c.world.nranks ∨ s' = s ∧ d' < c.world.nranks) (fun _ => False)
      fun _ => False := Outcome.Sat.forRange
    (I := fun j => c.Gathered outOff.toNat count.toNat fun s' d' =>
      s' < s.val ∧ d' < c.world.nranks ∨ s' = s ∧ d' < j)
    (h₁.mono fun s' d' h => by omega) fun d c₂ h₂ =>
      (gatherPiece_sat hc hp hcount s.isLt d.isLt h₂).mono
        (fun _ h => h.mono fun s' d' h' => by omega) (fun _ => id) fun _ => id
  exact hrow.mono (fun _ h => h.mono fun s' d' h' => by omega) (fun _ => id) fun _ => id

end Phases

/-! ### The call -/

/-- Every rank's output range holds the inputs of all ranks in their order, and the other bytes of
the user buffers are as they were. -/
def Comm.GathersInto (c : Comm) (inOff outOff count : Nat) (c' : Comm) : Prop :=
  ∀ r < c.world.nranks,
    (∀ q < c.world.nranks, ∀ i < count,
      c'.elem r (outOff + q * count + i) = c.elem q (inOff + i)) ∧
    ∀ x < c.world.bufBytes.toNat,
      x < 4 * outOff ∨ 4 * (outOff + c.world.nranks * count) ≤ x → c'.rank r x = c.rank r x

/-- The tests of `bvcomm_allgather_f32`. -/
def Comm.AllgatherFits (c : Comm) (inOff outOff count : Size) : Prop :=
  (inOff + count) * sizeofFloat ≤ c.world.bufBytes ∧
    (outOff + BitVec.ofNat 64 c.world.nranks * count) * sizeofFloat ≤ c.world.bufBytes ∧
    count * sizeofFloat ≤ c.world.scratchBytes

instance (c : Comm) (inOff outOff count : Size) :
    Decidable (c.AllgatherFits inOff outOff count) := by
  unfold Comm.AllgatherFits
  infer_instance

section Call

variable {c : Comm} {inOff outOff count : Size}

theorem allgather_plan (hc : c.Ready) (hw : ¬ c.world.Wrapped)
    (hin : (inOff.toNat + count.toNat) * 4 < 2 ^ 64)
    (hout : (outOff.toNat + c.world.nranks * count.toNat) * 4 < 2 ^ 64)
    (hfits : c.AllgatherFits inOff outOff count) : c.GatherPlan inOff outOff count := by
  obtain ⟨hinput, houtput, hinbox⟩ := hfits
  have hrank : c.world.nranks ≤ 64 := c.world.nranks_le
  have hmul : (BitVec.ofNat 64 c.world.nranks * count).toNat = c.world.nranks * count.toNat := by
    rw [BitVec.toNat_mul, BitVec.toNat_ofNat,
      Nat.mod_eq_of_lt (by omega : c.world.nranks < 2 ^ 64), Nat.mod_eq_of_lt (by omega)]
  rw [BitVec.le_def, BitVec.toNat_mul, BitVec.toNat_add, sizeofFloat_toNat] at hinput
  rw [BitVec.le_def, BitVec.toNat_mul, BitVec.toNat_add, hmul, sizeofFloat_toNat] at houtput
  rw [BitVec.le_def, BitVec.toNat_mul, sizeofFloat_toNat] at hinbox
  exact ⟨hc.window_toNat hw, by omega, by omega, by omega⟩

theorem allgather_of_fits (hcount : count ≠ 0) (hfits : c.AllgatherFits inOff outOff count) :
    bvcommAllgatherF32 inOff outOff count c =
      (Outcome.forRange c.world.nranks (fun r => snapshotInput inOff count r) c).bind fun c₁ =>
        (Outcome.forRange c.world.nranks (fun src => Outcome.forRange c.world.nranks fun dst =>
          gatherPiece outOff count src dst) c₁).bind fun c₂ => .ok (0, c₂) := by
  obtain ⟨hinput, houtput, hinbox⟩ := hfits
  rw [bvcommAllgatherF32, if_neg hcount, if_neg (BitVec.not_lt.mpr hinput)]
  dsimp only
  rw [if_neg (BitVec.not_lt.mpr houtput), if_neg (BitVec.not_lt.mpr hinbox)]
  rfl

theorem allgather_of_not_fits (hcount : count ≠ 0) (hfits : ¬ c.AllgatherFits inOff outOff count) :
    bvcommAllgatherF32 inOff outOff count c = .ok (-2, c) := by
  rw [bvcommAllgatherF32, if_neg hcount]
  by_cases hinput : c.world.bufBytes < (inOff + count) * sizeofFloat
  · exact if_pos hinput
  rw [if_neg hinput]
  dsimp only
  by_cases houtput : c.world.bufBytes <
      (outOff + BitVec.ofNat 64 c.world.nranks * count) * sizeofFloat
  · exact if_pos houtput
  rw [if_neg houtput]
  refine if_pos (BitVec.not_le.mp fun hinbox => hfits ?_)
  exact ⟨BitVec.not_lt.mp hinput, BitVec.not_lt.mp houtput, hinbox⟩

theorem Comm.Gathered.gathersInto {c₁ c₂ : Comm}
    (h₁ : c.Snapped inOff.toNat count.toNat c.world.nranks c₁)
    (h₂ : c₁.Gathered outOff.toNat count.toNat
      (fun s d => s < c₁.world.nranks ∧ d < c₁.world.nranks) c₂) :
    c.GathersInto inOff.toNat outOff.toNat count.toNat c₂ := by
  have hn := h₁.keeps.nranks
  have hbuf := h₁.keeps.bufBytes
  intro r hr
  refine ⟨fun q hq i hi => wordAt_congr fun b hb => ?_, fun x hx hx' => ?_⟩
  · have hpiece := h₂.pieces q (by rwa [hn]) r (by rwa [hn]) ⟨by rwa [hn], by rwa [hn]⟩ (4 * i + b)
      (by omega)
    have hsnap := h₁.inbox q hq (4 * i + b) (by omega)
    rw [hbuf, hsnap] at hpiece
    have hto : 4 * (outOff.toNat + q * count.toNat + i) + b =
        4 * (outOff.toNat + q * count.toNat) + (4 * i + b) := by omega
    have hfrom : 4 * (inOff.toNat + i) + b = 4 * inOff.toNat + (4 * i + b) := by omega
    rw [hto, hfrom, hpiece]
  · rw [h₂.outside r (by rwa [hn]) x (by rwa [hbuf]) (by rwa [hn]), h₁.user r hr x hx]

theorem allgather_sat (hc : c.Ready) (hw : ¬ c.world.Wrapped)
    (hin : (inOff.toNat + count.toNat) * 4 < 2 ^ 64)
    (hout : (outOff.toNat + c.world.nranks * count.toNat) * 4 < 2 ^ 64) (hcount : count ≠ 0)
    (hfits : c.AllgatherFits inOff outOff count) :
    (bvcommAllgatherF32 inOff outOff count c).Sat
      (fun t => t.1 = 0 ∧ c.GathersInto inOff.toNat outOff.toNat count.toNat t.2) (fun _ => False)
      fun _ => False := by
  have hp := allgather_plan hc hw hin hout hfits
  rw [allgather_of_fits hcount hfits]
  refine (snapshots_sat hc hp).bind fun c₁ h₁ => ?_
  rw [← h₁.keeps.nranks]
  refine (gatherPieces_sat (hc.keeps h₁.keeps) (hp.keeps h₁.keeps) hcount).bind fun c₂ h₂ => ?_
  exact ⟨rfl, h₂.gathersInto h₁⟩

/-- In a wrapped world the first snapshot is already written outside its block. -/
theorem allgather_never (hc : c.Ready) (hw : c.world.Wrapped)
    (hin : (inOff.toNat + count.toNat) * 4 < 2 ^ 64) (hcount : count ≠ 0)
    (hfits : c.AllgatherFits inOff outOff count) :
    (bvcommAllgatherF32 inOff outOff count c).Sat (fun _ => False) (fun _ => False)
      fun _ => True := by
  have hcount' : count.toNat ≠ 0 := fun h => hcount (BitVec.eq_of_toNat_eq h)
  rw [allgather_of_fits hcount hfits]
  refine Outcome.Sat.bind (Q := fun _ => False) ?_ fun _ => False.elim
  refine Outcome.Sat.forRange_of_never (I := c.Keeps) ⟨0, c.world.nranks_pos⟩ (Comm.Keeps.refl c)
    (fun r c' h => (keeps_heap c' (Heap.memcpy_sat _ _ _)).mono (fun _ => h.trans) (fun _ => id)
      fun _ => id) fun c' h => ?_
  have hsize := hc.size_lt_buf hw c.world.nranks_pos
  have hlen : (count * sizeofFloat).toNat ≠ 0 := by
    rw [BitVec.toNat_mul, sizeofFloat_toNat]
    omega
  refine (Heap.memcpy_never ?_).bind fun _ => False.elim
  rw [h.blocks, h.mem, h.bufBytes]
  dsimp only
  omega

/-- **All-gather.** In every world a program can have, and for all ranges whose sizes do not wrap, a
call that returns 0 has put the inputs of all ranks, as they were before the call, into every rank's
output range, however inputs and outputs overlap, and changed no other byte of a user buffer. Where
the world's sizes did not wrap either, it does return 0 whenever its tests pass. -/
theorem bvcommAllgatherF32_gathers {add : Word → Word → Word} {c : Comm} (hlive : c.Live add)
    {inOff outOff count : Size} (hin : (inOff.toNat + count.toNat) * 4 < 2 ^ 64)
    (hout : (outOff.toNat + c.world.nranks * count.toNat) * 4 < 2 ^ 64) :
    (∀ c', bvcommAllgatherF32 inOff outOff count c = .ok (0, c') →
      c.GathersInto inOff.toNat outOff.toNat count.toNat c') ∧
    (¬ c.world.Wrapped → c.AllgatherFits inOff outOff count →
      ∃ c', bvcommAllgatherF32 inOff outOff count c = .ok (0, c')) := by
  have hc := hlive.ready
  by_cases hcount : count = 0
  · subst hcount
    have hcall : bvcommAllgatherF32 inOff outOff 0 c = .ok (0, c) := by
      rw [bvcommAllgatherF32, if_pos rfl]
    rw [hcall]
    refine ⟨fun c' h => ?_, fun _ _ => ⟨c, rfl⟩⟩
    cases h
    exact fun r _ => ⟨fun q _ i hi => absurd hi (Nat.not_lt_zero i), fun _ _ _ => rfl⟩
  by_cases hfits : c.AllgatherFits inOff outOff count
  · by_cases hw : c.world.Wrapped
    · have hnever := allgather_never hc hw hin hcount hfits
      exact ⟨fun c' h => (hnever.of_eq_ok h).elim, fun h => absurd hw h⟩
    · obtain ⟨⟨ret, c'⟩, hcall, rfl, hgathers⟩ :=
        (allgather_sat hc hw hin hout hcount hfits).exists_ok
      refine ⟨fun c'' h => ?_, fun _ _ => ⟨c', hcall⟩⟩
      rw [hcall] at h
      cases h
      exact hgathers
  · rw [allgather_of_not_fits hcount hfits]
    refine ⟨fun c' h => ?_, fun _ h => absurd h hfits⟩
    cases h

end Call

/-- Two ranks of eight floats each, whose inputs lie inside the output range. -/
theorem twoRanks_allgather_gathers :
    ∃ c c' : Comm, c.world.nranks = 2 ∧
      bvcommAllgatherF32 2 1 3 c = .ok (0, c') ∧ c.GathersInto 2 1 3 c' := by
  obtain ⟨c, hinit, hranks, hw, hfits⟩ : ∃ c : Comm,
      bvcommInit (fun _ => true) emptyHeap 2 32 12 = .ok c ∧ c.world.nranks = 2 ∧
        ¬ c.world.Wrapped ∧ c.AllgatherFits 2 1 3 := ⟨_, rfl, by decide, by decide, by decide⟩
  let filled : Comm := { c with
    heap := { c.heap with bytes := fun b a => BitVec.ofNat 8 (b + a) } }
  have hlive : filled.Live (· + ·) := .write (.init hinit) _ rfl
  have hout : ((1 : Size).toNat + filled.world.nranks * (3 : Size).toNat) * 4 < 2 ^ 64 := by
    rw [show filled.world.nranks = 2 from hranks]
    decide
  have hgathers := bvcommAllgatherF32_gathers hlive
    (by decide : ((2 : Size).toNat + (3 : Size).toNat) * 4 < 2 ^ 64) hout
  obtain ⟨c', hcall⟩ := hgathers.2 hw hfits
  exact ⟨filled, c', hranks, hcall, hgathers.1 c' hcall⟩

end BradVector
