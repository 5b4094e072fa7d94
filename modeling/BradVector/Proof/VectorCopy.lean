import BradVector.Proof.StepAccess

/-!
# Vector loads and stores

`LOADV` puts the words it loads into scalar registers, sixteen times the destination field on, and
`STOREV` takes its words from the vector register. A load followed by a store copies a block only if
the vector register has held it before.
-/

namespace BradVector

open CSem

/-- The words of a 64-byte block. -/
def blockAt (m : DevMem) (off : Nat) (k : Fin vecLanes) : Word := wordAt m.bytes (off + k * 4)

/-- The scalar register that word `k` goes to. -/
def loadvReg (reg : BitVec 8) (k : Fin vecLanes) : BitVec 8 := reg * 16 + BitVec.ofNat 8 k

/-- A `LOADV` and a `STOREV` of the same vector register, under the same predicate. -/
structure CopyPair (ld st : BvInsn) : Prop where
  opLoad : Opcode.ofByte ld.op = some .loadv
  opStore : Opcode.ofByte st.op = some .storev
  dst : st.dst = ld.dst
  inRange : ld.dst.toNat < vecRegs
  pred : st.pred = ld.pred
  predInRange : ¬ PredOutOfRange ld.pred

/-- Where the block of a lane starts. -/
def Device.block (d : Device) (i : BvInsn) (l : Fin warpSize) : Nat := ((d.lane l).memAddr i).toNat

/-- The blocks of the enabled lanes are in memory, and two of their destinations apart. -/
structure Device.BlocksApart (d : Device) (ld st : BvInsn) : Prop where
  source : ∀ l, d.EnabledLane ld.pred l → d.block ld l + vecLanes * 4 ≤ d.mem.size
  dest : ∀ l, d.EnabledLane ld.pred l → d.block st l + vecLanes * 4 ≤ d.mem.size
  apart : ∀ l l', d.EnabledLane ld.pred l → d.EnabledLane ld.pred l' → l ≠ l' →
    d.block st l + vecLanes * 4 ≤ d.block st l' ∨ d.block st l' + vecLanes * 4 ≤ d.block st l

/-- `d'` has the registers of `d`, up to vector register `reg`. -/
structure Device.SameRegsBut (d : Device) (reg : BitVec 8) (d' : Device) : Prop where
  s : ∀ l, (d'.lane l).s = (d.lane l).s
  p : ∀ l, (d'.lane l).p = (d.lane l).p
  v : ∀ l (k : Fin vecRegs), k.val ≠ reg.toNat → (d'.lane l).v k = (d.lane l).v k

/-- The load changes no register but the vector register, and the store leaves every enabled lane's
source block at its destination. -/
def Device.Copies (F : HostMath) (d : Device) (ld st : BvInsn) : Prop :=
  ∃ d₁ d₂, executeInsn F d ld = .ok d₁ ∧ executeInsn F d₁ st = .ok d₂ ∧ d.SameRegsBut ld.dst d₁ ∧
    ∀ l, d.EnabledLane ld.pred l → blockAt d₂.mem (d.block st l) = blockAt d.mem (d.block ld l)

/-- Every enabled lane has its source block in the vector register before the load, and also in the
scalar registers that the load writes. -/
structure Device.HoldsSource (d : Device) (ld : BvInsn) : Prop where
  vector : ∀ l, d.EnabledLane ld.pred l → ∀ h : ld.dst.toNat < vecRegs,
    (d.lane l).v ⟨ld.dst.toNat, h⟩ = blockAt d.mem (d.block ld l)
  scalar : ∀ l, d.EnabledLane ld.pred l → ∀ k, loadvReg ld.dst k ≠ sZero →
    (d.lane l).s (loadvReg ld.dst k) = blockAt d.mem (d.block ld l) k

variable {d : Device} {ld st i : BvInsn}

theorem block_inBounds {r : Lane} {m : DevMem} (h : (r.memAddr i).toNat + vecLanes * 4 ≤ m.size) :
    m.outOfBounds (r.memAddr i) (vecLanes * 4) = false := by
  have hsize : m.size ≤ 2 ^ 26 := m.size_le
  unfold DevMem.outOfBounds
  rw [decide_eq_false_iff_not, BitVec.toNat_add, BitVec.toNat_ofNat]
  omega

/-- The address of word `k` does not wrap. -/
theorem word_addr {r : Lane} {m : DevMem} (h : (r.memAddr i).toNat + vecLanes * 4 ≤ m.size)
    (k : Fin vecLanes) : (r.memAddr i + BitVec.ofNat 64 (k * 4)).toNat =
      (r.memAddr i).toNat + k * 4 := by
  have hsize : m.size ≤ 2 ^ 26 := m.size_le
  have hk : k.val < 16 := k.isLt
  rw [BitVec.toNat_add, BitVec.toNat_ofNat]
  omega

/-! ### The load -/

theorem wrS_s (r : Lane) (reg s : BitVec 8) (x : Word) :
    (r.wrS reg x).s s = if s = reg ∧ reg ≠ sZero then x else r.s s := by
  unfold Lane.wrS
  by_cases hzero : reg = sZero
  · rw [if_pos hzero, if_neg fun h => h.2 hzero]
  · rw [if_neg hzero]
    simp only [Function.update_apply, and_iff_left hzero]

theorem loadvReg_injective {reg : BitVec 8} {j k : Fin vecLanes}
    (h : loadvReg reg j = loadvReg reg k) :
    j = k := by
  have hj : j.val < 16 := j.isLt
  have hk : k.val < 16 := k.isLt
  unfold loadvReg at h
  have hnat := congrArg BitVec.toNat (add_left_cancel h)
  rw [BitVec.toNat_ofNat, BitVec.toNat_ofNat] at hnat
  apply Fin.ext
  omega

/-- The lane after the first `k` words. -/
structure Lane.LoadedBelow (r : Lane) (reg : BitVec 8) (words : Fin vecLanes → Word) (k : Nat)
    (r' : Lane) : Prop where
  v : r'.v = r.v
  p : r'.p = r.p
  loaded : ∀ j : Fin vecLanes, j.val < k → loadvReg reg j ≠ sZero → r'.s (loadvReg reg j) = words j
  rest : ∀ s, (∀ j : Fin vecLanes, j.val < k → loadvReg reg j ≠ sZero → s ≠ loadvReg reg j) →
    r'.s s = r.s s

theorem Lane.LoadedBelow.next {r r' : Lane} {reg : BitVec 8} {words : Fin vecLanes → Word}
    {k : Fin vecLanes} (h : r.LoadedBelow reg words k r') :
    r.LoadedBelow reg words (k + 1) (r'.wrS (loadvReg reg k) (words k)) := by
  refine ⟨(wrS_v _ _ _).trans h.v, (wrS_p _ _ _).trans h.p, ?_, ?_⟩
  · intro j hj hne
    rw [wrS_s]
    obtain hlt | heq := Nat.lt_succ_iff_lt_or_eq.mp hj
    · rw [if_neg fun hk => absurd (congrArg Fin.val (loadvReg_injective hk.1)) (Nat.ne_of_lt hlt)]
      exact h.loaded j hlt hne
    · obtain rfl := Fin.ext heq
      exact if_pos ⟨rfl, hne⟩
  · intro s hs
    rw [wrS_s, if_neg fun hk => hs k (Nat.lt_succ_self _) hk.2 hk.1]
    exact h.rest s fun j hj => hs j (Nat.lt_succ_of_lt hj)

theorem loadv_sat (c : Local) (hin : (c.lane.memAddr i).toNat + vecLanes * 4 ≤ c.mem.size) :
    (loadv i c).Sat
      (fun e => c.lane.LoadedBelow i.dst (blockAt c.mem (c.lane.memAddr i).toNat) vecLanes e.lane ∧
        e.mem = c.mem) (fun _ => False) fun _ => False := by
  unfold loadv
  simp only [block_inBounds hin, Bool.false_eq_true, if_false]
  refine Outcome.Sat.forRange
    (I := fun k (e : Local) =>
      c.lane.LoadedBelow i.dst (blockAt c.mem (c.lane.memAddr i).toNat) k e.lane ∧ e.mem = c.mem)
    ⟨⟨rfl, rfl, fun _ hj => absurd hj (Nat.not_lt_zero _), fun _ _ => rfl⟩, rfl⟩ ?_
  rintro k e ⟨hloaded, hmem⟩
  have hk : (c.lane.memAddr i).toNat + k * 4 + 4 ≤ e.mem.size := by
    have hlt : k.val < 16 := k.isLt
    rw [hmem]
    exact Nat.le_trans (by omega) hin
  simp only [Outcome.bind_eq_bind, word_addr hin, read32_of_le hk, Outcome.ok_bind,
    Outcome.pure_eq_ok, Outcome.sat_ok]
  refine ⟨?_, hmem⟩
  rw [hmem]
  exact hloaded.next

/-- What the load makes of the registers of an enabled lane. -/
def Device.LoadedLane (d : Device) (i : BvInsn) (l : Fin warpSize) (r : Lane) : Prop :=
  (d.lane l).LoadedBelow i.dst (blockAt d.mem (d.block i l)) vecLanes r

theorem executeInsn_loadv (F : HostMath) (hop : Opcode.ofByte i.op = some .loadv)
    (hpred : ¬ PredOutOfRange i.pred)
    (hin : ∀ l, d.EnabledLane i.pred l → d.block i l + vecLanes * 4 ≤ d.mem.size) :
    ∃ d₁, executeInsn F d i = .ok d₁ ∧ d₁.mem = d.mem ∧ d₁.warp.active = d.warp.active ∧
      (∀ l, d.EnabledLane i.pred l → d.LoadedLane i l (d₁.lane l)) ∧
      ∀ l, ¬ d.EnabledLane i.pred l → d₁.lane l = d.lane l := by
  have heff : effect F d.warp.pc d.warp.cycles i = .lanes fun _ => loadv i := by
    unfold effect
    rw [hop]
  have hloads : ∀ l m r, d.EnabledLane i.pred l → m = d.mem →
      (loadv i ⟨d.lane l, m, r⟩).Sat (fun c => d.LoadedLane i l c.lane ∧ c.mem = d.mem)
        (fun _ => False) fun _ => False := by
    rintro l m r hl rfl
    exact loadv_sat ⟨d.lane l, d.mem, r⟩ (hin l hl)
  obtain ⟨e, he, hdone, hmem⟩ :=
    forLanes_completes (J := fun _ m _ => m = d.mem) (Q := d.LoadedLane i)
    hpred rfl (fun _ _ _ _ h => h) hloads
  exact ⟨e.advance, executeInsn_of_lanes heff he, hmem, hdone.control.active,
    fun l hl => hdone.post_of_enabled hl, fun l hl => hdone.lane_eq_of_not_enabled hl⟩

/-! ### The store -/

/-- The memory after the first `k` words. -/
structure DevMem.StoredBelow (m : DevMem) (off : Nat) (words : Fin vecLanes → Word) (k : Nat)
    (m' : DevMem) : Prop where
  size : m'.size = m.size
  stored : ∀ j : Fin vecLanes, j.val < k → wordAt m'.bytes (off + j * 4) = words j
  rest : ∀ a, a < off ∨ off + vecLanes * 4 ≤ a → m'.bytes a = m.bytes a

theorem DevMem.StoredBelow.next {m m' : DevMem} {off : Nat} {words : Fin vecLanes → Word}
    {k : Fin vecLanes} (h : m.StoredBelow off words k m') :
    m.StoredBelow off words (k + 1)
      { m' with
        bytes := writeBytes m'.bytes (off + k * 4) (toLE 4 (words k).toNat) } := by
  have hk : k.val < 16 := k.isLt
  refine ⟨h.size, ?_, ?_⟩
  · intro j hj
    obtain hlt | heq := Nat.lt_succ_iff_lt_or_eq.mp hj
    · rw [← h.stored j hlt]
      apply wordAt_writeBytes_of_disjoint
      left
      omega
    · obtain rfl := Fin.ext heq
      exact wordAt_writeBytes_self _ _ _
  · intro a ha
    rw [← h.rest a ha]
    apply writeBytes_of_disjoint
    rw [toLE_length]
    unfold vecLanes at ha
    omega

theorem storev_sat (c : Local) (hdst : i.dst.toNat < vecRegs)
    (hin : (c.lane.memAddr i).toNat + vecLanes * 4 ≤ c.mem.size) :
    (storev i c).Sat
      (fun e => e.lane = c.lane ∧
        c.mem.StoredBelow (c.lane.memAddr i).toNat (c.lane.v ⟨i.dst.toNat, hdst⟩) vecLanes e.mem)
      (fun _ => False) fun _ => False := by
  unfold storev
  simp only [block_inBounds hin, Bool.false_eq_true, if_false]
  refine Outcome.Sat.forRange
    (I := fun k (e : Local) => e.lane = c.lane ∧
      c.mem.StoredBelow (c.lane.memAddr i).toNat (c.lane.v ⟨i.dst.toNat, hdst⟩) k e.mem)
    ⟨rfl, rfl, fun _ hj => absurd hj (Nat.not_lt_zero _), fun _ _ => rfl⟩ ?_
  rintro k e ⟨hlane, hstored⟩
  have hk : (c.lane.memAddr i).toNat + k * 4 + 4 ≤ e.mem.size := by
    have hlt : k.val < 16 := k.isLt
    rw [hstored.size]
    exact Nat.le_trans (by omega) hin
  simp only [Outcome.bind_eq_bind, Lane.readV, dif_pos hdst, word_addr hin, write32_of_le hk,
    Outcome.ok_bind, Outcome.pure_eq_ok, Outcome.sat_ok]
  refine ⟨hlane, ?_⟩
  rw [hlane]
  exact hstored.next

/-- Blocks that lie elsewhere stay. -/
theorem DevMem.StoredBelow.blockAt_eq {m m' : DevMem} {off off' k : Nat}
    {words : Fin vecLanes → Word} (h : m.StoredBelow off words k m')
    (hapart : off' + vecLanes * 4 ≤ off ∨ off + vecLanes * 4 ≤ off') :
    blockAt m' off' = blockAt m off' := by
  funext j
  have hj : j.val < 16 := j.isLt
  apply wordAt_congr
  intro b hb
  apply h.rest
  unfold vecLanes at *
  omega

/-- The memory before lane `k`. -/
structure Device.StoresBelow (d : Device) (i : BvInsn) (hdst : i.dst.toNat < vecRegs) (k : Nat)
    (m : DevMem) : Prop where
  size : m.size = d.mem.size
  blocks : ∀ l, l.val < k → d.EnabledLane i.pred l →
    blockAt m (d.block i l) = (d.lane l).v ⟨i.dst.toNat, hdst⟩

theorem Device.StoresBelow.next {hdst : i.dst.toNat < vecRegs} {l : Fin warpSize} {m m' : DevMem}
    (h : d.StoresBelow i hdst l m)
    (hm' : m.StoredBelow (d.block i l) ((d.lane l).v ⟨i.dst.toNat, hdst⟩) vecLanes m')
    (hapart : ∀ l', d.EnabledLane i.pred l' → l' ≠ l →
      d.block i l' + vecLanes * 4 ≤ d.block i l ∨ d.block i l + vecLanes * 4 ≤ d.block i l') :
    d.StoresBelow i hdst (l + 1) m' := by
  refine ⟨hm'.size.trans h.size, ?_⟩
  intro l' hl' hen
  obtain hlt | heq := Nat.lt_succ_iff_lt_or_eq.mp hl'
  · have hne : l' ≠ l := fun heq => absurd (congrArg Fin.val heq) (Nat.ne_of_lt hlt)
    rw [hm'.blockAt_eq (hapart l' hen hne)]
    exact h.blocks l' hlt hen
  · obtain rfl := Fin.ext heq
    funext j
    exact hm'.stored j j.isLt

theorem Device.StoresBelow.skip {hdst : i.dst.toNat < vecRegs} {l : Fin warpSize} {m : DevMem}
    (h : d.StoresBelow i hdst l m) (hl : ¬ d.EnabledLane i.pred l) :
      d.StoresBelow i hdst (l + 1) m := by
  refine ⟨h.size, fun l' hl' hen => h.blocks l' ?_ hen⟩
  obtain hlt | heq := Nat.lt_succ_iff_lt_or_eq.mp hl'
  · exact hlt
  · exact absurd (Fin.ext heq ▸ hen) hl

theorem executeInsn_storev (F : HostMath) (hop : Opcode.ofByte i.op = some .storev)
    (hpred : ¬ PredOutOfRange i.pred) (hdst : i.dst.toNat < vecRegs)
    (hin : ∀ l, d.EnabledLane i.pred l → d.block i l + vecLanes * 4 ≤ d.mem.size)
    (hapart : ∀ l l', d.EnabledLane i.pred l → d.EnabledLane i.pred l' → l ≠ l' →
      d.block i l + vecLanes * 4 ≤ d.block i l' ∨ d.block i l' + vecLanes * 4 ≤ d.block i l) :
    ∃ d₂, executeInsn F d i = .ok d₂ ∧ ∀ l, d.EnabledLane i.pred l →
      blockAt d₂.mem (d.block i l) = (d.lane l).v ⟨i.dst.toNat, hdst⟩ := by
  have heff : effect F d.warp.pc d.warp.cycles i = .lanes fun _ => storev i := by
    unfold effect
    rw [hop]
  have hstart : d.StoresBelow i hdst 0 d.mem := ⟨rfl, fun _ hl => absurd hl (Nat.not_lt_zero _)⟩
  have hstores : ∀ l m r, d.EnabledLane i.pred l → d.StoresBelow i hdst l m →
      (storev i ⟨d.lane l, m, r⟩).Sat (fun c => True ∧ d.StoresBelow i hdst (l + 1) c.mem)
        (fun _ => False) fun _ => False := by
    intro l m r hl h
    refine (storev_sat ⟨d.lane l, m, r⟩ hdst ?_).mono (fun e he => ⟨trivial, ?_⟩)
      (fun _ => id) fun _ => id
    · rw [h.size]
      exact hin l hl
    · exact h.next he.2 fun l' hen hne => hapart l' l hen hl hne
  obtain ⟨e, he, _, hmem⟩ := forLanes_completes (J := fun k m _ => d.StoresBelow i hdst k m)
    (Q := fun _ _ => True) hpred hstart (fun _ _ _ hl h => h.skip hl) hstores
  exact ⟨e.advance, executeInsn_of_lanes heff he, fun l hl => hmem.blocks l l.isLt hl⟩

/-! ### The pair -/

theorem Device.SameRegsBut.enabledLane {d' : Device} {reg pred : BitVec 8}
    (h : d.SameRegsBut reg d') (hact : d'.warp.active = d.warp.active) (l : Fin warpSize) :
    d'.EnabledLane pred l ↔ d.EnabledLane pred l := by
  unfold Device.EnabledLane Device.laneActive Lane.PredHolds
  rw [hact, h.p]

theorem Device.SameRegsBut.block_eq {d' : Device} {reg : BitVec 8} (h : d.SameRegsBut reg d')
    (i : BvInsn) (l : Fin warpSize) : d'.block i l = d.block i l := by
  unfold Device.block Lane.memAddr
  rw [h.s]

/-- After a load that keeps the scalar registers, the store leaves what the vector registers have
held all along. -/
theorem storev_after_loadv (F : HostMath) {d₁ : Device} (hpair : CopyPair ld st)
    (happart : d.BlocksApart ld st) (hregs : d.SameRegsBut ld.dst d₁)
    (hact : d₁.warp.active = d.warp.active) (hmem : d₁.mem = d.mem)
    (hv : ∀ l, (d₁.lane l).v = (d.lane l).v) :
    ∃ d₂, executeInsn F d₁ st = .ok d₂ ∧ ∀ l, d.EnabledLane ld.pred l →
      blockAt d₂.mem (d.block st l) = (d.lane l).v ⟨ld.dst.toNat, hpair.inRange⟩ := by
  have hen : ∀ l, d₁.EnabledLane st.pred l ↔ d.EnabledLane ld.pred l := by
    rw [hpair.pred]
    exact hregs.enabledLane hact
  have hpred : ¬ PredOutOfRange st.pred := hpair.pred ▸ hpair.predInRange
  obtain ⟨d₂, hexec, hblocks⟩ := executeInsn_storev F (d := d₁) hpair.opStore hpred
    (hpair.dst ▸ hpair.inRange)
    (fun l hl => by
      rw [hregs.block_eq, hmem]
      exact happart.dest l ((hen l).mp hl))
    (fun l l' hl hl' hne => by
      rw [hregs.block_eq, hregs.block_eq]
      exact happart.apart l l' ((hen l).mp hl) ((hen l').mp hl') hne)
  refine ⟨d₂, hexec, ?_⟩
  intro l hl
  have hblock := hblocks l ((hen l).mpr hl)
  rw [hregs.block_eq, hv] at hblock
  rw [hblock]
  simp only [hpair.dst]

/-- The load keeps the scalar registers exactly if they hold already what it writes to them. -/
theorem Device.LoadedLane.s_eq_iff {l : Fin warpSize} {r : Lane} (h : d.LoadedLane i l r) :
    r.s = (d.lane l).s ↔ ∀ k, loadvReg i.dst k ≠ sZero →
      (d.lane l).s (loadvReg i.dst k) = blockAt d.mem (d.block i l) k := by
  constructor
  · intro heq k hk
    rw [← heq]
    exact h.loaded k k.isLt hk
  · intro hheld
    funext s
    by_cases hs : ∃ j, loadvReg i.dst j ≠ sZero ∧ s = loadvReg i.dst j
    · obtain ⟨j, hj, rfl⟩ := hs
      rw [h.loaded j j.isLt hj, hheld j hj]
    · exact h.rest s fun j _ hj heq => hs ⟨j, hj, heq⟩

/-- **Vector copies.** A `LOADV` and a `STOREV` of the same vector register copy the blocks of the
enabled lanes, and the load changes no other register, if and only if the vector register and the
scalar registers that the load writes hold the blocks before. -/
theorem copies_iff_holdsSource (F : HostMath) (hpair : CopyPair ld st)
    (happart : d.BlocksApart ld st) :
    d.Copies F ld st ↔ d.HoldsSource ld := by
  obtain ⟨d₁, hload, hmem, hact, hloaded, hothers⟩ :=
    executeInsn_loadv F hpair.opLoad hpair.predInRange happart.source
  have hv : ∀ l, (d₁.lane l).v = (d.lane l).v := by
    intro l
    by_cases hl : d.EnabledLane ld.pred l
    · exact (hloaded l hl).v
    · rw [hothers l hl]
  constructor
  · rintro ⟨d₁', d₂, hload', hstore, hregs, hcopy⟩
    obtain rfl : d₁ = d₁' := Outcome.ok.inj (hload.symm.trans hload')
    obtain ⟨d₂', hstore', hblocks⟩ := storev_after_loadv F hpair happart hregs hact hmem hv
    obtain rfl : d₂ = d₂' := Outcome.ok.inj (hstore.symm.trans hstore')
    refine ⟨fun l hl h => ?_, fun l hl => (hloaded l hl).s_eq_iff.mp (hregs.s l)⟩
    rw [← hblocks l hl]
    exact hcopy l hl
  · intro hheld
    have hregs : d.SameRegsBut ld.dst d₁ := by
      refine ⟨?_, ?_, fun l k _ => congrFun (hv l) k⟩
      · intro l
        by_cases hl : d.EnabledLane ld.pred l
        · exact (hloaded l hl).s_eq_iff.mpr (hheld.scalar l hl)
        · rw [hothers l hl]
      · intro l
        by_cases hl : d.EnabledLane ld.pred l
        · exact (hloaded l hl).p
        · rw [hothers l hl]
    obtain ⟨d₂, hstore, hblocks⟩ := storev_after_loadv F hpair happart hregs hact hmem hv
    refine ⟨d₁, d₂, hload, hstore, hregs, ?_⟩
    intro l hl
    rw [hblocks l hl]
    exact hheld.vector l hl hpair.inRange

/-- A kernel `k` in which the first lane copies a block through `V1`. -/
def copyKernel : BvbcImage :=
  { BvbcImage.zero with
    kernels := [{ name := kernelName (cstr "k"), entry := 0, nargs := 0 }]
    insns := .array [bven Opcode.cmp.toByte 0 0 1 0 0 0 0, bven Opcode.loadv.toByte 1 1 0 0 0 0 0,
      bven Opcode.storev.toByte 1 1 0 0 64 0 0]
    ninsn := 3 }

/-- The load and the store of `copyKernel`. -/
def copyLoad : BvInsn := bvDecode (bven Opcode.loadv.toByte 1 1 0 0 0 0 0)

def copyStore : BvInsn := bvDecode (bven Opcode.storev.toByte 1 1 0 0 64 0 0)

/-- The device before the load, with memory full of `x`. -/
def copyReady (x : Byte) : Device :=
  match bvrtLaunch (bvrtLoad (bvrtCreate 128 fun _ => x) copyKernel) (cstr "k") [] with
  | none => bvrtCreate 128 fun _ => x
  | some d => ((bvrtStep HostMath.integer d).toOption.map Prod.snd).getD d

theorem copyPair : CopyPair copyLoad copyStore :=
  ⟨by decide, by decide, by decide, by decide, by decide, by decide⟩

/-- Only the first lane copies. -/
theorem blocksApart_of_first {d : Device}
    (hfirst : ∀ l, d.EnabledLane copyLoad.pred l → l = ⟨0, by decide⟩)
    (hsource : d.block copyLoad ⟨0, by decide⟩ = 0) (hdest : d.block copyStore ⟨0, by decide⟩ = 64)
    (hsize : d.mem.size = 128) : d.BlocksApart copyLoad copyStore := by
  refine ⟨?_, ?_, ?_⟩
  · intro l hl
    rw [hfirst l hl, hsource, hsize]
    decide
  · intro l hl
    rw [hfirst l hl, hdest, hsize]
    decide
  · intro l l' hl hl' hne
    exact absurd ((hfirst l hl).trans (hfirst l' hl').symm) hne

theorem copyReady_zero_copies : (copyReady 0).Copies HostMath.integer copyLoad copyStore := by
  have hfirst : ∀ l, (copyReady 0).EnabledLane copyLoad.pred l → l = ⟨0, by decide⟩ := by
    decide
  have hblock : (copyReady 0).block copyLoad ⟨0, by decide⟩ = 0 := by
    decide
  refine (copies_iff_holdsSource HostMath.integer copyPair
    (blocksApart_of_first hfirst hblock (by decide) rfl)).mpr ⟨?_, ?_⟩
  · intro l hl h
    rw [hfirst l hl, hblock]
    revert h
    decide
  · intro l hl
    rw [hfirst l hl, hblock]
    decide

/-- With other memory contents the load overwrites `S16`. -/
theorem not_forall_copies :
    ¬ ∀ d, Reachable HostMath.integer d → ∀ ld st, CopyPair ld st → d.BlocksApart ld st →
      d.Copies HostMath.integer ld st := by
  intro h
  have hreach : Reachable HostMath.integer (copyReady 7) :=
    ⟨bvrtLoad (bvrtCreate 128 fun _ => 7) copyKernel, cstr "k", [], _, rfl, .step .start rfl⟩
  have hblocks : (copyReady 7).BlocksApart copyLoad copyStore :=
    blocksApart_of_first (by decide) (by decide) (by decide) rfl
  obtain ⟨d₁, _, hload, _, hregs, _⟩ := h _ hreach _ _ copyPair hblocks
  have hloaded : ∃ d₁, executeInsn HostMath.integer (copyReady 7) copyLoad = .ok d₁ ∧
      (d₁.lane ⟨0, by decide⟩).s 16 = 0x07070707 := ⟨_, rfl, rfl⟩
  have hbefore : ((copyReady 7).lane ⟨0, by decide⟩).s 16 = 0 := by
    decide
  obtain ⟨d₁', hload', hafter⟩ := hloaded
  obtain rfl : d₁ = d₁' := Outcome.ok.inj (hload.symm.trans hload')
  rw [hregs.s, hbefore] at hafter
  cases hafter

end BradVector
