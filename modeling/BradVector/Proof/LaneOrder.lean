import BradVector.Library.Reordering
import BradVector.Proof.Noninterference
import Mathlib.Tactic.IntervalCases

/-!
# The order of the lanes

The interpreter takes the lanes of an instruction one after another, where hardware takes them at
once. An instruction is free of races when no lane accesses what another one writes, unless both
store the same at the same place; then its lanes may be taken in any order, and so may those of
every instruction of a run that is free of races throughout.
-/

namespace BradVector

open CSem

/-! ### What a lane accesses -/

def Opcode.writesMem : Opcode → Bool
  | store | storev | atomicAdd => true
  | _ => false

/-- The bytes the work in a lane accesses, and those it writes. -/
def Lane.accesses (r : Lane) (i : BvInsn) (op : Opcode) : Set Nat :=
  {x | ∃ len, op.memLen = some len ∧ (r.memAddr i).toNat ≤ x ∧ x < (r.memAddr i).toNat + len}

def Lane.writes (r : Lane) (i : BvInsn) (op : Opcode) : Set Nat :=
  {x | op.writesMem = true ∧ x ∈ r.accesses i op}

theorem Lane.writes_subset (r : Lane) (i : BvInsn) (op : Opcode) :
    r.writes i op ⊆ r.accesses i op :=
  fun _ hx => hx.2

/-- Two states of the same work, which began in memories `m` and `m'` that hold the same in `A`. -/
structure Local.Alike (A W : Set Nat) (m m' : DevMem) (e e' : Local) : Prop where
  lane : e'.lane = e.lane
  rands : e'.rands = e.rands
  size : e.mem.size = m.size
  size' : e'.mem.size = m'.size
  same : ∀ x ∈ A, e'.mem.bytes x = e.mem.bytes x
  frame : ∀ x ∉ W, e.mem.bytes x = m.bytes x
  frame' : ∀ x ∉ W, e'.mem.bytes x = m'.bytes x

section Work

variable {A W : Set Nat} {m m' : DevMem} {e e' : Local}

theorem Local.Alike.refl {c : Local} (h : ∀ x ∈ A, m'.bytes x = c.mem.bytes x) :
    Local.Alike A W c.mem m' c { c with mem := m' } :=
  ⟨rfl, rfl, rfl, rfl, h, fun _ _ => rfl, fun _ _ => rfl⟩

theorem Local.Alike.withLane (h : Local.Alike A W m m' e e') (r : Lane) :
    Local.Alike A W m m' { e with lane := r } { e' with lane := r } :=
  ⟨rfl, h.rands, h.size, h.size', h.same, h.frame, h.frame'⟩

theorem Local.Alike.read32 (h : Local.Alike A W m m' e e') (hsize : m'.size = m.size) {off : Nat}
    (hA : ∀ x, off ≤ x → x < off + 4 → x ∈ A) : e'.mem.read32 off = e.mem.read32 off := by
  have hbytes : readBytes e'.mem.bytes off 4 = readBytes e.mem.bytes off 4 :=
    List.map_congr_left fun k hk => by
      have hlt := List.mem_range.mp hk
      exact h.same (off + k) (hA _ (by omega) (by omega))
  rw [DevMem.read32, DevMem.read32, h.size, h.size', hsize, hbytes]

theorem Local.Alike.write32 (h : Local.Alike A W m m' e e') (hsize : m'.size = m.size) {off : Nat}
    {w : Word}
    {n : DevMem} (hW : ∀ x, off ≤ x → x < off + 4 → x ∈ W) (hok : e.mem.write32 off w = .ok n) :
    ∃ n', e'.mem.write32 off w = .ok n' ∧
      Local.Alike A W m m' { e with mem := n } { e' with mem := n' } := by
  have hle : off + 4 ≤ e.mem.size := by
    by_contra hgt
    rw [DevMem.write32, if_neg hgt] at hok
    cases hok
  have hle' : off + 4 ≤ e'.mem.size := by rw [h.size', hsize, ← h.size]; exact hle
  rw [write32_of_le hle] at hok
  obtain rfl := Outcome.ok.inj hok
  refine ⟨_, write32_of_le hle', h.lane, h.rands, h.size, h.size', fun x hx => ?_, fun x hx => ?_,
    fun x hx => ?_⟩
  · change writeBytes _ _ _ x = writeBytes _ _ _ x
    rw [writeBytes, writeBytes, h.same x hx]
  · exact (writeBytes_of_disjoint (by
      rw [toLE_length]
      by_contra hin
      exact hx (hW x (by omega) (by omega)))).trans (h.frame x hx)
  · exact (writeBytes_of_disjoint (by
      rw [toLE_length]
      by_contra hin
      exact hx (hW x (by omega) (by omega)))).trans (h.frame' x hx)

variable {F : HostMath} {pc : Word} {i : BvInsn} {op : Opcode} {body : Local → LaneOutcome Local}

/-- Work on registers alone is the same on every memory. -/
theorem laneBody_withMem (h : LaneBody F pc i op body) (hlen : op.memLen = none) (c : Local)
    (m : DevMem) :
    body { c with mem := m } = (body c).bind fun e => .ok { e with mem := m } := by
  cases h with
  | scalar | rand => rfl
  | sel =>
      unfold sel
      by_cases hzero : i.pred = 0
      · simp only [if_pos hzero]
        rfl
      · simp only [if_neg hzero]
        cases (c.lane.predOk i.pred : LaneOutcome Bool) <;> rfl
  | cmp =>
      simp only [cmp, Lane.writeP]
      by_cases hdst : i.dst.toNat < predRegs <;> simp only [hdst] <;> rfl
  | vector2 | vmad | vdot =>
      simp only [vector2, vmad, vdot, Lane.readV, Lane.writeV]
      by_cases h₁ : i.src1.toNat < vecRegs <;> by_cases h₂ : i.src2.toNat < vecRegs <;>
        by_cases h₃ : i.dst.toNat < vecRegs <;> simp only [h₁, h₂, h₃] <;> rfl
  | vbroadcast | vreduce =>
      simp only [vbroadcast, vreduce, Lane.readV, Lane.writeV]
      by_cases h₁ : i.dst.toNat < vecRegs <;> simp only [h₁] <;> rfl
  | load | loadv | store | storev | atomicAdd => cases hlen

/-- The address test looks at the size of the memory alone. -/
theorem outOfBounds_congr {m m' : DevMem} (hsize : m'.size = m.size) (addr : BitVec 64)
    (len : Nat) :
    m'.outOfBounds addr len = m.outOfBounds addr len := by
  rw [DevMem.outOfBounds, DevMem.outOfBounds, hsize]

theorem memoryBody_nonneg {fields : Prop} {len : Nat} (h : MemoryBody i fields len body)
    {c e : Local} (hok : body c = .ok e) : 0 ≤ c.lane.effAddr i :=
  (((h c).of_eq_ok hok).2.2.1)

/-- The words of a vector lie in the range the instruction accesses. -/
theorem element_mem_accesses {r : Lane} (hpos : 0 ≤ r.effAddr i)
    (hlen : op.memLen = some (vecLanes * 4))
    (li : Fin vecLanes) {x : Nat} (hle : (r.memAddr i + BitVec.ofNat 64 (li * 4)).toNat ≤ x)
    (hlt : x < (r.memAddr i + BitVec.ofNat 64 (li * 4)).toNat + 4) : x ∈ r.accesses i op := by
  have hbase := memAddr_toNat r i
  have hli : li.val < 16 := li.isLt
  rw [memAddr_add_toNat hpos (by omega)] at hle hlt
  rw [if_pos hpos] at hbase
  have hlanes : vecLanes = 16 := rfl
  refine ⟨vecLanes * 4, hlen, ?_, ?_⟩ <;> omega

/-- **The frame of the work in a lane.** -/
theorem laneBody_alike (h : LaneBody F pc i op body) {c e : Local} {m' : DevMem}
    (hok : body c = .ok e)
    (hsize : m'.size = c.mem.size) (hsame : ∀ x ∈ c.lane.accesses i op,
      m'.bytes x = c.mem.bytes x) :
    ∃ e', body { c with mem := m' } = .ok e' ∧
      Local.Alike (c.lane.accesses i op) (c.lane.writes i op) c.mem m' e e' := by
  have halike : Local.Alike (c.lane.accesses i op) (c.lane.writes i op) c.mem m' c
      { c with mem := m' } :=
    .refl hsame
  by_cases hlen : op.memLen = none
  · have hkeeps := (laneBody_keeps h c).of_eq_ok hok
    have hmem : e.mem = c.mem := hkeeps.mem (isStore_of_memLen hlen) (by rintro rfl; cases hlen)
    refine ⟨{ e with mem := m' }, ?_, rfl, rfl, congrArg DevMem.size hmem, rfl, ?_, ?_, fun _ _ =>
      rfl⟩
    · rw [laneBody_withMem h hlen, hok, Outcome.ok_bind]
    · rw [hmem]
      exact hsame
    · intro x _
      rw [hmem]
  cases h with
  | scalar hop | vector2 hop => exact absurd hop.1 hlen
  | sel | cmp | vmad | vdot | vbroadcast | vreduce | rand => exact absurd rfl hlen
  | load =>
      have hin : ∀ x, (c.lane.memAddr i).toNat ≤ x → x < (c.lane.memAddr i).toNat + 4 →
          x ∈ c.lane.accesses i .load := fun x hle hlt => ⟨4, rfl, hle, hlt⟩
      unfold load at hok ⊢
      dsimp only at hok ⊢
      rw [outOfBounds_congr hsize]
      split_ifs at hok ⊢
      obtain ⟨v, hv, hrest⟩ := Outcome.bind_eq_ok_iff.mp hok
      obtain rfl := Outcome.ok.inj hrest
      exact ⟨_, Outcome.bind_eq_ok_iff.mpr ⟨v, (halike.read32 hsize hin).trans hv, rfl⟩,
        halike.withLane _⟩
  | store =>
      have hin : ∀ x, (c.lane.memAddr i).toNat ≤ x → x < (c.lane.memAddr i).toNat + 4 →
          x ∈ c.lane.writes i .store := fun x hle hlt => ⟨rfl, 4, rfl, hle, hlt⟩
      unfold store at hok ⊢
      dsimp only at hok ⊢
      rw [outOfBounds_congr hsize]
      split_ifs at hok ⊢
      obtain ⟨n, hn, hrest⟩ := Outcome.bind_eq_ok_iff.mp hok
      obtain rfl := Outcome.ok.inj hrest
      obtain ⟨n', hn', hdone⟩ := halike.write32 hsize hin hn
      exact ⟨_, Outcome.bind_eq_ok_iff.mpr ⟨n', hn', rfl⟩, hdone⟩
  | atomicAdd =>
      have hin : ∀ x, (c.lane.memAddr i).toNat ≤ x → x < (c.lane.memAddr i).toNat + 4 →
          x ∈ c.lane.writes i .atomicAdd := fun x hle hlt => ⟨rfl, 4, rfl, hle, hlt⟩
      unfold atomicAdd at hok ⊢
      dsimp only at hok ⊢
      rw [outOfBounds_congr hsize]
      split_ifs at hok ⊢
      obtain ⟨v, hv, hrest⟩ := Outcome.bind_eq_ok_iff.mp hok
      obtain ⟨n, hn, hrest⟩ := Outcome.bind_eq_ok_iff.mp hrest
      obtain rfl := Outcome.ok.inj hrest
      obtain ⟨n', hn', hdone⟩ := halike.write32 hsize hin hn
      refine ⟨_, Outcome.bind_eq_ok_iff.mpr ⟨v, ?_, Outcome.bind_eq_ok_iff.mpr ⟨n', hn', rfl⟩⟩,
        hdone.withLane _⟩
      exact (halike.read32 hsize fun x hle hlt => (hin x hle hlt).2).trans hv
  | loadv =>
      have hpos := memoryBody_nonneg (loadv_memoryBody i) hok
      unfold loadv at hok ⊢
      dsimp only at hok ⊢
      rw [outOfBounds_congr hsize]
      split_ifs at hok ⊢
      refine Outcome.forRange_related (fun li s s' t hs hstep => ?_) halike hok
      obtain ⟨v, hv, hrest⟩ := Outcome.bind_eq_ok_iff.mp hstep
      obtain rfl := Outcome.ok.inj hrest
      refine ⟨_, Outcome.bind_eq_ok_iff.mpr ⟨v, (hs.read32 hsize ?_).trans hv, rfl⟩, ?_⟩
      · exact fun x hle hlt => element_mem_accesses hpos rfl li hle hlt
      · rw [hs.lane]
        exact hs.withLane _
  | storev =>
      have hpos := memoryBody_nonneg (storev_memoryBody i) hok
      unfold storev at hok ⊢
      dsimp only at hok ⊢
      rw [outOfBounds_congr hsize]
      split_ifs at hok ⊢
      refine Outcome.forRange_related (fun li s s' t hs hstep => ?_) halike hok
      obtain ⟨v, hv, hrest⟩ := Outcome.bind_eq_ok_iff.mp hstep
      obtain ⟨n, hn, hrest⟩ := Outcome.bind_eq_ok_iff.mp hrest
      obtain rfl := Outcome.ok.inj hrest
      have hin : ∀ x, (c.lane.memAddr i + BitVec.ofNat 64 (li * 4)).toNat ≤ x →
          x < (c.lane.memAddr i + BitVec.ofNat 64 (li * 4)).toNat + 4 →
            x ∈ c.lane.writes i .storev :=
        fun x hle hlt => ⟨rfl, element_mem_accesses hpos rfl li hle hlt⟩
      obtain ⟨n', hn', hdone⟩ := hs.write32 hsize hin hn
      refine ⟨_, Outcome.bind_eq_ok_iff.mpr ⟨v, ?_, Outcome.bind_eq_ok_iff.mpr ⟨n', hn', rfl⟩⟩,
        hdone⟩
      rw [hs.lane]
      exact hv

end Work

/-! ### Two lanes -/

/-- Work in a lane that accesses memory inside `A` and writes it inside `W`, and counts no
`rand()`. -/
structure Framed (A W : Lane → Set Nat) (body : Local → LaneOutcome Local) : Prop where
  subset : ∀ r, W r ⊆ A r
  alike : ∀ {c e : Local} {m' : DevMem}, body c = .ok e → m'.size = c.mem.size →
    (∀ x ∈ A c.lane, m'.bytes x = c.mem.bytes x) →
      ∃ e', body { c with mem := m' } = .ok e' ∧ Local.Alike (A c.lane) (W c.lane) c.mem m' e e'
  rands : ∀ {c e : Local}, body c = .ok e → e.rands = c.rands

theorem laneBody_framed {F : HostMath} {pc : Word} {i : BvInsn} {op : Opcode}
    {body : Local → LaneOutcome Local} (h : LaneBody F pc i op body) (hrand : op ≠ .rand) :
    Framed (fun r => r.accesses i op) (fun r => r.writes i op) body where
  subset r := r.writes_subset i op
  alike hok hsize hsame := laneBody_alike h hok hsize hsame
  rands {c e} hok := by
    have hframes := laneBody_frames h hrand c c
    rw [reframe_of_sameRegs (.refl _) rfl, hok, Outcome.ok_bind] at hframes
    have he := Outcome.ok.inj hframes
    rw [he]
    rfl

theorem pushRet_framed (pc : Word) : Framed (fun _ => ∅) (fun _ => ∅) (pushRet pc) where
  subset _ := le_rfl
  alike {c e m'} hok hsize _ := by
    have hmem := (pushRet_sat pc c).of_eq_ok hok
    refine ⟨{ e with mem := m' }, ?_, rfl, rfl, congrArg DevMem.size hmem, rfl, fun _ hx => hx.elim,
      fun _ _ => by rw [hmem], fun _ _ => rfl⟩
    unfold pushRet at hok ⊢
    dsimp only
    split_ifs at hok ⊢
    obtain rfl := Outcome.ok.inj hok
    rfl
  rands {c e} hok := by
    unfold pushRet at hok
    split_ifs at hok
    obtain rfl := Outcome.ok.inj hok
    rfl

theorem Framed.frame {A W : Lane → Set Nat} {body : Local → LaneOutcome Local} (h : Framed A W body)
    {c e : Local} (hok : body c = .ok e) :
    e.mem.size = c.mem.size ∧ ∀ x ∉ W c.lane, e.mem.bytes x = c.mem.bytes x := by
  obtain ⟨_, _, halike⟩ := h.alike hok rfl fun _ _ => rfl
  exact ⟨halike.size, halike.frame⟩

/-- The works of two lanes with the registers `r` and `r'` leave the same in either order. -/
def Commute (f g : Local → LaneOutcome Local) (r r' : Lane) : Prop :=
  ∀ (m : DevMem) (n : Nat) (c e : Local), f ⟨r, m, n⟩ = .ok c → g ⟨r', c.mem, c.rands⟩ = .ok e →
    ∃ e' c', g ⟨r', m, n⟩ = .ok e' ∧ f ⟨r, e'.mem, e'.rands⟩ = .ok c' ∧ e'.lane = e.lane ∧
      c'.lane = c.lane ∧ c'.mem = e.mem ∧ c'.rands = e.rands

/-- Work that writes nothing the other work accesses. -/
theorem Framed.commute {A W : Lane → Set Nat} {f g : Local → LaneOutcome Local} (hf : Framed A W f)
    (hg : Framed A W g) {r r' : Lane} (hfg : ∀ x ∈ W r, x ∉ A r') (hgf : ∀ x ∈ W r', x ∉ A r) :
    Commute f g r r' := by
  intro m n c e hc he
  obtain ⟨hsize, hframe⟩ := hf.frame hc
  have hrands := hf.rands hc
  rw [hrands] at he
  have hbefore : ∀ x ∈ A r', m.bytes x = c.mem.bytes x := fun x hx =>
    (hframe x fun hw => hfg x hw hx).symm
  obtain ⟨e', he', hse⟩ := hg.alike he hsize.symm hbefore
  have hrands' := hg.rands he'
  have hbehind : ∀ x ∈ A r, e'.mem.bytes x = m.bytes x := fun x hx =>
    hse.frame' x fun hw => hgf x hw hx
  obtain ⟨c', hc', hsc⟩ := hf.alike hc hse.size' hbehind
  refine ⟨e', c', he', ?_, hse.lane, hsc.lane, ?_, ?_⟩
  · rw [hrands']
    exact hc'
  · refine DevMem.ext (funext fun x => ?_)
      (hsc.size'.trans (hse.size'.trans (hsize.symm.trans hse.size.symm)))
    by_cases hw : x ∈ W r
    · have hnot : x ∉ W r' := fun hw' => hfg x hw (hg.subset r' hw')
      exact (hsc.same x (hf.subset r hw)).trans (hse.frame x hnot).symm
    · rw [hsc.frame' x hw]
      by_cases hw' : x ∈ W r'
      · exact hse.same x (hg.subset r' hw')
      · exact (hse.frame' x hw').trans ((hframe x hw).symm.trans (hse.frame x hw').symm)
  · exact hsc.rands.trans (hrands.trans (hg.rands he).symm)

/-! ### Two lanes that store the same -/

/-- Two lanes store the same at the same place. -/
structure Lane.StoresAlike (i : BvInsn) (op : Opcode) (r r' : Lane) : Prop where
  addr : r.memAddr i = r'.memAddr i
  word : op = .store → r.s i.dst = r'.s i.dst
  vector : op = .storev → r.readV i.dst = r'.readV i.dst

theorem Lane.StoresAlike.symm {i : BvInsn} {op : Opcode} {r r' : Lane} (h : r.StoresAlike i op r') :
    r'.StoresAlike i op r :=
  ⟨h.addr.symm, fun hop => (h.word hop).symm, fun hop => (h.vector hop).symm⟩

section Stores

variable {F : HostMath} {pc : Word} {i : BvInsn} {op : Opcode} {f g : Local → LaneOutcome Local}
  {r r' : Lane}

/-- A store does to memory what a store of the same does in another lane. -/
theorem store_of_storesAlike (h : r.StoresAlike i .store r') {m : DevMem} {n : Nat} {c : Local}
    (hok : store i ⟨r, m, n⟩ = .ok c) : c.lane = r ∧ store i ⟨r', m, n⟩ =
      .ok ⟨r', c.mem, c.rands⟩ := by
  unfold store at hok ⊢
  dsimp only at hok ⊢
  rw [← h.addr, ← h.word rfl]
  split_ifs at hok ⊢
  obtain ⟨m', hm, hrest⟩ := Outcome.bind_eq_ok_iff.mp hok
  obtain rfl := Outcome.ok.inj hrest
  exact ⟨rfl, Outcome.bind_eq_ok_iff.mpr ⟨m', hm, rfl⟩⟩

theorem storev_of_storesAlike (h : r.StoresAlike i .storev r') {m : DevMem} {n : Nat} {c : Local}
    (hok : storev i ⟨r, m, n⟩ = .ok c) : c.lane = r ∧ storev i ⟨r', m, n⟩ =
      .ok ⟨r', c.mem, c.rands⟩ := by
  unfold storev at hok ⊢
  dsimp only at hok ⊢
  rw [← h.addr]
  split_ifs at hok ⊢
  have hrun :=
    Outcome.forRange_related (R := fun s s' : Local => s.lane = r ∧ s' = ⟨r', s.mem, s.rands⟩)
    ?_ ⟨rfl, rfl⟩ hok
  · obtain ⟨e', he', hlane, rfl⟩ := hrun
    exact ⟨hlane, he'⟩
  · rintro li s s' t ⟨hlane, rfl⟩ hstep
    obtain ⟨v, hv, hrest⟩ := Outcome.bind_eq_ok_iff.mp hstep
    obtain ⟨m', hm, hrest⟩ := Outcome.bind_eq_ok_iff.mp hrest
    obtain rfl := Outcome.ok.inj hrest
    rw [hlane, h.vector rfl] at hv
    exact ⟨_, Outcome.bind_eq_ok_iff.mpr ⟨v, hv, Outcome.bind_eq_ok_iff.mpr ⟨m', hm, rfl⟩⟩, hlane,
      rfl⟩

theorem laneBody_of_storesAlike (hf : LaneBody F pc i op f) (hg : LaneBody F pc i op g)
    (hstore : op.isStore = true) (h : r.StoresAlike i op r') {m : DevMem} {n : Nat} {c : Local}
    (hok : f ⟨r, m, n⟩ = .ok c) : c.lane = r ∧ g ⟨r', m, n⟩ = .ok ⟨r', c.mem, c.rands⟩ := by
  cases hf with
  | store =>
      cases hg with
      | store => exact store_of_storesAlike h hok
      | scalar hop | vector2 hop => cases hop.1
  | storev =>
      cases hg with
      | storev => exact storev_of_storesAlike h hok
      | scalar hop | vector2 hop => cases hop.1
  | scalar hop | vector2 hop => rw [isStore_of_memLen hop.1] at hstore; cases hstore
  | sel | cmp | vmad | vdot | vbroadcast | vreduce | rand | load | loadv | atomicAdd => cases hstore

theorem commute_of_storesAlike (hf : LaneBody F pc i op f) (hg : LaneBody F pc i op g)
    (hstore : op.isStore = true) (h : r.StoresAlike i op r') : Commute f g r r' := by
  intro m n c e hc he
  obtain ⟨hlane, hc'⟩ := laneBody_of_storesAlike hf hg hstore h hc
  obtain ⟨hlane', he'⟩ := laneBody_of_storesAlike hg hf hstore h.symm he
  exact ⟨_, _, hc', he', hlane'.symm, hlane.symm, rfl, rfl⟩

end Stores

/-! ### The loop -/

section Lanes

variable {body : Fin warpSize → Local → LaneOutcome Local} {pred : BitVec 8} {d d' t u : Device}
  {l a b : Fin warpSize} {ls ls' : List (Fin warpSize)}

/-- An enabled lane does its work. -/
theorem laneStep_eq (hen : d.EnabledLane pred l) :
    laneStep pred body l d =
      match body l (d.local l) with
      | .ok c => .ok (d.setLocal l c)
      | .stop () => bvrtTrap d
      | .undefined a => .undefined a := by
  have hin : ¬ (d.laneActive l = true ∧ PredOutOfRange pred) := fun h =>
    not_predHolds_of_outOfRange h.2 hen.2
  have henabled : d.enabled pred l = .ok true := by rw [enabled_eq, if_neg hin, decide_eq_true hen]
  unfold laneStep
  rw [henabled]
  rfl

theorem laneStep_of_enabled (hen : d.EnabledLane pred l) :
    laneStep pred body l d = .ok d' ↔ ∃ c, body l (d.local l) = .ok c ∧ d.setLocal l c = d' := by
  rw [laneStep_eq hen]
  cases body l (d.local l) <;> simp [bvrtTrap]

theorem laneStep_of_not_enabled (hen : ¬ d.EnabledLane pred l) :
    laneStep pred body l d = .ok d' ↔ ¬ (d.laneActive l = true ∧ PredOutOfRange pred) ∧ d = d' := by
  unfold laneStep
  rw [enabled_eq]
  by_cases hout : d.laneActive l = true ∧ PredOutOfRange pred
  · simp [hout]
  · simp [hout, hen]

/-- A lane leaves the control state and the other lanes as they are. -/
structure Device.SameBut (l : Fin warpSize) (d d' : Device) : Prop where
  control : d.SameControl d'
  lanes : ∀ b, b ≠ l → d'.lane b = d.lane b

theorem laneStep_sameBut (h : laneStep pred body l d = .ok d') : d.SameBut l d' := by
  by_cases hen : d.EnabledLane pred l
  · obtain ⟨c, -, rfl⟩ := (laneStep_of_enabled hen).mp h
    exact ⟨(Device.SameControl.refl d).setLocal l c, fun b hb => lane_setLocal_of_ne d c hb⟩
  · obtain ⟨-, rfl⟩ := (laneStep_of_not_enabled hen).mp h
    exact ⟨.refl d, fun _ _ => rfl⟩

theorem Device.SameBut.enabledLane (h : d.SameBut a d') (hb : b ≠ a) :
    d'.EnabledLane pred b ↔ d.EnabledLane pred b := h.control.enabledLane (h.lanes b hb) pred

/-- The works of the enabled lanes of the list commute. -/
structure Device.Commutes (body : Fin warpSize → Local → LaneOutcome Local) (pred : BitVec 8)
    (ls : List (Fin warpSize)) (d : Device) : Prop where
  nodup : ls.Nodup
  commute : ∀ a ∈ ls, ∀ b ∈ ls, a ≠ b → d.EnabledLane pred a → d.EnabledLane pred b →
    Commute (body a) (body b) (d.lane a) (d.lane b)

theorem Device.Commutes.perm (h : d.Commutes body pred ls) (hperm : ls.Perm ls') :
    d.Commutes body pred ls' where
  nodup := hperm.nodup_iff.mp h.nodup
  commute a ha b hb := h.commute a (hperm.mem_iff.mpr ha) b (hperm.mem_iff.mpr hb)

theorem Device.Commutes.next (h : d.Commutes body pred (a :: ls))
    (hstep : laneStep pred body a d = .ok d') :
    d'.Commutes body pred ls := by
  have hsame := laneStep_sameBut hstep
  have hne : ∀ {b}, b ∈ ls → b ≠ a := fun hb heq => (List.nodup_cons.mp h.nodup).1 (heq ▸ hb)
  refine ⟨(List.nodup_cons.mp h.nodup).2, fun b hb c hc hbc hen hen' => ?_⟩
  rw [hsame.enabledLane (hne hb)] at hen
  rw [hsame.enabledLane (hne hc)] at hen'
  rw [hsame.lanes b (hne hb), hsame.lanes c (hne hc)]
  exact h.commute b (.tail _ hb) c (.tail _ hc) hbc hen hen'

/-- **Two lanes in the other order.** -/
theorem Device.Commutes.swap (h : d.Commutes body pred (a :: b :: ls))
    (ha : laneStep pred body a d = .ok t) (hb : laneStep pred body b t = .ok u) :
    ∃ t', laneStep pred body b d = .ok t' ∧ laneStep pred body a t' = .ok u := by
  have hab : a ≠ b := fun heq => (List.nodup_cons.mp h.nodup).1 (heq ▸ .head _)
  have hsame := laneStep_sameBut ha
  by_cases hena : d.EnabledLane pred a
  case neg =>
    obtain ⟨hin, rfl⟩ := (laneStep_of_not_enabled hena).mp ha
    have hsame' := laneStep_sameBut hb
    refine ⟨u, hb, (laneStep_of_not_enabled (mt (hsame'.enabledLane hab).mp hena)).mpr ⟨?_, rfl⟩⟩
    rwa [hsame'.control.laneActive]
  by_cases henb : d.EnabledLane pred b
  case neg =>
    obtain ⟨hin, rfl⟩ := (laneStep_of_not_enabled (mt (hsame.enabledLane hab.symm).mp henb)).mp hb
    refine ⟨d, (laneStep_of_not_enabled henb).mpr ⟨?_, rfl⟩, ha⟩
    rwa [hsame.control.laneActive] at hin
  obtain ⟨ca, hca, rfl⟩ := (laneStep_of_enabled hena).mp ha
  obtain ⟨cb, hcb, rfl⟩ := (laneStep_of_enabled ((hsame.enabledLane hab.symm).mpr henb)).mp hb
  have hlane : (d.setLocal a ca).local b = ⟨d.lane b, ca.mem, ca.rands⟩ := by
    rw [Device.local, lane_setLocal_of_ne d ca hab.symm]
    rfl
  rw [hlane] at hcb
  obtain ⟨cb', ca', hcb', hca', hlb, hla, hmem, hrands⟩ :=
    h.commute a (.head _) b (.tail _ (.head _)) hab hena henb _ _ _ _ hca hcb
  have hsame' : d.SameBut b (d.setLocal b cb') :=
    ⟨(Device.SameControl.refl d).setLocal b cb', fun l hl => lane_setLocal_of_ne d cb' hl⟩
  refine ⟨d.setLocal b cb', (laneStep_of_enabled henb).mpr ⟨cb', hcb', rfl⟩,
    (laneStep_of_enabled ((hsame'.enabledLane hab).mpr hena)).mpr ⟨ca', ?_, ?_⟩⟩
  · rw [Device.local, lane_setLocal_of_ne d cb' hab]
    exact hca'
  · unfold Device.setLocal
    simp only [hlb, hla, hmem, hrands]
    rw [Function.update_comm hab]

theorem forEach_laneStep_perm (h : d.Commutes body pred ls) (hperm : ls.Perm ls')
    (hok : Outcome.forEach (laneStep pred body) ls d = .ok u) :
    Outcome.forEach (laneStep pred body) ls' d = .ok u :=
  Outcome.forEach_perm (fun ls d => d.Commutes body pred ls) (fun hp h => h.perm hp)
    (fun h hstep => h.next hstep) (fun h ha hb => h.swap ha hb) hperm h hok

end Lanes

/-! ### Branches and returns -/

/-- The loop of a branch asks for some lane, whichever it meets first. -/
theorem anyEnabled_perm {d : Device} {pred : BitVec 8} {ls ls' : List (Fin warpSize)}
    (h : ls.Perm ls') : anyEnabled d pred ls = anyEnabled d pred ls' := by
  induction h with
  | nil => rfl
  | cons l _ ih => rw [anyEnabled, anyEnabled, ih]
  | swap a b ls =>
      simp only [anyEnabled, enabled_eq]
      by_cases hout : PredOutOfRange pred
      · have hno (l : Fin warpSize) : ¬ d.EnabledLane pred l := fun h =>
          not_predHolds_of_outOfRange hout h.2
        by_cases ha : d.laneActive a = true <;> by_cases hb : d.laneActive b = true <;>
          simp [hout, ha, hb, hno]
      · by_cases ha : d.EnabledLane pred a <;> by_cases hb : d.EnabledLane pred b <;>
          simp [hout, ha, hb]
  | trans _ _ ih₁ ih₂ => exact ih₁.trans ih₂

/-- Where a lane returns to. -/
def Lane.returnAddr (r : Lane) : Option Word :=
  if h : r.retsp.val = 0 then none else some (r.ret ⟨r.retsp - 1, by omega⟩)

/-- A lane returned, to `pc`. -/
def Device.popLane (d : Device) (l : Fin warpSize) (pc : Word) : Device :=
  { d with warp := { d.warp with pc, lanes := Function.update d.warp.lanes l (d.lane l).pop } }

section Returns

variable {d d' t u : Device} {l a b : Fin warpSize} {ls ls' : List (Fin warpSize)}

theorem lane_popLane_of_ne (pc : Word) (h : b ≠ a) : (d.popLane a pc).lane b = d.lane b :=
  Function.update_of_ne h _ _

theorem popLane_comm (pc : Word) (h : a ≠ b) :
    (d.popLane a pc).popLane b pc = (d.popLane b pc).popLane a pc := by
  have hlanes :
      Function.update (Function.update d.warp.lanes a (d.lane a).pop) b
        ((d.popLane a pc).lane b).pop =
        Function.update (Function.update d.warp.lanes b (d.lane b).pop) a
          ((d.popLane b pc).lane a).pop := by
    rw [lane_popLane_of_ne pc h, lane_popLane_of_ne pc h.symm, Function.update_comm h]
  exact congrArg (fun lanes => { d with warp := { d.warp with pc, lanes } }) hlanes

theorem retStep_eq_ok_iff :
    retStep l d = .ok d' ↔ d.laneActive l = false ∧ d = d' ∨
      d.laneActive l = true ∧ ∃ pc, (d.lane l).returnAddr = some pc ∧ d.popLane l pc = d' := by
  unfold retStep Lane.returnAddr Device.popLane
  by_cases hact : d.laneActive l = true
  · by_cases hsp : (d.lane l).retsp.val = 0
    · simp [hact, hsp, bvrtTrap]
    · simp [hact, hsp, Lane.pop]
  · simp [hact]

theorem retStep_others (h : retStep a d = .ok d') :
    d'.warp.active = d.warp.active ∧ ∀ b, b ≠ a → d'.lane b = d.lane b := by
  rcases retStep_eq_ok_iff.mp h with ⟨-, rfl⟩ | ⟨-, pc, -, rfl⟩
  · exact ⟨rfl, fun _ _ => rfl⟩
  · exact ⟨rfl, fun b hb => lane_popLane_of_ne pc hb⟩

/-- The active lanes of the list return to one place. -/
structure Device.ReturnsTogether (ls : List (Fin warpSize)) (d : Device) : Prop where
  nodup : ls.Nodup
  same : ∀ a ∈ ls, ∀ b ∈ ls, d.laneActive a = true → d.laneActive b = true →
    (d.lane a).returnAddr = (d.lane b).returnAddr

theorem Device.ReturnsTogether.perm (h : d.ReturnsTogether ls) (hperm : ls.Perm ls') :
    d.ReturnsTogether ls' where
  nodup := hperm.nodup_iff.mp h.nodup
  same a ha b hb := h.same a (hperm.mem_iff.mpr ha) b (hperm.mem_iff.mpr hb)

theorem Device.ReturnsTogether.next (h : d.ReturnsTogether (a :: ls))
    (hstep : retStep a d = .ok d') :
    d'.ReturnsTogether ls := by
  obtain ⟨hactive, hlanes⟩ := retStep_others hstep
  have hne : ∀ {b}, b ∈ ls → b ≠ a := fun hb heq => (List.nodup_cons.mp h.nodup).1 (heq ▸ hb)
  refine ⟨(List.nodup_cons.mp h.nodup).2, fun b hb c hc hactb hactc => ?_⟩
  rw [Device.laneActive, hactive] at hactb hactc
  rw [hlanes b (hne hb), hlanes c (hne hc)]
  exact h.same b (.tail _ hb) c (.tail _ hc) hactb hactc

theorem Device.ReturnsTogether.swap (h : d.ReturnsTogether (a :: b :: ls))
    (ha : retStep a d = .ok t)
    (hb : retStep b t = .ok u) : ∃ t', retStep b d = .ok t' ∧ retStep a t' = .ok u := by
  have hab : a ≠ b := fun heq => (List.nodup_cons.mp h.nodup).1 (heq ▸ .head _)
  rcases retStep_eq_ok_iff.mp ha with ⟨hidle, rfl⟩ | ⟨hacta, pc, hpc, rfl⟩
  · obtain ⟨hactive, -⟩ := retStep_others hb
    refine ⟨u, hb, retStep_eq_ok_iff.mpr (.inl ⟨?_, rfl⟩)⟩
    rwa [Device.laneActive, hactive]
  · rcases retStep_eq_ok_iff.mp hb with ⟨hidle, rfl⟩ | ⟨hactb, pc', hpc', rfl⟩
    · exact ⟨d, retStep_eq_ok_iff.mpr (.inl ⟨hidle, rfl⟩), ha⟩
    · -- the second return comes to the pc the first one came to
      rw [lane_popLane_of_ne pc hab.symm] at hpc'
      have hsame := h.same a (.head _) b (.tail _ (.head _)) hacta hactb
      rw [hpc, hpc'] at hsame
      obtain rfl := Option.some.inj hsame
      refine ⟨d.popLane b pc, retStep_eq_ok_iff.mpr (.inr ⟨hactb, pc, hpc', rfl⟩),
        retStep_eq_ok_iff.mpr (.inr ⟨hacta, pc, ?_, popLane_comm pc hab.symm⟩)⟩
      rw [lane_popLane_of_ne pc hab]
      exact hpc

theorem forEach_retStep_perm (h : d.ReturnsTogether ls) (hperm : ls.Perm ls')
    (hok : Outcome.forEach retStep ls d = .ok u) : Outcome.forEach retStep ls' d = .ok u :=
  Outcome.forEach_perm (fun ls d => d.ReturnsTogether ls) (fun hp h => h.perm hp)
    (fun h hstep => h.next hstep) (fun h ha hb => h.swap ha hb) hperm h hok

end Returns

/-! ### The interpreter in another order -/

/-- `execute_insn` with its lanes taken in the order of `ls`. -/
def executeInsnIn (ls : List (Fin warpSize)) (F : HostMath) (d : Device) (i : BvInsn) : Exec :=
  match effect F d.warp.pc d.warp.cycles i with
  | .lanes body => do
      let d ← Outcome.forEach (laneStep i.pred body) ls d
      return d.advance
  | .branch => do
      if ← anyEnabled d i.pred ls then .ok (d.setPc (d.branchTarget i)) else .ok d.advance
  | .call => do
      let target := d.branchTarget i
      let d ← Outcome.forEach (laneStep i.pred fun _ => pushRet d.warp.pc) ls d
      return d.setPc target
  | .ret => Outcome.forEach retStep ls d
  | .barrier => .ok d.advance
  | .exit => .ok (d.setActive 0).advance
  | .trap => bvrtTrap d

/-- `bvrt_step` and `bvrt_run`, with the lanes of an instruction in the order `sched` has for the
state. -/
def bvrtStepIn (sched : Device → List (Fin warpSize)) (F : HostMath) (d : Device) : StepResult :=
  if d.warp.active = 0 then .ok (.halt, d)
  else if d.warp.pc.toInt < 0 then Exec.result (bvrtTrap d)
  else if d.img.ninsn ≤ d.warp.pc.toNat then Exec.result (bvrtTrap d)
  else Exec.result (executeInsnIn (sched d) F { d with insns := d.insns + 1 } d.fetch)

def bvrtRunLoopIn (sched : Device → List (Fin warpSize)) (F : HostMath) (maxInsns : Nat) :
    Nat → Device → StepResult
  | fuel + 1, d =>
      if d.warp.active ≠ 0 ∧ d.insns < maxInsns then
        match bvrtStepIn sched F d with
        | .ok (.ok, d) => bvrtRunLoopIn sched F maxInsns fuel d
        | r => r
      else if d.warp.active = 0 then .ok (.halt, d) else .ok (.timeout, d)
  | 0, d => if d.warp.active = 0 then .ok (.halt, d) else .ok (.timeout, d)

def bvrtRunIn (sched : Device → List (Fin warpSize)) (F : HostMath) (d : Device) (maxInsns : Nat) :
    StepResult :=
  bvrtRunLoopIn sched F maxInsns (maxInsns - d.insns) d

/-- The instruction at the pc has no race: no enabled lane writes what another one accesses, unless
both store the same; at most one draws a random number, and the active lanes return together. -/
structure Device.RaceFree (d : Device) : Prop where
  mem : ∀ op, Opcode.ofByte d.fetch.op = some op → ∀ a b, a ≠ b → d.EnabledLane d.fetch.pred a →
    d.EnabledLane d.fetch.pred b →
      (∀ x ∈ (d.lane a).writes d.fetch op, x ∉ (d.lane b).accesses d.fetch op) ∨
        op.isStore = true ∧ (d.lane a).StoresAlike d.fetch op (d.lane b)
  rand : Opcode.ofByte d.fetch.op = some .rand → ∀ a b, d.EnabledLane d.fetch.pred a →
    d.EnabledLane d.fetch.pred b → a = b
  ret : Opcode.ofByte d.fetch.op = some .ret → ∀ a b, d.laneActive a = true →
    d.laneActive b = true →
    (d.lane a).returnAddr = (d.lane b).returnAddr

section Order

variable {F : HostMath} {d d' : Device} {ls ls' : List (Fin warpSize)}

/-- The order of the source. -/
theorem executeInsnIn_finRange (i : BvInsn) :
    executeInsnIn (List.finRange warpSize) F d i = executeInsn F d i := by
  unfold executeInsnIn executeInsn
  cases effect F d.warp.pc d.warp.cycles i with
  | lanes body => simp only [forLanes, Outcome.forRange_eq_forEach]
  | call => simp only [forLanes, Outcome.forRange_eq_forEach]
  | ret => exact (Outcome.forRange_eq_forEach retStep d).symm
  | branch | barrier | exit | trap => rfl

theorem executeInsnIn_perm (hrace : d.RaceFree) (hnodup : ls.Nodup) (hperm : ls.Perm ls')
    (hok : executeInsnIn ls F d.counted d.fetch = .ok d') :
    executeInsnIn ls' F d.counted d.fetch = .ok d' := by
  unfold executeInsnIn at hok ⊢
  cases heff : effect F d.counted.warp.pc d.counted.warp.cycles d.fetch with
  | lanes body =>
      rw [heff] at hok
      dsimp only at hok ⊢
      obtain ⟨e, he, hadv⟩ := Outcome.bind_eq_ok_iff.mp hok
      obtain ⟨op, hop, hbody⟩ := laneBody_of_effect heff
      have hcommutes : d.counted.Commutes body d.fetch.pred ls := by
        refine ⟨hnodup, fun a _ b _ hab hen hen' => ?_⟩
        have hrand : op ≠ .rand := by
          rintro rfl
          exact hab (hrace.rand hop a b hen hen')
        have hframed (l : Fin warpSize) := laneBody_framed (hbody l) hrand
        rcases hrace.mem op hop a b hab hen hen' with hapart | ⟨hstore, halike⟩
        · rcases hrace.mem op hop b a hab.symm hen' hen with hapart' | ⟨hstore, halike⟩
          · exact (hframed a).commute (hframed b) hapart hapart'
          · exact commute_of_storesAlike (hbody a) (hbody b) hstore halike.symm
        · exact commute_of_storesAlike (hbody a) (hbody b) hstore halike
      exact Outcome.bind_eq_ok_iff.mpr ⟨e, forEach_laneStep_perm hcommutes hperm he, hadv⟩
  | call =>
      rw [heff] at hok
      dsimp only at hok ⊢
      obtain ⟨e, he, hadv⟩ := Outcome.bind_eq_ok_iff.mp hok
      have hframed := pushRet_framed d.counted.warp.pc
      have hcommutes : d.counted.Commutes (fun _ => pushRet d.counted.warp.pc) d.fetch.pred ls :=
        ⟨hnodup, fun _ _ _ _ _ _ _ =>
          hframed.commute hframed (fun _ hx => hx.elim) fun _ hx => hx.elim⟩
      exact Outcome.bind_eq_ok_iff.mpr ⟨e, forEach_laneStep_perm hcommutes hperm he, hadv⟩
  | ret =>
      rw [heff] at hok
      have hop := effect_cases F d.counted.warp.pc d.counted.warp.cycles d.fetch
      rw [heff] at hop
      exact forEach_retStep_perm ⟨hnodup, fun a _ b _ => hrace.ret hop a b⟩ hperm hok
  | branch =>
      rw [heff] at hok
      dsimp only at hok ⊢
      rwa [← anyEnabled_perm hperm]
  | barrier | exit | trap =>
      rw [heff] at hok
      exact hok

theorem exec_result_eq_ok_iff {x : Exec} {st : BvStatus} (hst : st ≠ .trap) :
    x.result = .ok (st, d') ↔ x = .ok d' ∧ st = .ok := by
  cases x with
  | ok e =>
      simp only [Exec.result, Except.ok.injEq, Prod.mk.injEq, Outcome.ok.injEq]
      exact ⟨fun h => ⟨h.2, h.1.symm⟩, fun h => ⟨h.2.symm, h.1⟩⟩
  | stop e =>
      simp only [Exec.result, Except.ok.injEq, Prod.mk.injEq, reduceCtorEq, false_and, iff_false]
      exact fun h => hst h.1.symm
  | undefined a => simp [Exec.result]

variable {sched : Device → List (Fin warpSize)} {st : BvStatus}

theorem bvrtStepIn_of_executing (h : d.Executing) :
    bvrtStepIn sched F d = Exec.result (executeInsnIn (sched d) F d.counted d.fetch) := by
  obtain ⟨hactive, hpos, hlt⟩ := h
  rw [bvrtStepIn, if_neg hactive, if_neg (by omega), if_neg (by omega)]
  rfl

/-- A step from a state without a race leaves the same, whatever the order of its lanes. -/
theorem bvrtStepIn_eq_ok_iff (hrace : d.Executing → d.RaceFree)
    (hsched : (sched d).Perm (List.finRange warpSize)) (hst : st ≠ .trap) :
    bvrtStepIn sched F d = .ok (st, d') ↔ bvrtStep F d = .ok (st, d') := by
  by_cases hex : d.Executing
  · rw [bvrtStepIn_of_executing hex, bvrtStep_of_executing hex, exec_result_eq_ok_iff hst,
      exec_result_eq_ok_iff hst, ← executeInsnIn_finRange]
    have hfree := hrace hex
    have hnodup := List.nodup_finRange warpSize
    exact and_congr_left' ⟨executeInsnIn_perm hfree (hsched.nodup_iff.mpr hnodup) hsched,
      executeInsnIn_perm hfree hnodup hsched.symm⟩
  · unfold Device.Executing at hex
    unfold bvrtStepIn bvrtStep
    split_ifs
    · rfl
    · rfl
    · rfl
    · exact absurd ⟨‹_›, by omega, by omega⟩ hex

/-- A run loop goes on behind a step that returned `BV_OK`. -/
theorem runOn_eq_ok_iff {r : StepResult} {f : Device → StepResult} :
    (match r with
      | .ok (.ok, d) => f d
      | r => r) = .ok (st, d') ↔
      (∃ e, r = .ok (.ok, e) ∧ f e = .ok (st, d')) ∨ st ≠ .ok ∧ r = .ok (st, d') := by
  rcases r with a | ⟨st', e⟩
  · simp
  · cases st'
    case ok =>
      simp only [Except.ok.injEq, Prod.mk.injEq, true_and, exists_eq_left']
      refine ⟨.inl, fun h => h.resolve_right fun h => h.1 h.2.1.symm⟩
    all_goals
      simp only [Except.ok.injEq, Prod.mk.injEq, reduceCtorEq, false_and, exists_false, false_or]
      refine ⟨fun h => ⟨?_, h⟩, fun h => h.2⟩
      rw [← h.1]
      exact BvStatus.noConfusion

/-- The states `bvrt_run` executes an instruction in have no race. -/
def Device.RunRaceFree (F : HostMath) (maxInsns : Nat) (d : Device) : Prop :=
  ∀ n e, d.Steps F n e → e.Executing → e.insns < maxInsns → e.RaceFree

theorem bvrtRunLoopIn_eq_ok_iff {maxInsns : Nat}
    (hsched : ∀ d, (sched d).Perm (List.finRange warpSize)) (hst : st ≠ .trap) (fuel : Nat)
    (hrace : d.RunRaceFree F maxInsns) :
    bvrtRunLoopIn sched F maxInsns fuel d = .ok (st, d') ↔
      bvrtRunLoop F maxInsns fuel d = .ok (st, d') := by
  induction fuel generalizing d with
  | zero => rfl
  | succ fuel ih =>
      rw [bvrtRunLoopIn, bvrtRunLoop]
      by_cases hgo : d.warp.active ≠ 0 ∧ d.insns < maxInsns
      case neg => rw [if_neg hgo, if_neg hgo]
      rw [if_pos hgo, if_pos hgo]
      have hstep {st : BvStatus} {e : Device} (hst : st ≠ .trap) :
          bvrtStepIn sched F d = .ok (st, e) ↔ bvrtStep F d = .ok (st, e) :=
        bvrtStepIn_eq_ok_iff (fun hex => hrace 0 d rfl hex hgo.2) (hsched d) hst
      refine runOn_eq_ok_iff.trans (Iff.trans ?_ runOn_eq_ok_iff.symm)
      refine or_congr (exists_congr fun e => ?_) (and_congr_right' (hstep hst))
      rw [hstep BvStatus.noConfusion]
      exact and_congr_right fun hok => ih fun n e' hsteps =>
        hrace (n + 1) e' (steps_succ_iff.mpr ⟨e, next_eq_ok_iff.mpr hok, hsteps⟩)

end Order

/-- **The order of the lanes does not matter.** Where no instruction of a run has a race, the run
ends in the same state and with the same status for every order of the lanes, be it another one at
each instruction; a run that traps in one order ends properly in none. -/
theorem bvrtRunIn_eq_ok_iff (F : HostMath) (sched : Device → List (Fin warpSize)) {d d' : Device}
    {maxInsns : Nat} {st : BvStatus} (hsched : ∀ d, (sched d).Perm (List.finRange warpSize))
    (hrace : d.RunRaceFree F maxInsns) (hst : st ≠ .trap) :
    bvrtRunIn sched F d maxInsns = .ok (st, d') ↔ bvrtRun F d maxInsns = .ok (st, d') :=
  bvrtRunLoopIn_eq_ok_iff hsched hst _ hrace

/-! ### A run without a race -/

section RaceFree

variable {d : Device}

theorem raceFree_of_registers (op : Opcode) (hop : Opcode.ofByte d.fetch.op = some op)
    (hmem : op.writesMem = false) (hrand : op ≠ .rand) (hret : op ≠ .ret) : d.RaceFree where
  mem op' hop' := by
    obtain rfl := Option.some.inj (hop.symm.trans hop')
    refine fun a b _ _ _ => .inl fun x hx => ?_
    obtain ⟨hwrites, -⟩ := hx
    rw [hmem] at hwrites
    cases hwrites
  rand hop' := absurd (Option.some.inj (hop.symm.trans hop')) hrand
  ret hop' := absurd (Option.some.inj (hop.symm.trans hop')) hret

theorem raceFree_of_store (op : Opcode) {len : Nat} (hop : Opcode.ofByte d.fetch.op = some op)
    (hlen : op.memLen = some len) (hapart : ∀ a b, a < b →
      ((d.lane a).memAddr d.fetch).toNat + len ≤ ((d.lane b).memAddr d.fetch).toNat) :
        d.RaceFree where
  mem op' hop' := by
    obtain rfl := Option.some.inj (hop.symm.trans hop')
    refine fun a b hab _ _ => .inl fun x hx hx' => ?_
    obtain ⟨-, len₁, hlen₁, hle₁, hlt₁⟩ := hx
    obtain ⟨len₂, hlen₂, hle₂, hlt₂⟩ := hx'
    obtain rfl := Option.some.inj (hlen.symm.trans hlen₁)
    obtain rfl := Option.some.inj (hlen.symm.trans hlen₂)
    rcases lt_or_gt_of_ne hab with hlt | hgt
    · have hle := hapart a b hlt
      omega
    · have hle := hapart b a hgt
      omega
  rand hop' := by
    obtain rfl := Option.some.inj (hop.symm.trans hop')
    cases hlen
  ret hop' := by
    obtain rfl := Option.some.inj (hop.symm.trans hop')
    cases hlen

end RaceFree

/-- A kernel whose lanes write their numbers to memory. -/
def numbersKernel : BvbcImage :=
  { BvbcImage.zero with
    kernels := [{ name := kernelName (cstr "k"), entry := 0, nargs := 0 }]
    insns := .array [bven Opcode.iadd.toByte 0 2 1 1 0 0 0, bven Opcode.iadd.toByte 0 2 2 2 0 0 0,
      bven Opcode.store.toByte 0 1 2 0 0 0 0, bven Opcode.exit.toByte 0 0 0 0 0 0 0]
    ninsn := 4 }

def numbersLaunched : Device :=
  { bvrtLoad (bvrtCreate 128 fun _ => 0) numbersKernel with
    warp := {
      pc := 0
      active := 0xFFFFFFFF
      lanes := fun l => { Lane.zero with s := launchRegs [] l }
      cycles := 0 } }

/-- The state after `n` instructions. -/
def numbersAfter : Nat → Device
  | 0 => numbersLaunched
  | n + 1 => stepped (numbersAfter n)

theorem bvrtStep_stepped {d : Device} {st : BvStatus}
    (h : (bvrtStep .integer d).map Prod.fst = .ok st) : bvrtStep .integer d =
      .ok (st, stepped d) := by
  unfold stepped
  revert h
  rcases bvrtStep .integer d with a | ⟨st', e⟩ <;> intro h
  · cases h
  · obtain rfl := Except.ok.inj h
    rfl

theorem numbersAfter_step {k : Nat} (hk : k < 4) :
    bvrtStep .integer (numbersAfter k) = .ok (.ok, numbersAfter (k + 1)) := by
  apply bvrtStep_stepped
  interval_cases k <;> rfl

theorem numbersAfter_steps {k n : Nat} {e : Device} (h : (numbersAfter k).Steps .integer n e)
    (hactive : e.warp.active ≠ 0) (hk : k ≤ 4) : ∃ j < 4, e = numbersAfter j := by
  induction n generalizing k with
  | zero =>
      obtain rfl := Except.ok.inj h
      refine ⟨k, lt_of_le_of_ne hk ?_, rfl⟩
      rintro rfl
      exact hactive rfl
  | succ n ih =>
      obtain ⟨e', he', hrest⟩ := steps_succ_iff.mp h
      rcases lt_or_eq_of_le hk with hlt | rfl
      · rw [next_eq_ok_iff.mpr (numbersAfter_step hlt)] at he'
        obtain rfl := Except.ok.inj he'
        exact ih hrest hlt
      · exact absurd rfl (executing_of_next he').1.1

theorem numbers_raceFree : numbersLaunched.RunRaceFree .integer 10 := by
  intro n e hsteps hex _
  obtain ⟨j, hj, rfl⟩ := numbersAfter_steps (k := 0) hsteps hex.1 (by decide)
  have haddr : ∀ l, (((numbersAfter 2).lane l).memAddr (numbersAfter 2).fetch).toNat =
    4 * l.val := by decide
  interval_cases j
  · exact raceFree_of_registers .iadd rfl rfl (by decide) (by decide)
  · exact raceFree_of_registers .iadd rfl rfl (by decide) (by decide)
  · refine raceFree_of_store .store rfl rfl fun a b hab => ?_
    have hlt := Fin.lt_def.mp hab
    rw [haddr, haddr]
    omega
  · exact raceFree_of_registers .exit rfl rfl (by decide) (by decide)

theorem numbers_reversed :
    bvrtRunIn (fun _ => (List.finRange warpSize).reverse) .integer numbersLaunched 10 =
      .ok (.halt, numbersAfter 4) := by
  have hrun : bvrtRun .integer (numbersAfter 0) 10 = .ok (.halt, numbersAfter 4) := by
    rw [bvrtRun_of_next (by decide) (next_eq_ok_iff.mpr (numbersAfter_step (by decide : 0 < 4))),
      bvrtRun_of_next (by decide) (next_eq_ok_iff.mpr (numbersAfter_step (by decide : 1 < 4))),
      bvrtRun_of_next (by decide) (next_eq_ok_iff.mpr (numbersAfter_step (by decide : 2 < 4))),
      bvrtRun_of_next (by decide) (next_eq_ok_iff.mpr (numbersAfter_step (by decide : 3 < 4)))]
    exact bvrtRun_of_halted rfl
  exact (bvrtRunIn_eq_ok_iff .integer _ (fun _ => List.reverse_perm _) numbers_raceFree
    (by decide)).mpr hrun

end BradVector
