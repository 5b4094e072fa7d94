import Mathlib.Data.Option.NAry
import BradVector.Proof.Runs

/-!
# Kernels in lockstep

In the kernels of the host libraries all lanes are active from the launch to the EXIT, and what
matters of their registers has the same value in all of them. Such a warp does what a single thread
would do: `Thread` is that thread, `Thread.exec` runs one of the instructions the kernels are made
of, and `Device.At` relates the warp to it.
-/

namespace BradVector

open CSem Machine

/-! ### The thread -/

/-- A scalar register or `P0` is `none` where nothing is known of it. -/
structure Thread where
  s : BitVec 8 → Option Word
  p0 : Option Word
  mem : DevMem

/-- `dst` becomes `v`; `S0` never does. -/
def Thread.set (t : Thread) (dst : BitVec 8) (v : Option Word) : Thread :=
  if dst = sZero then t else { t with s := Function.update t.s dst v }

/-- The address of a memory instruction. -/
def Thread.addr (t : Thread) (i : BvInsn) : Option (BitVec 64) :=
  (t.s i.src1).map fun a => a.signExtend 64 + i.imm.signExtend 64

def DevMem.poke32 (m : DevMem) (off : Nat) (w : Word) : DevMem :=
  { m with bytes := writeBytes m.bytes off (toLE 4 w.toNat) }

/-- One instruction. Its access, if it makes one, is taken to be inside the memory. -/
def Thread.exec (F : HostMath) (t : Thread) (i : BvInsn) : Thread :=
  let unary (f : Word → Word) := t.set i.dst ((t.s i.src1).map f)
  let binary (f : Word → Word → Word) := t.set i.dst (Option.map₂ f (t.s i.src1) (t.s i.src2))
  match Opcode.ofByte i.op with
  | some .addi => unary fun a => F.add a (floatOfImm i.imm)
  | some .rcp => unary (F.div floatOne)
  | some .exp2 => unary F.exp2
  | some .add => binary F.add
  | some .sub => binary F.sub
  | some .mul => binary F.mul
  | some .max => binary fun a b => if F.lt b a then a else b
  | some .iadd => binary fun a b => a + b
  | some .isub => binary fun a b => a - b
  | some .mad =>
      t.set i.dst (Option.map₂ (fun f x => f x)
        (Option.map₂ F.mad (t.s i.src1) (t.s i.src2)) (t.s i.dst))
  | some .load => t.set i.dst ((t.addr i).map fun a => wordAt t.mem.bytes a.toNat)
  | some .store =>
      match t.addr i, t.s i.dst with
      | some a, some v => { t with mem := t.mem.poke32 a.toNat v }
      | _, _ => t
  | some .cmp =>
      let test (a b : Word) : Word := if compare i.flags a b then 1 else 0
      { t with p0 := Option.map₂ test (t.s i.src1) (t.s i.src2) }
  | _ => t

/-- The instruction is one of those, and enough is known to run it. -/
def Thread.Knows (t : Thread) (i : BvInsn) : Prop :=
  i.pred = 0 ∧
    match Opcode.ofByte i.op with
    | some .addi | some .rcp | some .exp2 | some .add | some .sub | some .mul | some .max
    | some .iadd | some .isub | some .mad => True
    | some .load => (t.s i.src1).isSome
    | some .store => (t.s i.src1).isSome ∧ (t.s i.dst).isSome
    | some .cmp => i.dst = 0
    | _ => False

/-- Its access, if it makes one, is inside the memory. -/
def Thread.Fits (t : Thread) (i : BvInsn) : Prop :=
  match Opcode.ofByte i.op with
  | some .load | some .store => ∀ a, t.addr i = some a → a.toNat + 4 ≤ t.mem.size
  | _ => True

/-! ### The warp -/

/-- All lanes are active, come to the instruction at `pc`, and agree with the thread. -/
structure Device.At (d : Device) (img : BvbcImage) (pc : Nat) (t : Thread) : Prop where
  img : d.img = img
  pc : d.warp.pc = BitVec.ofNat 32 pc
  active : d.warp.active = 0xFFFFFFFF
  s : ∀ l r w, t.s r = some w → (d.lane l).s r = w
  p0 : ∀ l w, t.p0 = some w → (d.lane l).p ⟨0, by decide⟩ = w
  mem : d.mem = t.mem

/-- The instruction at `pc` is `i`. -/
structure BvbcImage.Fetches (img : BvbcImage) (pc : Nat) (i : BvInsn) : Prop where
  lt : pc < img.ninsn
  ninsn_le : img.ninsn ≤ bvbcMaxInsn
  insn : bvDecode (img.insn pc) = i

section At

variable {F : HostMath} {d : Device} {img : BvbcImage} {pc : Nat} {t t' : Thread} {i : BvInsn}

theorem Device.At.active_ne (h : d.At img pc t) : d.warp.active ≠ 0 := by
  rw [h.active]
  decide

theorem Device.At.executing (h : d.At img pc t) (hf : img.Fetches pc i) :
    d.Executing ∧ d.fetch = i := by
  have hlt := hf.lt
  have hmax : img.ninsn ≤ 65536 := hf.ninsn_le
  have hpc : d.warp.pc.toNat = pc := by
    rw [h.pc, BitVec.toNat_ofNat, Nat.mod_eq_of_lt (by omega)]
  refine ⟨⟨h.active_ne, ?_, ?_⟩, ?_⟩
  · rw [BitVec.toInt_eq_toNat_of_lt (by omega)]
    omega
  · rwa [hpc, h.img]
  · rw [Device.fetch, hpc, h.img]
    exact hf.insn

theorem Device.At.enabledLane (h : d.At img pc t) (l : Fin warpSize) : d.EnabledLane 0 l := by
  refine ⟨?_, .inl rfl⟩
  rw [Device.laneActive, h.active]
  revert l
  decide

/-- What is known of the thread's registers is so in the lane `r`. -/
structure LaneAgrees (r : Lane) (t : Thread) : Prop where
  s : ∀ reg w, t.s reg = some w → r.s reg = w
  p0 : ∀ w, t.p0 = some w → r.p ⟨0, by decide⟩ = w

theorem Device.At.lane (h : d.At img pc t) (l : Fin warpSize) : LaneAgrees (d.lane l) t :=
  ⟨h.s l, h.p0 l⟩

/-- **The data rule.** Where every lane does to its registers and to memory what the thread does,
the warp does so too, and the next instruction is due. A lane finds the memory as the thread does or
as the thread leaves it, since other lanes have come before. `E` is when it does not get through. -/
theorem Device.At.data_sat {body : Local → LaneOutcome Local} {E : Prop} (h : d.At img pc t)
    (hpred : i.pred = 0)
    (heff : ∀ cycles, effect F (BitVec.ofNat 32 pc) cycles i = .lanes fun _ => body)
    (hbody : ∀ r m n, LaneAgrees r t → (m = t.mem ∨ m = t'.mem) →
      (body ⟨r, m, n⟩).Sat (fun c => LaneAgrees c.lane t' ∧ c.mem = t'.mem ∧ ¬ E)
        (fun _ => E) fun _ => E) :
    (executeInsn F d.counted i).Sat (fun e => e.At img (pc + 1) t' ∧ ¬ E) (fun _ => E)
      fun _ => E := by
  have hloop : (forLanes 0 (fun _ => body) d.counted).Sat _ _ _ :=
    forLanes_sat (d := d.counted)
      (J := fun k m _ => (m = t.mem ∨ m = t'.mem) ∧ (0 < k → m = t'.mem ∧ ¬ E))
      (Q := fun _ r => LaneAgrees r t') (E := fun _ => E) (U := fun _ _ => E)
      ⟨.inl h.mem, fun h0 => absurd h0 (Nat.lt_irrefl 0)⟩
      (fun l _ _ hl _ => absurd (h.enabledLane l) hl)
      fun l m n _ hm => (hbody _ m n (h.lane l) hm.1).mono
        (fun c hc => ⟨hc.1, .inr hc.2.1, fun _ => hc.2⟩) (fun _ => id) fun _ => id
  have hpc : effect F d.counted.warp.pc d.counted.warp.cycles i = .lanes fun _ => body := by
    rw [← heff d.counted.warp.cycles, ← h.pc]
    rfl
  unfold executeInsn
  rw [hpc, hpred]
  refine Outcome.Sat.bind (hloop.mono (fun _ h => h) ?_ ?_) fun d' ⟨hdone, _, hm⟩ => ?_
  · rintro _ ⟨_, _, _, hE, -⟩
    exact hE
  · rintro a (⟨hout, -⟩ | ⟨_, _, _, _, hE⟩)
    · exact absurd hout (by decide)
    · exact hE
  · have hlane l := hdone.post_of_enabled (h.enabledLane l)
    have hmem := hm (by decide)
    refine ⟨⟨?_, ?_, ?_, fun l => (hlane l).s, fun l => (hlane l).p0, hmem.1⟩, hmem.2⟩
    · show d'.img = img
      rw [hdone.control]
      exact h.img
    · show d'.warp.pc + 1 = _
      rw [hdone.control.pc, BitVec.ofNat_add]
      exact congrArg (· + 1) h.pc
    · show d'.warp.active = _
      rw [hdone.control.active]
      exact h.active

end At

/-! ### One lane -/

section Lane

variable {F : HostMath} {r : Lane} {t : Thread} {i : BvInsn}

theorem LaneAgrees.wrS {dst : BitVec 8} {v : Word} {vk : Option Word} (h : LaneAgrees r t)
    (hv : ∀ w, vk = some w → v = w) : LaneAgrees (r.wrS dst v) (t.set dst vk) := by
  unfold Lane.wrS Thread.set
  by_cases hdst : dst = sZero
  · rw [if_pos hdst, if_pos hdst]
    exact h
  · rw [if_neg hdst, if_neg hdst]
    refine ⟨fun reg w hw => ?_, h.p0⟩
    show Function.update r.s dst v reg = w
    change Function.update t.s dst vk reg = some w at hw
    by_cases heq : reg = dst
    · subst heq
      rw [Function.update_self] at hw ⊢
      exact hv w hw
    · rw [Function.update_of_ne heq] at hw ⊢
      exact h.s reg w hw

@[simp]
theorem Thread.set_mem (dst : BitVec 8) (v : Option Word) : (t.set dst v).mem = t.mem := by
  unfold Thread.set
  split <;> rfl

theorem LaneAgrees.unary {f : Word → Word} (h : LaneAgrees r t) :
    LaneAgrees (r.wrS i.dst (f (r.s i.src1))) (t.set i.dst ((t.s i.src1).map f)) := by
  refine h.wrS fun w hw => ?_
  obtain ⟨a, ha, rfl⟩ := Option.map_eq_some_iff.mp hw
  rw [h.s _ a ha]

theorem LaneAgrees.binary {f : Word → Word → Word} (h : LaneAgrees r t) :
    LaneAgrees (r.wrS i.dst (f (r.s i.src1) (r.s i.src2)))
      (t.set i.dst (Option.map₂ f (t.s i.src1) (t.s i.src2))) := by
  refine h.wrS fun w hw => ?_
  obtain ⟨a, b, ha, hb, rfl⟩ := Option.map₂_eq_some_iff.mp hw
  rw [h.s _ a ha, h.s _ b hb]

theorem LaneAgrees.ternary {f : Word → Word → Word → Word} (h : LaneAgrees r t) :
    LaneAgrees (r.wrS i.dst (f (r.s i.src1) (r.s i.src2) (r.s i.dst)))
      (t.set i.dst (Option.map₂ (fun g x => g x) (Option.map₂ f (t.s i.src1) (t.s i.src2))
        (t.s i.dst))) := by
  refine h.wrS fun w hw => ?_
  obtain ⟨g, x, hg, hx, rfl⟩ := Option.map₂_eq_some_iff.mp hw
  obtain ⟨a, b, ha, hb, rfl⟩ := Option.map₂_eq_some_iff.mp hg
  rw [h.s _ a ha, h.s _ b hb, h.s _ x hx]

theorem LaneAgrees.addr {a : BitVec 64} (h : LaneAgrees r t) (ha : t.addr i = some a) :
    r.memAddr i = a := by
  obtain ⟨w, hw, rfl⟩ := Option.map_eq_some_iff.mp ha
  rw [Lane.memAddr, h.s _ w hw]

theorem not_outOfBounds {m : DevMem} {a : BitVec 64} (h : a.toNat + 4 ≤ m.size) :
    ¬ m.outOfBounds a 4 = true := by
  have hsize : m.size ≤ 2 ^ 26 := m.size_le
  unfold DevMem.outOfBounds
  rw [decide_eq_true_iff, BitVec.toNat_add, BitVec.toNat_ofNat]
  omega

theorem load_sat {m : DevMem} {n : Nat} {a : BitVec 64} (h : LaneAgrees r t)
    (ha : t.addr i = some a) (hm : m = t.mem) :
    (load i ⟨r, m, n⟩).Sat
      (fun c => LaneAgrees c.lane (t.set i.dst ((t.addr i).map fun a =>
        wordAt t.mem.bytes a.toNat)) ∧
        c.mem = t.mem ∧ a.toNat + 4 ≤ t.mem.size)
      (fun _ => ¬ a.toNat + 4 ≤ t.mem.size) fun _ => ¬ a.toNat + 4 ≤ t.mem.size := by
  subst hm
  unfold load
  simp only [h.addr ha]
  by_cases hin : a.toNat + 4 ≤ t.mem.size
  · rw [if_neg (not_outOfBounds hin), read32_of_le hin]
    refine ⟨?_, rfl, hin⟩
    refine h.wrS fun w hw => ?_
    rw [ha] at hw
    exact Option.some.inj hw
  · split
    · exact hin
    · rw [DevMem.read32, if_neg hin]
      exact hin

/-- Storing a word where it already stands changes nothing. -/
theorem poke32_poke32 (m : DevMem) (off : Nat) (w : Word) :
    (m.poke32 off w).poke32 off w = m.poke32 off w := by
  unfold DevMem.poke32
  congr 1
  exact writeBytes_writeBytes _ _ _

theorem store_sat {m : DevMem} {n : Nat} {a : BitVec 64} {v : Word} (h : LaneAgrees r t)
    (ha : t.addr i = some a) (hv : t.s i.dst = some v)
    (hm : m = t.mem ∨ m = t.mem.poke32 a.toNat v) :
    (store i ⟨r, m, n⟩).Sat
      (fun c => LaneAgrees c.lane t ∧ c.mem = t.mem.poke32 a.toNat v ∧ a.toNat + 4 ≤ t.mem.size)
      (fun _ => ¬ a.toNat + 4 ≤ t.mem.size) fun _ => ¬ a.toNat + 4 ≤ t.mem.size := by
  have hsize : m.size = t.mem.size := by
    rcases hm with rfl | rfl <;> rfl
  have hpoke : m.poke32 a.toNat v = t.mem.poke32 a.toNat v := by
    rcases hm with rfl | rfl
    · rfl
    · exact poke32_poke32 _ _ _
  unfold store
  simp only [h.addr ha, h.s _ v hv]
  rw [← hsize, ← hpoke]
  by_cases hin : a.toNat + 4 ≤ m.size
  · rw [if_neg (not_outOfBounds hin), write32_of_le hin]
    exact ⟨h, rfl, hin⟩
  · split
    · exact hin
    · rw [DevMem.write32, if_neg hin]
      exact hin

theorem LaneAgrees.setP0 {x : Word} {v : Option Word} (h : LaneAgrees r t)
    (hv : ∀ w, v = some w → x = w) :
    LaneAgrees { r with p := Function.update r.p ⟨0, by decide⟩ x } { t with p0 := v } := by
  refine ⟨h.s, fun w hw => ?_⟩
  have hx : Function.update r.p ⟨0, by decide⟩ x ⟨0, by decide⟩ = x := Function.update_self ..
  exact hx.trans (hv w hw)

end Lane

/-! ### One instruction -/

section Exec

variable {F : HostMath} {d : Device} {img : BvbcImage} {pc : Nat} {t : Thread} {i : BvInsn}

theorem Device.At.scalar_sat {f : (BitVec 8 → Word) → Word} {v : Option Word} (h : d.At img pc t)
    (hpred : i.pred = 0) (hfits : t.Fits i) (hexec : t.exec F i = t.set i.dst v)
    (heff : ∀ cycles, effect F (BitVec.ofNat 32 pc) cycles i = .lanes fun _ => scalar i f)
    (hlane : ∀ r, LaneAgrees r t → LaneAgrees (r.wrS i.dst (f r.s)) (t.set i.dst v)) :
    (executeInsn F d.counted i).Sat (fun e => e.At img (pc + 1) (t.exec F i) ∧ ¬ ¬ t.Fits i)
      (fun _ => ¬ t.Fits i) fun _ => ¬ t.Fits i := by
  rw [hexec]
  refine h.data_sat hpred heff fun r m n hr hm => ?_
  rw [Thread.set_mem, or_self] at hm
  exact ⟨hlane r hr, by rw [Thread.set_mem, hm], not_not_intro hfits⟩

theorem Device.At.unary_sat {f : Word → Word} (h : d.At img pc t) (hpred : i.pred = 0)
    (hfits : t.Fits i) (hexec : t.exec F i = t.set i.dst ((t.s i.src1).map f))
    (heff : ∀ cycles, effect F (BitVec.ofNat 32 pc) cycles i = .lanes fun _ => scalar1 i f) :
    (executeInsn F d.counted i).Sat (fun e => e.At img (pc + 1) (t.exec F i) ∧ ¬ ¬ t.Fits i)
      (fun _ => ¬ t.Fits i) fun _ => ¬ t.Fits i :=
  h.scalar_sat hpred hfits hexec heff fun _ hr => hr.unary

theorem Device.At.binary_sat {f : Word → Word → Word} (h : d.At img pc t) (hpred : i.pred = 0)
    (hfits : t.Fits i) (hexec : t.exec F i = t.set i.dst (Option.map₂ f (t.s i.src1) (t.s i.src2)))
    (heff : ∀ cycles, effect F (BitVec.ofNat 32 pc) cycles i = .lanes fun _ => scalar2 i f) :
    (executeInsn F d.counted i).Sat (fun e => e.At img (pc + 1) (t.exec F i) ∧ ¬ ¬ t.Fits i)
      (fun _ => ¬ t.Fits i) fun _ => ¬ t.Fits i :=
  h.scalar_sat hpred hfits hexec heff fun _ hr => hr.binary

/-- **The instruction rule.** The warp executes one of the instructions of the kernels as the thread
does, unless its access is outside the memory. -/
theorem Device.At.exec_sat (h : d.At img pc t) (hk : t.Knows i) :
    (executeInsn F d.counted i).Sat (fun e => e.At img (pc + 1) (t.exec F i) ∧ ¬ ¬ t.Fits i)
      (fun _ => ¬ t.Fits i) fun _ => ¬ t.Fits i := by
  obtain ⟨hpred, hk⟩ := hk
  have hexec : t.exec F i = t.exec F i := rfl
  have hfits : t.Fits i ↔ t.Fits i := Iff.rfl
  conv_rhs at hexec => unfold Thread.exec
  conv_rhs at hfits => unfold Thread.Fits
  split at hk
  case h_14 => exact hk.elim
  all_goals
    rename_i hop
    simp only [hop] at hexec hfits
  case h_11 =>
    obtain ⟨w, hw⟩ := Option.isSome_iff_exists.mp hk
    have ha : t.addr i = some (w.signExtend 64 + i.imm.signExtend 64) := by
      rw [Thread.addr, hw, Option.map_some]
    simp only [ha, Option.some.injEq, forall_eq'] at hfits
    have heff (cycles : Word) : effect F (BitVec.ofNat 32 pc) cycles i = .lanes fun _ =>
        load i := by
      simp only [effect, hop]
    refine h.data_sat hpred heff fun r m n hr hm => ?_
    rw [hexec, Thread.set_mem, or_self] at hm
    rw [hexec, Thread.set_mem, not_not, hfits]
    exact load_sat hr ha hm
  case h_12 =>
    obtain ⟨w, hw⟩ := Option.isSome_iff_exists.mp hk.1
    obtain ⟨v, hv⟩ := Option.isSome_iff_exists.mp hk.2
    have ha : t.addr i = some (w.signExtend 64 + i.imm.signExtend 64) := by
      rw [Thread.addr, hw, Option.map_some]
    simp only [ha, Option.some.injEq, forall_eq'] at hfits
    simp only [ha, hv] at hexec
    have heff (cycles : Word) : effect F (BitVec.ofNat 32 pc) cycles i = .lanes fun _ =>
        store i := by
      simp only [effect, hop]
    refine h.data_sat hpred heff fun r m n hr hm => ?_
    rw [hexec] at hm
    rw [hexec, not_not, hfits]
    refine (store_sat hr ha hv hm).mono (fun c hc => ?_) (fun _ => id) fun _ => id
    exact ⟨⟨hc.1.s, hc.1.p0⟩, hc.2⟩
  case h_13 =>
    have heff (cycles : Word) : effect F (BitVec.ofNat 32 pc) cycles i = .lanes fun _ => cmp i := by
      simp only [effect, hop]
    refine h.data_sat hpred heff fun r m n hr hm => ?_
    rw [hexec] at hm
    rw [hexec]
    have hdst : i.dst.toNat = 0 := by rw [hk]; rfl
    unfold cmp Lane.writeP
    simp only [hdst]
    refine ⟨hr.setP0 fun w hw => ?_, or_self_iff.mp hm, not_not_intro (hfits.mpr trivial)⟩
    obtain ⟨a, b, ha, hb, rfl⟩ := Option.map₂_eq_some_iff.mp hw
    rw [hr.s _ a ha, hr.s _ b hb]
  case h_10 =>
    exact h.scalar_sat hpred (hfits.mpr trivial) hexec (fun _ => by simp only [effect, hop]; rfl)
      fun r hr => hr.ternary
  case h_1 | h_2 | h_3 =>
    exact h.unary_sat hpred (hfits.mpr trivial) hexec fun _ => by simp only [effect, hop]
  all_goals
    exact h.binary_sat hpred (hfits.mpr trivial) hexec fun _ => by simp only [effect, hop]

theorem Device.At.next_of_ok {e : Device} (h : d.At img pc t) (hf : img.Fetches pc i)
    (hok : executeInsn F d.counted i = .ok e) : d.next F = .ok e := by
  obtain ⟨hex, hfetch⟩ := h.executing hf
  exact next_of_executing hex (by rw [hfetch]; exact hok)

theorem Device.At.exec_next (h : d.At img pc t) (hf : img.Fetches pc i) (hk : t.Knows i)
    (hfits : t.Fits i) : ∃ e, d.next F = .ok e ∧ e.At img (pc + 1) (t.exec F i) := by
  obtain ⟨e, hok, he⟩ := ((h.exec_sat (F := F) hk).mono (fun _ => And.left)
    (fun _ hE => hE hfits) fun _ hE => hE hfits).exists_ok
  exact ⟨e, h.next_of_ok hf hok, he⟩

theorem Device.At.fits_of_next {e : Device} (h : d.At img pc t) (hf : img.Fetches pc i)
    (hk : t.Knows i) (hnext : d.next F = .ok e) : t.Fits i := by
  have hok := (executing_of_next hnext).2
  rw [(h.executing hf).2] at hok
  exact not_not.mp ((h.exec_sat hk).of_eq_ok hok).2

/-! ### Branches and EXIT -/

theorem anyEnabled_of_all {pred : BitVec 8} {b : Bool} {ls : List (Fin warpSize)} (hne : ls ≠ [])
    (h : ∀ l, d.enabled pred l = .ok b) : anyEnabled d pred ls = .ok b := by
  induction ls with
  | nil => exact absurd rfl hne
  | cons l ls ih =>
      unfold anyEnabled
      rw [h l]
      cases b with
      | true => rfl
      | false =>
          by_cases hls : ls = []
          · rw [hls]
            rfl
          · exact ih hls

theorem Device.At.enabled_eq (h : d.At img pc t) {pred : BitVec 8} {b : Bool}
    (hb : pred = 0 ∧ b = true ∨ pred = 1 ∧ ∃ w, t.p0 = some w ∧ b = decide (w ≠ 0))
    (l : Fin warpSize) : d.counted.enabled pred l = .ok b := by
  unfold Device.enabled
  rw [if_pos (show d.counted.laneActive l = true from (h.enabledLane l).1)]
  rcases hb with ⟨rfl, rfl⟩ | ⟨rfl, w, hw, rfl⟩
  · rfl
  · rw [← h.p0 l w hw]
    rfl

theorem Device.At.setPc {target : Nat} {p : Word} (h : d.At img pc t)
    (hp : p = BitVec.ofNat 32 target) :
    (d.counted.setPc p).At img target t :=
  ⟨h.img, hp, h.active, h.s, h.p0, h.mem⟩

/-- A branch, taken or not. Its target is given as an index into the code. -/
theorem Device.At.branch_next {target : Nat} {b : Bool} (h : d.At img pc t) (hf : img.Fetches pc i)
    (hop : Opcode.ofByte i.op = some .br ∨ Opcode.ofByte i.op = some .brCond)
    (htarget : BitVec.ofNat 32 pc + 1 + i.imm.signExtend 32 = BitVec.ofNat 32 target)
    (hb : i.pred = 0 ∧ b = true ∨ i.pred = 1 ∧ ∃ w, t.p0 = some w ∧ b = decide (w ≠ 0)) :
    ∃ e, d.next F = .ok e ∧ e.At img (if b then target else pc + 1) t := by
  have heff : effect F d.counted.warp.pc d.counted.warp.cycles i = .branch := by
    unfold effect
    rcases hop with hop | hop <;> rw [hop]
  have hany : anyEnabled d.counted i.pred (List.finRange warpSize) = .ok b :=
    anyEnabled_of_all (by decide) (h.enabled_eq hb)
  have hexec : executeInsn F d.counted i =
      if b then .ok (d.counted.setPc (d.counted.branchTarget i)) else .ok d.counted.advance := by
    unfold executeInsn
    simp only [heff, hany, Outcome.bind_eq_bind, Outcome.ok_bind]
  cases b with
  | true =>
      refine ⟨_, h.next_of_ok hf hexec, h.setPc ?_⟩
      rw [if_pos rfl, ← htarget, ← h.pc]
      rfl
  | false =>
      refine ⟨_, h.next_of_ok hf hexec, h.img, ?_, h.active, h.s, h.p0, h.mem⟩
      rw [if_neg Bool.false_ne_true, BitVec.ofNat_add, ← h.pc]
      rfl

theorem Device.At.exit_next (h : d.At img pc t) (hf : img.Fetches pc i)
    (hop : Opcode.ofByte i.op = some .exit) :
    ∃ e, d.next F = .ok e ∧ e.warp.active = 0 ∧ e.mem = t.mem ∧ e.img = img := by
  have heff : effect F d.counted.warp.pc d.counted.warp.cycles i = .exit := by
    unfold effect
    rw [hop]
  have hexec : executeInsn F d.counted i = .ok (d.counted.setActive 0).advance := by
    unfold executeInsn
    rw [heff]
  exact ⟨_, h.next_of_ok hf hexec, rfl, h.mem, h.img⟩

end Exec

/-! ### Straight-line code -/

/-- `block` stands at `pc`. -/
def BvbcImage.Holds (img : BvbcImage) (pc : Nat) (block : List BvInsn) : Prop :=
  ∀ k (h : k < block.length), img.Fetches (pc + k) block[k]

def Thread.run (F : HostMath) (t : Thread) (block : List BvInsn) : Thread :=
  block.foldl (Thread.exec F) t

/-- Enough is known to run all of the block. -/
def Thread.KnowsAll (F : HostMath) : Thread → List BvInsn → Prop
  | _, [] => True
  | t, i :: is => t.Knows i ∧ (t.exec F i).KnowsAll F is

/-- All accesses of the block are inside the memory. -/
def Thread.FitsAll (F : HostMath) : Thread → List BvInsn → Prop
  | _, [] => True
  | t, i :: is => t.Fits i ∧ (t.exec F i).FitsAll F is

section Block

variable {F : HostMath} {d e : Device} {img : BvbcImage} {pc : Nat} {t : Thread}
  {block : List BvInsn} {i : BvInsn}

theorem BvbcImage.Holds.head (h : img.Holds pc (i :: block)) : img.Fetches pc i :=
  h 0 (Nat.zero_lt_succ _)

theorem BvbcImage.Holds.tail (h : img.Holds pc (i :: block)) : img.Holds (pc + 1) block := by
  intro k hk
  have hf := h (k + 1) (Nat.succ_lt_succ hk)
  rwa [← Nat.add_assoc, Nat.add_right_comm] at hf

/-- **Straight-line code.** A block whose accesses are inside the memory is run to its end as the
thread runs it. -/
theorem Device.At.run_steps (h : d.At img pc t) (hc : img.Holds pc block) (hk : t.KnowsAll F block)
    (hfits : t.FitsAll F block) :
    ∃ e, d.Steps F block.length e ∧ e.At img (pc + block.length) (t.run F block) := by
  induction block generalizing d pc t with
  | nil => exact ⟨d, rfl, h⟩
  | cons i is ih =>
      obtain ⟨e, hnext, he⟩ := h.exec_next hc.head hk.1 hfits.1
      obtain ⟨e', hsteps, he'⟩ := ih he hc.tail hk.2 hfits.2
      refine ⟨e', (after_succ_of_ok hnext).trans hsteps, ?_⟩
      rwa [List.length_cons, Nat.add_comm is.length, ← Nat.add_assoc]

/-- In a run that comes to a halt all accesses are inside the memory. -/
theorem Device.At.fitsAll_of_halts (h : d.At img pc t) (hd : d.Halts F) (hc : img.Holds pc block)
    (hk : t.KnowsAll F block) : t.FitsAll F block := by
  induction block generalizing d pc t with
  | nil => trivial
  | cons i is ih =>
      obtain ⟨e, hnext, he⟩ := hd.next h.active_ne
      have hfits := h.fits_of_next hc.head hk.1 hnext
      obtain ⟨e', hnext', hat⟩ := h.exec_next hc.head hk.1 hfits
      rw [hnext] at hnext'
      cases hnext'
      exact ⟨hfits, ih hat he hc.tail hk.2⟩

theorem Device.At.run_halts (h : d.At img pc t) (hd : d.Halts F) (hc : img.Holds pc block)
    (hk : t.KnowsAll F block) :
    t.FitsAll F block ∧ ∃ e : Device, e.Halts F ∧ e.At img (pc + block.length) (t.run F block) := by
  have hfits := h.fitsAll_of_halts hd hc hk
  obtain ⟨e, hsteps, he⟩ := h.run_steps hc hk hfits
  exact ⟨hfits, e, hd.of_steps hsteps, he⟩

/-! What the thread's memory and its constants go through. -/

@[simp]
theorem Thread.exec_memSize (i : BvInsn) : (t.exec F i).mem.size = t.mem.size := by
  unfold Thread.exec
  dsimp only
  split
  case h_12 => split <;> rfl
  case h_13 => rfl
  case h_14 => rfl
  all_goals rw [Thread.set_mem]

@[simp]
theorem Thread.run_memSize (t : Thread) (block : List BvInsn) :
    (t.run F block).mem.size = t.mem.size := by
  induction block generalizing t with
  | nil => rfl
  | cons i is ih => exact (ih (t.exec F i)).trans (t.exec_memSize i)

end Block

/-! ### Launches -/

/-- The kernel called `kernel` starts at `pc`. -/
def BvbcImage.Entry (img : BvbcImage) (kernel : List Byte) (pc : Nat) : Prop :=
  (bvbcFindKernel img kernel).map (fun ki => (img.kernels.getD ki ⟨[], 0, 0⟩).entry) =
    some (BitVec.ofNat 32 pc)

/-- The thread of a launch. The lanes differ in `S1`. -/
def Thread.launch (args : List Word) (mem : DevMem) : Thread where
  s r := if r = sThreadId then none else some (launchRegs args ⟨0, by decide⟩ r)
  p0 := some 0
  mem := mem

theorem launch_at {d : Device} {img : BvbcImage} {kernel : List Byte} {pc : Nat}
    (hentry : img.Entry kernel pc) (args : List Word) (himg : d.img = img) :
    ∃ e, bvrtLaunch d kernel args = some e ∧ e.At img pc (Thread.launch args d.mem) ∧
      e.insns = 0 := by
  subst himg
  unfold BvbcImage.Entry at hentry
  unfold bvrtLaunch
  cases hk : bvbcFindKernel d.img kernel with
  | none => simp [hk] at hentry
  | some ki =>
      rw [hk, Option.map_some, Option.some.injEq] at hentry
      refine ⟨_, rfl, ⟨rfl, hentry, rfl, fun l r w hw => ?_, fun l w hw => ?_, rfl⟩, rfl⟩
      · unfold Thread.launch at hw
        dsimp only at hw
        split_ifs at hw with hr
        rw [← Option.some.inj hw]
        show launchRegs args l r = _
        unfold launchRegs
        rw [if_neg hr, if_neg hr]
      · exact Option.some.inj hw

end BradVector
