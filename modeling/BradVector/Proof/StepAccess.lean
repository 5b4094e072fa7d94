import BradVector.Proof.LaneLoop

/-!
# What a step accesses

Which registers and which bytes of device memory an instruction touches, opcode by opcode. The
memory instructions test `addr + len > mem_size` in `size_t`; as true integers that test lets an
effective address between `-len` and `-1` through, because the sum wraps. Register fields are not
tested at all.
-/

namespace BradVector

open CSem

/-! ### Steps that execute an instruction -/

/-- The step gets past the tests at the head of `bvrt_step` and executes `d.fetch`. -/
def Device.Executing (d : Device) : Prop :=
  d.warp.active ≠ 0 ∧ 0 ≤ d.warp.pc.toInt ∧ d.warp.pc.toNat < d.img.ninsn

/-- The device `execute_insn` is called with. -/
def Device.counted (d : Device) : Device := { d with insns := d.insns + 1 }

theorem bvrtStep_of_executing {F : HostMath} {d : Device} (h : d.Executing) :
    bvrtStep F d = Exec.result (executeInsn F d.counted d.fetch) := by
  obtain ⟨hactive, hpos, hlt⟩ := h
  unfold bvrtStep
  rw [if_neg hactive, if_neg (by omega), if_neg (by omega)]
  rfl

theorem bvrtStep_of_not_executing {F : HostMath} {d : Device} (h : ¬ d.Executing) :
    bvrtStep F d = .ok (.halt, d) ∨ bvrtStep F d = .ok (.trap, { d with status := .trap }) := by
  unfold bvrtStep
  by_cases hactive : d.warp.active = 0
  · rw [if_pos hactive]
    exact Or.inl rfl
  rw [if_neg hactive]
  by_cases hneg : d.warp.pc.toInt < 0
  · rw [if_pos hneg]
    exact Or.inr rfl
  rw [if_neg hneg, if_pos (by_contra fun hlt => h ⟨hactive, by omega, by omega⟩)]
  exact Or.inr rfl

theorem bvrtStep_eq_error_iff {F : HostMath} {d : Device} {a : Access} :
    bvrtStep F d = .error a ↔ d.Executing ∧ executeInsn F d.counted d.fetch = .undefined a := by
  by_cases h : d.Executing
  · rw [bvrtStep_of_executing h]
    cases executeInsn F d.counted d.fetch <;> simp [Exec.result, h]
  · rcases bvrtStep_of_not_executing (F := F) h with hs | hs <;> simp [hs, h]

/-! ### Effective addresses -/

/-- Base register plus immediate, as a true integer. -/
def Lane.effAddr (r : Lane) (i : BvInsn) : Int := (r.s i.src1).toInt + i.imm.toInt

/-- The bounds test of a memory instruction over `len` bytes lets this lane through. -/
def Lane.Passes (r : Lane) (i : BvInsn) (len size : Nat) : Prop :=
  -len ≤ r.effAddr i ∧ r.effAddr i + len ≤ size

instance (r : Lane) (i : BvInsn) (len size : Nat) : Decidable (r.Passes i len size) := by
  unfold Lane.Passes
  infer_instance

theorem effAddr_bounds (r : Lane) (i : BvInsn) :
    -(2 ^ 31 + 2 ^ 7) ≤ r.effAddr i ∧ r.effAddr i < 2 ^ 31 + 2 ^ 7 := by
  have h₁ := BitVec.le_toInt (r.s i.src1)
  have h₂ := BitVec.toInt_lt (x := r.s i.src1)
  have h₃ := BitVec.le_toInt i.imm
  have h₄ := BitVec.toInt_lt (x := i.imm)
  unfold Lane.effAddr
  constructor <;> omega

theorem memAddr_toInt (r : Lane) (i : BvInsn) : (r.memAddr i).toInt = r.effAddr i := by
  have hb := effAddr_bounds r i
  unfold Lane.effAddr at hb
  unfold Lane.memAddr Lane.effAddr
  rw [BitVec.toInt_add, BitVec.toInt_signExtend_of_le (by omega),
    BitVec.toInt_signExtend_of_le (by omega)]
  exact Int.bmod_eq_of_le (by omega) (by omega)

theorem memAddr_toNat (r : Lane) (i : BvInsn) :
    ((r.memAddr i).toNat : Int) =
      if 0 ≤ r.effAddr i then r.effAddr i else r.effAddr i + 2 ^ 64 := by
  have hint := memAddr_toInt r i
  have hb := effAddr_bounds r i
  have hlt := (r.memAddr i).isLt
  rw [BitVec.toInt_eq_toNat_cond] at hint
  split at hint <;> split <;> omega

theorem outOfBounds_iff (m : DevMem) (r : Lane) (i : BvInsn) {len : Nat} (hlen : len ≤ 64) :
    m.outOfBounds (r.memAddr i) len = true ↔ ¬ r.Passes i len m.size := by
  have haddr := memAddr_toNat r i
  have hb := effAddr_bounds r i
  have hsize : m.size ≤ 2 ^ 26 := m.size_le
  unfold DevMem.outOfBounds Lane.Passes
  rw [decide_eq_true_iff, BitVec.toNat_add, BitVec.toNat_ofNat,
    Nat.mod_eq_of_lt (show len < 2 ^ 64 by omega)]
  split at haddr <;> omega

theorem memAddr_add_toNat {r : Lane} {i : BvInsn} (hpos : 0 ≤ r.effAddr i) {k : Nat}
    (hk : k < 64) : (r.memAddr i + BitVec.ofNat 64 k).toNat = (r.effAddr i).toNat + k := by
  have haddr := memAddr_toNat r i
  have hb := effAddr_bounds r i
  rw [if_pos hpos] at haddr
  rw [BitVec.toNat_add, BitVec.toNat_ofNat, Nat.mod_eq_of_lt (show k < 2 ^ 64 by omega)]
  omega

/-! ### Reading and writing device memory -/

theorem read32_of_le {m : DevMem} {off : Nat} (h : off + 4 ≤ m.size) :
    m.read32 off = .ok (BitVec.ofNat 32 (ofLE (readBytes m.bytes off 4))) := if_pos h

theorem write32_of_le {m : DevMem} {off : Nat} {w : Word} (h : off + 4 ≤ m.size) :
    m.write32 off w = .ok { m with bytes := writeBytes m.bytes off (toLE 4 w.toNat) } := if_pos h

theorem not_in_memory_of_neg {m : DevMem} {r : Lane} {i : BvInsn} (hneg : r.effAddr i < 0) :
    ¬ (r.memAddr i).toNat + 4 ≤ m.size := by
  have haddr := memAddr_toNat r i
  have hb := effAddr_bounds r i
  have hsize : m.size ≤ 2 ^ 26 := m.size_le
  rw [if_neg (by omega)] at haddr
  omega

theorem read32_of_neg {m : DevMem} {r : Lane} {i : BvInsn} (hneg : r.effAddr i < 0) :
    m.read32 (r.memAddr i).toNat = .undefined (.mem (r.memAddr i).toNat 4) :=
  if_neg (not_in_memory_of_neg hneg)

theorem write32_of_neg {m : DevMem} {r : Lane} {i : BvInsn} {w : Word} (hneg : r.effAddr i < 0) :
    m.write32 (r.memAddr i).toNat w = .undefined (.mem (r.memAddr i).toNat 4) :=
  if_neg (not_in_memory_of_neg hneg)

/-! ### The fields an opcode uses -/

/-- Bytes a memory instruction accesses per lane. -/
def Opcode.memLen : Opcode → Option Nat
  | load | store | atomicAdd => some 4
  | loadv | storev => some (vecLanes * 4)
  | _ => none

/-- The fields that index the vector register file. -/
def Opcode.vecFields (i : BvInsn) : Opcode → List (BitVec 8)
  | vadd | vmul | vmad | vdot => [i.src1, i.src2, i.dst]
  | vbroadcast | vreduce | storev => [i.dst]
  | _ => []

/-- The fields that index the predicate register file, PRED aside. -/
def Opcode.predFields (i : BvInsn) : Opcode → List (BitVec 8)
  | cmp => [i.dst]
  | _ => []

/-- Register fields other than PRED are in range for the files the opcode uses. -/
def Opcode.FieldsInRange (op : Opcode) (i : BvInsn) : Prop :=
  (∀ f ∈ op.vecFields i, f.toNat < vecRegs) ∧ ∀ f ∈ op.predFields i, f.toNat < predRegs

instance (op : Opcode) (i : BvInsn) : Decidable (op.FieldsInRange i) := by
  unfold Opcode.FieldsInRange
  infer_instance

def Access.IsRegister : Access → Prop
  | .vreg _ | .preg _ => True
  | .mem _ _ => False

/-! ### One lane's work -/

/-- The work of an instruction on registers alone: it cannot trap, it leaves memory and the return
stack alone, and it goes wrong exactly at a field that is out of range. -/
def RegisterBody (i : BvInsn) (fields : Prop) (body : Local → LaneOutcome Local) : Prop :=
  ∀ c : Local, c.lane.PredHolds i.pred → (body c).Sat
    (fun c' => fields ∧ c'.mem = c.mem ∧ c'.lane.ret = c.lane.ret ∧ c'.lane.retsp = c.lane.retsp)
    (fun _ => False) (fun a => ¬ fields ∧ a.IsRegister)

/-- The work of a memory instruction over `len` bytes: it traps on an address its test refuses, and
otherwise accesses device memory, inside it for a nonnegative address and outside it for a negative
one. -/
def MemoryBody (i : BvInsn) (fields : Prop) (len : Nat) (body : Local → LaneOutcome Local) : Prop :=
  ∀ c : Local, (body c).Sat
    (fun c' => fields ∧ c.lane.Passes i len c.mem.size ∧ 0 ≤ c.lane.effAddr i ∧
      c'.mem.size = c.mem.size ∧ c'.lane.ret = c.lane.ret ∧ c'.lane.retsp = c.lane.retsp)
    (fun _ => ¬ c.lane.Passes i len c.mem.size)
    (fun a => c.lane.Passes i len c.mem.size ∧
      (¬ fields ∧ a.IsRegister ∨ fields ∧ c.lane.effAddr i < 0 ∧ ∃ off n, a = .mem off n))

@[simp]
theorem wrS_ret (r : Lane) (reg : BitVec 8) (v : Word) : (r.wrS reg v).ret = r.ret := by
  unfold Lane.wrS
  split <;> rfl

@[simp]
theorem wrS_retsp (r : Lane) (reg : BitVec 8) (v : Word) : (r.wrS reg v).retsp = r.retsp := by
  unfold Lane.wrS
  split <;> rfl

@[simp]
theorem wrS_v (r : Lane) (reg : BitVec 8) (v : Word) : (r.wrS reg v).v = r.v := by
  unfold Lane.wrS
  split <;> rfl

@[simp]
theorem wrS_p (r : Lane) (reg : BitVec 8) (v : Word) : (r.wrS reg v).p = r.p := by
  unfold Lane.wrS
  split <;> rfl

section Bodies

variable (F : HostMath) (i : BvInsn)

theorem scalar_registerBody (f : (BitVec 8 → Word) → Word) : RegisterBody i True (scalar i f) := by
  intro c _
  simp [scalar]

theorem rand_registerBody (pc : Word) : RegisterBody i True (rand F i pc) := by
  intro c _
  simp [rand]

theorem sel_registerBody : RegisterBody i True (sel i) := by
  intro c hpred
  unfold sel
  by_cases hzero : i.pred = 0
  · simp [hzero]
  · rw [if_neg hzero, predOk_eq, if_neg fun hout => not_predHolds_of_outOfRange hout hpred]
    simp

theorem cmp_registerBody : RegisterBody i (i.dst.toNat < predRegs) (cmp i) := by
  intro c _
  unfold cmp Lane.writeP
  by_cases h : i.dst.toNat < predRegs <;> simp [h, Access.IsRegister]

theorem vbroadcast_registerBody :
    RegisterBody i (i.dst.toNat < vecRegs) (vbroadcast i) := by
  intro c _
  unfold vbroadcast Lane.writeV
  by_cases h : i.dst.toNat < vecRegs <;> simp [h, Access.IsRegister]

theorem vreduce_registerBody : RegisterBody i (i.dst.toNat < vecRegs) (vreduce F i) := by
  intro c _
  unfold vreduce Lane.writeV Lane.readV
  by_cases h : i.dst.toNat < vecRegs <;> simp [h, Access.IsRegister]

/-- The three vector fields of the elementwise instructions. -/
def VecFields3 : Prop :=
  i.src1.toNat < vecRegs ∧ i.src2.toNat < vecRegs ∧ i.dst.toNat < vecRegs

theorem vector2_registerBody (f : Word → Word → Word) :
    RegisterBody i (VecFields3 i) (vector2 i f) := by
  intro c _
  unfold vector2 Lane.writeV Lane.readV
  by_cases h₁ : i.src1.toNat < vecRegs <;> by_cases h₂ : i.src2.toNat < vecRegs <;>
    by_cases h₃ : i.dst.toNat < vecRegs <;> simp [VecFields3, h₁, h₂, h₃, Access.IsRegister]

theorem vmad_registerBody : RegisterBody i (VecFields3 i) (vmad F i) := by
  intro c _
  unfold vmad Lane.writeV Lane.readV
  by_cases h₁ : i.src1.toNat < vecRegs <;> by_cases h₂ : i.src2.toNat < vecRegs <;>
    by_cases h₃ : i.dst.toNat < vecRegs <;> simp [VecFields3, h₁, h₂, h₃, Access.IsRegister]

theorem vdot_registerBody : RegisterBody i (VecFields3 i) (vdot F i) := by
  intro c _
  unfold vdot Lane.writeV Lane.readV
  by_cases h₁ : i.src1.toNat < vecRegs <;> by_cases h₂ : i.src2.toNat < vecRegs <;>
    by_cases h₃ : i.dst.toNat < vecRegs <;> simp [VecFields3, h₁, h₂, h₃, Access.IsRegister]

/-- A memory instruction is the test and an access behind it, which is inside the tested stretch or
starts below memory. -/
theorem memoryBody_of_access {fields : Prop} {len : Nat} (hlen : len ≤ 64)
    {access : Local → LaneOutcome Local}
    (hinside : ∀ c : Local, 0 ≤ c.lane.effAddr i →
      (∀ k, k + 4 ≤ len →
        (c.lane.memAddr i + BitVec.ofNat 64 k).toNat + 4 ≤ c.mem.size) →
      (access c).Sat
        (fun c' => fields ∧ c'.mem.size = c.mem.size ∧ c'.lane.ret = c.lane.ret ∧
          c'.lane.retsp = c.lane.retsp)
        (fun _ => False) fun a => ¬ fields ∧ a.IsRegister)
    (hbelow : ∀ c : Local, c.lane.effAddr i < 0 →
      (access c).Sat (fun _ => False) (fun _ => False)
        fun a => ¬ fields ∧ a.IsRegister ∨ fields ∧ ∃ off n, a = .mem off n) :
    MemoryBody i fields len fun c =>
      if c.mem.outOfBounds (c.lane.memAddr i) len then .stop () else access c := by
  intro c
  dsimp only
  by_cases hout : c.mem.outOfBounds (c.lane.memAddr i) len = true
  · rw [if_pos hout]
    exact (outOfBounds_iff _ _ _ hlen).mp hout
  rw [if_neg hout]
  rw [outOfBounds_iff _ _ _ hlen, not_not] at hout
  by_cases hpos : 0 ≤ c.lane.effAddr i
  · refine (hinside c hpos fun k hk => ?_).mono
      (fun c' ⟨hf, hsize, hret, hsp⟩ => ⟨hf, hout, hpos, hsize, hret, hsp⟩) (fun _ => False.elim)
      fun a h => ⟨hout, Or.inl h⟩
    have hend := hout.2
    rw [memAddr_add_toNat hpos (by omega)]
    omega
  · have hneg := not_le.mp hpos
    exact (hbelow c hneg).mono (fun _ => False.elim) (fun _ => False.elim)
      fun a h => ⟨hout, h.imp id fun ⟨hf, hmem⟩ => ⟨hf, hneg, hmem⟩⟩

theorem load_memoryBody : MemoryBody i True 4 (load i) :=
  memoryBody_of_access i (by decide)
    (fun c _ hle => by
      have hle : (c.lane.memAddr i).toNat + 4 ≤ c.mem.size := by simpa using hle 0 le_rfl
      simp [read32_of_le hle])
    fun c hneg => by simp [read32_of_neg hneg]

theorem store_memoryBody : MemoryBody i True 4 (store i) :=
  memoryBody_of_access i (by decide)
    (fun c _ hle => by
      have hle : (c.lane.memAddr i).toNat + 4 ≤ c.mem.size := by simpa using hle 0 le_rfl
      simp [write32_of_le hle])
    fun c hneg => by simp [write32_of_neg hneg]

theorem atomicAdd_memoryBody : MemoryBody i True 4 (atomicAdd i) :=
  memoryBody_of_access i (by decide)
    (fun c _ hle => by
      have hle : (c.lane.memAddr i).toNat + 4 ≤ c.mem.size := by simpa using hle 0 le_rfl
      simp [read32_of_le hle, write32_of_le hle])
    fun c hneg => by simp [read32_of_neg hneg]

theorem loadv_memoryBody : MemoryBody i True (vecLanes * 4) (loadv i) := by
  refine memoryBody_of_access i (by decide) (fun c _ hle => ?_) fun c hneg => ?_
  · refine (Outcome.Sat.forRange (E := fun _ => False) (U := fun _ => False)
      (I := fun _ c' => c'.mem = c.mem ∧ c'.lane.ret = c.lane.ret ∧ c'.lane.retsp = c.lane.retsp)
      ⟨rfl, rfl, rfl⟩ ?_).mono ?_ (fun _ => id) (fun _ => False.elim)
    · rintro li c' ⟨hmem, hret, hsp⟩
      have hread := hle (li * 4) (by have := li.isLt; omega)
      rw [← hmem] at hread
      simp only [Outcome.bind_eq_bind, read32_of_le hread, Outcome.ok_bind, Outcome.pure_eq_ok,
        Outcome.sat_ok, wrS_ret, wrS_retsp]
      exact ⟨hmem, hret, hsp⟩
    · rintro c' ⟨hmem, hret, hsp⟩
      exact ⟨trivial, by rw [hmem], hret, hsp⟩
  · rw [Outcome.forRange_of_head_undefined (u := .mem (c.lane.memAddr i).toNat 4) (by decide)
      (by simp [read32_of_neg hneg])]
    exact Or.inr ⟨trivial, _, _, rfl⟩

theorem storev_memoryBody :
    MemoryBody i (i.dst.toNat < vecRegs) (vecLanes * 4) (storev i) := by
  refine memoryBody_of_access i (by decide) (fun c _ hle => ?_) fun c hneg => ?_
  all_goals
    by_cases hreg : i.dst.toNat < vecRegs
    case neg =>
      rw [Outcome.forRange_of_head_undefined (u := .vreg i.dst.toNat) (by decide)
        (by simp [Lane.readV, hreg])]
      simp [hreg, Access.IsRegister]
  · refine (Outcome.Sat.forRange (E := fun _ => False) (U := fun _ => False)
      (I := fun _ c' => c'.mem.size = c.mem.size ∧ c'.lane = c.lane) ⟨rfl, rfl⟩ ?_).mono ?_
      (fun _ => id) (fun _ => False.elim)
    · rintro li c' ⟨hsize, hlane⟩
      have hwrite := hle (li * 4) (by have := li.isLt; omega)
      rw [← hsize] at hwrite
      simp only [Outcome.bind_eq_bind, Lane.readV, dif_pos hreg, Outcome.ok_bind,
        write32_of_le hwrite, Outcome.pure_eq_ok, Outcome.sat_ok]
      exact ⟨hsize, hlane⟩
    · rintro c' ⟨hsize, hlane⟩
      exact ⟨hreg, hsize, by rw [hlane], by rw [hlane]⟩
  · rw [Outcome.forRange_of_head_undefined (u := .mem (c.lane.memAddr i).toNat 4) (by decide)
      (by simp [Lane.readV, hreg, write32_of_neg hneg])]
    exact Or.inr ⟨hreg, _, _, rfl⟩

end Bodies

/-! ### The opcode switch, by the kind of work -/

/-- Whether `execute_insn` looks at the PRED field. -/
def Opcode.usesPred : Opcode → Bool
  | vcross | mmul | mmulB | vshuffle | load2 | loadDs | store2 | prefetch | atomicCas | atomicExch
  | texSample | texSample3d | texGather | ret | bar | barCluster | exit | trap
  | rtTrace | rtIntersect | rtBvhWalk | rtAnyHit | rtClosestHit | rtMiss | rtNearfEval |
    rtNearfTrain
  | nsConv2d | nsConv2d5 | nsRelu | nsGelu | nsSilu | nsMaxpool | nsUpsample | nsAttention
  | nsExpertSelect | nsMoeFuse => false
  | _ => true

/-- All register fields are in range for the files the instruction uses. -/
def BvInsn.FieldsInRange (i : BvInsn) : Prop :=
  ∀ op, Opcode.ofByte i.op = some op →
    op.FieldsInRange i ∧ (op.usesPred = true → ¬ PredOutOfRange i.pred)

theorem fieldsInRange_of_nil {op : Opcode} {i : BvInsn} (hv : op.vecFields i = [])
    (hp : op.predFields i = []) : op.FieldsInRange i := by
  simp [Opcode.FieldsInRange, hv, hp]

theorem RegisterBody.congr {i : BvInsn} {P Q : Prop} {body : Local → LaneOutcome Local}
    (h : RegisterBody i P body) (hPQ : P ↔ Q) : RegisterBody i Q body := by
  rwa [← propext hPQ]

theorem MemoryBody.congr {i : BvInsn} {P Q : Prop} {len : Nat} {body : Local → LaneOutcome Local}
    (h : MemoryBody i P len body) (hPQ : P ↔ Q) : MemoryBody i Q len body := by
  rwa [← propext hPQ]

/-- What the lanes of a data instruction do. -/
inductive DataBody (i : BvInsn) (op : Opcode) (body : Fin warpSize → Local → LaneOutcome Local) :
    Prop where
  | register (hlen : op.memLen = none) (h : ∀ l, RegisterBody i (op.FieldsInRange i) (body l))
  | memory {len : Nat} (hlen : op.memLen = some len)
      (h : ∀ l, MemoryBody i (op.FieldsInRange i) len (body l))

/-- What `execute_insn` makes of an instruction, with the facts about its fields that the effect
determines. -/
theorem effect_cases (F : HostMath) (pc cycles : Word) (i : BvInsn) :
    match effect F pc cycles i with
    | .lanes body => ∃ op, Opcode.ofByte i.op = some op ∧ op.usesPred = true ∧ DataBody i op body
    | .branch => ∃ op, Opcode.ofByte i.op = some op ∧ op.usesPred = true ∧ op.memLen = none ∧
        op.FieldsInRange i
    | .call => Opcode.ofByte i.op = some .call
    | .ret => Opcode.ofByte i.op = some .ret
    | .exit => Opcode.ofByte i.op = some .exit
    | .barrier | .trap => ∀ op, Opcode.ofByte i.op = some op →
        op.usesPred = false ∧ op.memLen = none ∧ op.FieldsInRange i := by
  have vec3 {op : Opcode} (hv : op.vecFields i = [i.src1, i.src2, i.dst])
      (hp : op.predFields i = []) : VecFields3 i ↔ op.FieldsInRange i := by
    simp [Opcode.FieldsInRange, hv, hp, VecFields3]
  have vec1 {op : Opcode} (hv : op.vecFields i = [i.dst]) (hp : op.predFields i = []) :
      i.dst.toNat < vecRegs ↔ op.FieldsInRange i := by
    simp [Opcode.FieldsInRange, hv, hp]
  have nil {op : Opcode} (hv : op.vecFields i = []) (hp : op.predFields i = []) :
      True ↔ op.FieldsInRange i := by
    simp [Opcode.FieldsInRange, hv, hp]
  have hcmp : i.dst.toNat < predRegs ↔ Opcode.cmp.FieldsInRange i := by
    simp [Opcode.FieldsInRange, Opcode.vecFields, Opcode.predFields]
  unfold effect
  cases hop : Opcode.ofByte i.op with
  | none => simp
  | some op =>
      cases op
      case cmp => exact ⟨_, rfl, rfl, .register rfl fun _ => (cmp_registerBody i).congr hcmp⟩
      case sel => exact ⟨_, rfl, rfl, .register rfl fun _ =>
        (sel_registerBody i).congr (nil rfl rfl)⟩
      case rand =>
        exact ⟨_, rfl, rfl, .register rfl fun _ => (rand_registerBody F i pc).congr (nil rfl rfl)⟩
      case vadd | vmul =>
        exact ⟨_, rfl, rfl, .register rfl fun _ => (vector2_registerBody i _).congr (vec3 rfl rfl)⟩
      case vmad =>
        exact ⟨_, rfl, rfl, .register rfl fun _ => (vmad_registerBody F i).congr (vec3 rfl rfl)⟩
      case vdot =>
        exact ⟨_, rfl, rfl, .register rfl fun _ => (vdot_registerBody F i).congr (vec3 rfl rfl)⟩
      case vbroadcast =>
        exact ⟨_, rfl, rfl, .register rfl fun _ => (vbroadcast_registerBody i).congr (vec1 rfl rfl)⟩
      case vreduce =>
        exact ⟨_, rfl, rfl, .register rfl fun _ => (vreduce_registerBody F i).congr (vec1 rfl rfl)⟩
      case load =>
        exact ⟨_, rfl, rfl, .memory rfl fun _ => (load_memoryBody i).congr (nil rfl rfl)⟩
      case store =>
        exact ⟨_, rfl, rfl, .memory rfl fun _ => (store_memoryBody i).congr (nil rfl rfl)⟩
      case atomicAdd =>
        exact ⟨_, rfl, rfl, .memory rfl fun _ => (atomicAdd_memoryBody i).congr (nil rfl rfl)⟩
      case loadv =>
        exact ⟨_, rfl, rfl, .memory rfl fun _ => (loadv_memoryBody i).congr (nil rfl rfl)⟩
      case storev =>
        exact ⟨_, rfl, rfl, .memory rfl fun _ => (storev_memoryBody i).congr (vec1 rfl rfl)⟩
      case br | brCond => exact ⟨_, rfl, rfl, rfl, fieldsInRange_of_nil rfl rfl⟩
      case call | ret | exit => rfl
      all_goals first
        | exact ⟨_, rfl, rfl, .register rfl fun _ =>
            (scalar_registerBody i _).congr (nil rfl rfl)⟩
        | exact fun op h => by
            cases h
            exact ⟨rfl, rfl, fieldsInRange_of_nil rfl rfl⟩

end BradVector
