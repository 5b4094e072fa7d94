import BradVector.Bradc
import BradVector.Proof.StepAccess

/-!
# Memory safety and register safety of a step

Exactly when a step stays inside device memory, and exactly when it stays inside the register files.
Neither holds in general: the bounds test of the memory instructions wraps for small negative
effective addresses, and nothing between the assembler, the container reader and the interpreter
tests a register field.
-/

namespace BradVector

open CSem

/-! ### Loops over the lanes -/

/-- What a memory instruction asks of an enabled lane that does its work inside device memory. -/
def Device.WorksInside (d : Device) (i : BvInsn) (fields : Prop) (len : Nat) (l : Fin warpSize) :
    Prop :=
  fields ∧ (d.lane l).Passes i len d.mem.size ∧ 0 ≤ (d.lane l).effAddr i

section Loops

variable {d : Device} {i : BvInsn} {fields : Prop} {len : Nat}
  {body : Fin warpSize → Local → LaneOutcome Local}

theorem forLanes_memory_sat (hbody : ∀ l, MemoryBody i fields len (body l)) :
    (forLanes i.pred body d).Sat
      (fun _ => (∀ l, d.EnabledLane i.pred l → d.WorksInside i fields len l) ∧
        ∀ l, d.laneActive l = true → ¬ PredOutOfRange i.pred)
      (fun _ => ∃ l, d.EnabledLane i.pred l ∧ ¬ (d.lane l).Passes i len d.mem.size ∧
        ∀ l' < l, d.EnabledLane i.pred l' → d.WorksInside i fields len l')
      (fun a => PredOutOfRange i.pred ∧ a.IsRegister ∨
        ∃ l, d.EnabledLane i.pred l ∧
          (∀ l' < l, d.EnabledLane i.pred l' → d.WorksInside i fields len l') ∧
          (d.lane l).Passes i len d.mem.size ∧
          (¬ fields ∧ a.IsRegister ∨ fields ∧ (d.lane l).effAddr i < 0 ∧ ∃ off n,
            a = .mem off n)) := by
  have hloop : (forLanes i.pred body d).Sat _ _ _ := forLanes_sat
    (J := fun _ m _ => m.size = d.mem.size) (Q := fun l _ => d.WorksInside i fields len l)
    (E := fun l => ¬ (d.lane l).Passes i len d.mem.size)
    (U := fun l a => (d.lane l).Passes i len d.mem.size ∧
      (¬ fields ∧ a.IsRegister ∨ fields ∧ (d.lane l).effAddr i < 0 ∧ ∃ off n, a = .mem off n))
    rfl (fun _ _ _ _ h => h) fun l m r _ hsize => by
      have h := hbody l ⟨d.lane l, m, r⟩
      simp only [hsize] at h
      exact h.mono (fun c ⟨hf, hp, hpos, hs, _⟩ => ⟨⟨hf, hp, hpos⟩, hs⟩) (fun _ h => h)
        (fun _ h => h)
  refine hloop.mono ?_ ?_ ?_
  · rintro d' ⟨hdone, -⟩
    exact ⟨fun l hl => hdone.post_of_enabled hl, fun l => hdone.predInRange l l.isLt⟩
  · rintro d' ⟨l, d₀, hl, hstop, hdone, -⟩
    exact ⟨l, hl, hstop, fun l' hlt hl' => by simpa [hl', Fin.lt_def.mp hlt] using hdone.lanes l'⟩
  · rintro a (⟨hpred, rfl⟩ | ⟨l, d₀, hl, hdone, hund⟩)
    · exact Or.inl ⟨hpred, trivial⟩
    · exact Or.inr ⟨l, hl,
        fun l' hlt hl' => by simpa [hl', Fin.lt_def.mp hlt] using hdone.lanes l', hund⟩

theorem forLanes_register_sat (hbody : ∀ l, RegisterBody i fields (body l)) :
    (forLanes i.pred body d).Sat
      (fun _ => (∀ l, d.EnabledLane i.pred l → fields) ∧
        ∀ l, d.laneActive l = true → ¬ PredOutOfRange i.pred)
      (fun _ => False)
      (fun a => (PredOutOfRange i.pred ∨ (∃ l, d.EnabledLane i.pred l) ∧ ¬ fields) ∧
        a.IsRegister) := by
  have hloop : (forLanes i.pred body d).Sat _ _ _ := forLanes_sat (J := fun _ _ _ => True)
    (Q := fun _ _ => fields) (E := fun _ => False)
    (U := fun _ a => ¬ fields ∧ a.IsRegister) trivial (fun _ _ _ _ h => h)
    fun l m r hl _ => (hbody l ⟨d.lane l, m, r⟩ hl.2).mono (fun c h => ⟨h.1, trivial⟩)
      (fun _ h => h) (fun _ h => h)
  refine hloop.mono ?_ ?_ ?_
  · rintro d' ⟨hdone, -⟩
    exact ⟨fun l hl => hdone.post_of_enabled hl, fun l => hdone.predInRange l l.isLt⟩
  · rintro d' ⟨l, d₀, -, hstop, -⟩
    exact hstop
  · rintro a (⟨hpred, rfl⟩ | ⟨l, d₀, hl, -, hund⟩)
    · exact ⟨Or.inl hpred, trivial⟩
    · exact ⟨Or.inr ⟨⟨l, hl⟩, hund.1⟩, hund.2⟩

theorem pushRet_sat (pc : Word) (c : Local) :
    (pushRet pc c).Sat (fun c' => c'.mem = c.mem) (fun _ => True) (fun _ => False) := by
  unfold pushRet
  split <;> simp

theorem forLanes_pushRet_sat (pc : Word) :
    (forLanes i.pred (fun _ => pushRet pc) d).Sat
      (fun _ => ∀ l, d.laneActive l = true → ¬ PredOutOfRange i.pred)
      (fun _ => ¬ PredOutOfRange i.pred) (fun a => PredOutOfRange i.pred ∧ a.IsRegister) := by
  have hloop : (forLanes i.pred (fun _ => pushRet pc) d).Sat _ _ _ := forLanes_sat
    (J := fun _ _ _ => True) (Q := fun _ _ => True) (E := fun _ => True)
    (U := fun _ _ => False) trivial (fun _ _ _ _ h => h)
    fun l m r _ _ => (pushRet_sat pc ⟨d.lane l, m, r⟩).mono (fun c _ => ⟨trivial, trivial⟩)
      (fun _ h => h) (fun _ h => h)
  refine hloop.mono ?_ ?_ ?_
  · rintro d' ⟨hdone, -⟩ l
    exact hdone.predInRange l l.isLt
  · rintro d' ⟨l, d₀, hl, -⟩ hout
    exact not_predHolds_of_outOfRange hout hl.2
  · rintro a (⟨hpred, rfl⟩ | ⟨l, d₀, -, -, hund⟩)
    · exact ⟨hpred, trivial⟩
    · exact hund.elim

theorem anyEnabled_sat (pred : BitVec 8) (ls : List (Fin warpSize)) :
    (anyEnabled d pred ls).Sat (fun _ => ∀ l ∈ ls, d.laneActive l = true → ¬ PredOutOfRange pred)
      (fun _ => False) (fun a => PredOutOfRange pred ∧ a.IsRegister) := by
  induction ls with
  | nil => simp [anyEnabled]
  | cons l ls ih =>
      unfold anyEnabled
      rw [enabled_eq]
      by_cases hout : d.laneActive l = true ∧ PredOutOfRange pred
      · rw [if_pos hout]
        exact ⟨hout.2, trivial⟩
      rw [if_neg hout]
      have hl : d.laneActive l = true → ¬ PredOutOfRange pred := fun h h' => hout ⟨h, h'⟩
      by_cases hen : d.EnabledLane pred l
      · simp only [Outcome.bind_eq_bind, Outcome.ok_bind, hen, decide_true, if_true, Outcome.sat_ok]
        exact fun _ _ _ h' => not_predHolds_of_outOfRange h' hen.2
      · simp only [Outcome.bind_eq_bind, Outcome.ok_bind, hen, decide_false, Bool.false_eq_true,
          if_false]
        refine ih.mono (fun _ h l' hmem => ?_) (fun _ h => h) (fun _ h => h)
        rcases List.mem_cons.mp hmem with rfl | hmem
        · exact hl
        · exact h l' hmem

/-- A property of both ways a branch can go. -/
theorem branch_sat {P E : Device → Prop} {f : Bool → Exec}
    (hf : ∀ taken, (f taken).Sat P E fun _ => True) (pred : BitVec 8) (ls : List (Fin warpSize)) :
    ((anyEnabled d pred ls).bind f).Sat P E fun _ => True := by
  apply Outcome.Sat.bind (Q := fun _ => True)
  · exact (anyEnabled_sat pred ls).mono (fun _ _ => trivial) (fun _ h => h.elim) fun _ _ => trivial
  · exact fun taken _ => hf taken

theorem retStep_not_undefined (l : Fin warpSize) (d : Device) :
    (retStep l d).Sat (fun _ => True) (fun _ => True) (fun _ => False) := by
  unfold retStep
  by_cases hl : d.laneActive l = true
  · by_cases hsp : (d.lane l).retsp.val = 0 <;> simp [hl, hsp, bvrtTrap]
  · simp [hl]

theorem forRange_retStep_not_undefined (d : Device) :
    (Outcome.forRange warpSize retStep d).Sat (fun _ => True) (fun _ => True) (fun _ => False) :=
  Outcome.Sat.forRange (I := fun _ _ => True) trivial fun l d _ => retStep_not_undefined l d

end Loops

/-! ### Masked lanes -/

/-- The predicate the PRED field selects exists and is false in this lane. -/
def Lane.PredFalse (r : Lane) (pred : BitVec 8) : Prop :=
  pred ≠ 0 ∧ ∃ h : pred.toNat - 1 < predRegs, r.p ⟨pred.toNat - 1, h⟩ = 0

/-- A lane the instruction must not touch. -/
def Device.MaskedLane (d : Device) (i : BvInsn) (l : Fin warpSize) : Prop :=
  d.laneActive l = false ∨ (d.lane l).PredFalse i.pred

theorem Lane.PredFalse.not_holds {r : Lane} {pred : BitVec 8} (h : r.PredFalse pred) :
    ¬ r.PredHolds pred := by
  obtain ⟨hne, hlt, hzero⟩ := h
  rintro (heq | ⟨-, hlt', hnz⟩)
  · exact hne heq
  · exact hnz hzero

theorem Lane.PredFalse.inRange {r : Lane} {pred : BitVec 8} (h : r.PredFalse pred) :
    ¬ PredOutOfRange pred := by
  obtain ⟨-, hlt, -⟩ := h
  unfold PredOutOfRange
  omega

section Masked

variable {d : Device} {i : BvInsn} {l : Fin warpSize}

theorem Device.MaskedLane.not_enabled (h : d.MaskedLane i l) : ¬ d.EnabledLane i.pred l := by
  rintro ⟨hactive, hholds⟩
  rcases h with hinactive | hfalse
  · simp [hinactive] at hactive
  · exact hfalse.not_holds hholds

/-- An active lane is masked by no predicate that does not exist. -/
theorem not_maskedLane_of_outOfRange (hactive : d.laneActive l = true) (h : PredOutOfRange i.pred) :
    ¬ d.MaskedLane i l := by
  rintro (hinactive | hfalse)
  · simp [hinactive] at hactive
  · exact hfalse.inRange h

theorem maskedLane_of_not_enabled (hpred : d.laneActive l = true → ¬ PredOutOfRange i.pred)
    (h : ¬ d.EnabledLane i.pred l) : d.MaskedLane i l := by
  by_cases hactive : d.laneActive l = true
  swap
  · exact Or.inl (by simpa using hactive)
  have hin := hpred hactive
  have hholds : ¬ (d.lane l).PredHolds i.pred := fun hp => h ⟨hactive, hp⟩
  have hne : i.pred ≠ 0 := fun heq => hholds (Or.inl heq)
  have hlt : i.pred.toNat - 1 < predRegs := by
    have hpos : i.pred.toNat ≠ 0 := fun h0 => hne (BitVec.eq_of_toNat_eq h0)
    unfold PredOutOfRange at hin
    omega
  refine Or.inr ⟨hne, hlt, ?_⟩
  by_contra hnz
  exact hholds (Or.inr ⟨hne, hlt, hnz⟩)

theorem Device.Executing.exists_active (h : d.Executing) : ∃ l, d.laneActive l = true := by
  by_contra hnone
  push Not at hnone
  refine h.1 (BitVec.eq_of_getLsbD_eq fun k hk => ?_)
  have hbit := hnone ⟨k, hk⟩
  unfold Device.laneActive at hbit
  simpa using hbit

end Masked

/-! ### One instruction -/

section Instruction

variable (F : HostMath) (d : Device) {i : BvInsn}

theorem executeInsn_memory_sat {op : Opcode} {len : Nat} (hop : Opcode.ofByte i.op = some op)
    (hlen : op.memLen = some len) :
    (executeInsn F d i).Sat
      (fun _ => (∀ l, d.EnabledLane i.pred l → d.WorksInside i (op.FieldsInRange i) len l) ∧
        ∀ l, d.laneActive l = true → ¬ PredOutOfRange i.pred)
      (fun _ => ∃ l, d.EnabledLane i.pred l ∧ ¬ (d.lane l).Passes i len d.mem.size ∧
        ∀ l' < l, d.EnabledLane i.pred l' → d.WorksInside i (op.FieldsInRange i) len l')
      (fun a => PredOutOfRange i.pred ∧ a.IsRegister ∨
        ∃ l, d.EnabledLane i.pred l ∧
          (∀ l' < l, d.EnabledLane i.pred l' → d.WorksInside i (op.FieldsInRange i) len l') ∧
          (d.lane l).Passes i len d.mem.size ∧
          (¬ op.FieldsInRange i ∧ a.IsRegister ∨
            op.FieldsInRange i ∧ (d.lane l).effAddr i < 0 ∧ ∃ off n, a = .mem off n)) := by
  have hcases := effect_cases F d.warp.pc d.warp.cycles i
  unfold executeInsn
  cases heff : effect F d.warp.pc d.warp.cycles i with
  | lanes body =>
      rw [heff] at hcases
      obtain ⟨op', hop', -, hdata⟩ := hcases
      obtain rfl : op = op' := Option.some.inj (hop.symm.trans hop')
      cases hdata with
      | register hnone => simp [hlen] at hnone
      | memory hlen' hbody =>
          obtain rfl := Option.some.inj (hlen.symm.trans hlen')
          exact (forLanes_memory_sat hbody).bind fun _ h => h
  | branch =>
      rw [heff] at hcases
      obtain ⟨op', hop', -, hnone, -⟩ := hcases
      obtain rfl : op = op' := Option.some.inj (hop.symm.trans hop')
      simp [hlen] at hnone
  | call | ret | exit =>
      rw [heff] at hcases
      obtain rfl := Option.some.inj (hop.symm.trans hcases)
      exact absurd hlen (by simp [Opcode.memLen])
  | barrier | trap =>
      rw [heff] at hcases
      have hnone := (hcases op hop).2.1
      simp [hlen] at hnone

/-- Any other instruction: it goes wrong only at a register field that is out of range, for a lane
that is not masked, and it never traps because of one. -/
theorem executeInsn_register_sat (hactive : ∃ l, d.laneActive l = true)
    (hmem : ∀ op, Opcode.ofByte i.op = some op → op.memLen = none) :
    (executeInsn F d i).Sat (fun _ => (∀ l, d.MaskedLane i l) ∨ i.FieldsInRange)
      (fun _ => i.FieldsInRange)
      (fun a => ¬ i.FieldsInRange ∧ (∃ l, ¬ d.MaskedLane i l) ∧ a.IsRegister) := by
  obtain ⟨la, hla⟩ := hactive
  have hcases := effect_cases F d.warp.pc d.warp.cycles i
  unfold executeInsn
  cases heff : effect F d.warp.pc d.warp.cycles i with
  | lanes body =>
      rw [heff] at hcases
      obtain ⟨op, hop, huses, hdata⟩ := hcases
      cases hdata with
      | register _ hbody =>
          refine Outcome.Sat.bind (Q := fun _ => (∀ l, d.MaskedLane i l) ∨ i.FieldsInRange)
            ((forLanes_register_sat hbody).mono ?_ (fun _ h => h.elim) fun a ha =>
              ⟨fun hin => ?_, ?_⟩)
            fun _ h => h
          · rintro d' ⟨hfields, hpred⟩
            by_cases hen : ∃ l, d.EnabledLane i.pred l
            · obtain ⟨l, hl⟩ := hen
              refine Or.inr fun op' hop' => ?_
              obtain rfl := Option.some.inj (hop.symm.trans hop')
              exact ⟨hfields l hl, fun _ => hpred la hla⟩
            · push Not at hen
              exact Or.inl fun l => maskedLane_of_not_enabled (hpred l) (hen l)
          · have hop := hin op hop
            exact ha.1.elim (hop.2 huses) fun hf => hf.2 hop.1
          · refine ⟨?_, ha.2⟩
            rcases ha.1 with hpred | ⟨⟨l, hl⟩, -⟩
            · exact ⟨la, not_maskedLane_of_outOfRange hla hpred⟩
            · exact ⟨l, fun hm => hm.not_enabled hl⟩
      | memory hlen => simp [hmem op hop] at hlen
  | branch =>
      rw [heff] at hcases
      obtain ⟨op, hop, huses, -, hf⟩ := hcases
      refine Outcome.Sat.bind (Q := fun _ => i.FieldsInRange)
        ((anyEnabled_sat i.pred _).mono (fun _ hpred op' hop' => ?_) (fun _ h => h.elim)
          fun a ha => ⟨fun hin => (hin op hop).2 huses ha.1,
            ⟨la, not_maskedLane_of_outOfRange hla ha.1⟩, ha.2⟩)
        fun b hin => by cases b <;> exact Or.inr hin
      obtain rfl := Option.some.inj (hop.symm.trans hop')
      exact ⟨hf, fun _ => hpred la (List.mem_finRange la) hla⟩
  | call =>
      rw [heff] at hcases
      have hin (hpred : ¬ PredOutOfRange i.pred) : i.FieldsInRange := fun op hop => by
        obtain rfl := Option.some.inj (hop.symm.trans hcases)
        exact ⟨fieldsInRange_of_nil rfl rfl, fun _ => hpred⟩
      refine Outcome.Sat.bind (Q := fun _ => i.FieldsInRange)
        ((forLanes_pushRet_sat d.warp.pc).mono (fun _ hpred => hin (hpred la hla))
          (fun _ hpred => hin hpred) fun a ha => ⟨fun h => (h _ hcases).2 rfl ha.1,
            ⟨la, not_maskedLane_of_outOfRange hla ha.1⟩, ha.2⟩)
        fun _ h => Or.inr h
  | ret =>
      rw [heff] at hcases
      have hin : i.FieldsInRange := fun op hop => by
        obtain rfl := Option.some.inj (hop.symm.trans hcases)
        exact ⟨fieldsInRange_of_nil rfl rfl, by simp [Opcode.usesPred]⟩
      exact (forRange_retStep_not_undefined d).mono (fun _ _ => Or.inr hin) (fun _ _ => hin)
        (fun _ h => h.elim)
  | exit =>
      rw [heff] at hcases
      refine Or.inr fun op hop => ?_
      obtain rfl := Option.some.inj (hop.symm.trans hcases)
      exact ⟨fieldsInRange_of_nil rfl rfl, by simp [Opcode.usesPred]⟩
  | barrier =>
      rw [heff] at hcases
      refine Or.inr fun op hop => ?_
      obtain ⟨huses, -, hf⟩ := hcases op hop
      exact ⟨hf, by simp [huses]⟩
  | trap =>
      rw [heff] at hcases
      intro op hop
      obtain ⟨huses, -, hf⟩ := hcases op hop
      exact ⟨hf, by simp [huses]⟩

end Instruction

/-! ### Steps that stay in bounds -/

/-- The bounds test refuses the address of an enabled lane. -/
def Device.Refused (d : Device) (i : BvInsn) (len : Nat) (l : Fin warpSize) : Prop :=
  d.EnabledLane i.pred l ∧ ¬ (d.lane l).Passes i len d.mem.size

/-- The bounds test passes for an enabled lane although its address is negative. -/
def Device.SlipsThrough (d : Device) (i : BvInsn) (len : Nat) (l : Fin warpSize) : Prop :=
  d.EnabledLane i.pred l ∧ (d.lane l).Passes i len d.mem.size ∧ (d.lane l).effAddr i < 0

/-- If the instruction is a memory instruction, every enabled lane whose address lies in `[-len,
-1]` and passes the test comes after a lane the test refuses. -/
def Device.NoLaneSlips (d : Device) : Prop :=
  ∀ op len, Opcode.ofByte d.fetch.op = some op → op.memLen = some len →
    ∀ l, d.SlipsThrough d.fetch len l → ∃ l' < l, d.Refused d.fetch len l'

/-- A `STOREV` whose first enabled lane has an address the bounds test refuses, so that the vector
register is never looked at. -/
def Device.StorevRefused (d : Device) : Prop :=
  Opcode.ofByte d.fetch.op = some .storev ∧
    ∃ l, d.Refused d.fetch (vecLanes * 4) l ∧ ∀ l' < l, ¬ d.EnabledLane d.fetch.pred l'

/-- What keeps a step inside the register files and device memory: its register fields are in range,
or no lane gets to them, and no lane slips through the bounds test. -/
structure Device.InBounds (d : Device) : Prop where
  files : d.fetch.FieldsInRange ∨ (∀ l, d.MaskedLane d.fetch l) ∨ d.StorevRefused
  lanes : d.NoLaneSlips

theorem fieldsInRange_of_memLen {op : Opcode} {i : BvInsn} {len : Nat}
    (hlen : op.memLen = some len) (hne : op ≠ .storev) : op.FieldsInRange i := by
  cases op <;> first | exact fieldsInRange_of_nil rfl rfl | exact absurd rfl hne | cases hlen

theorem usesPred_of_memLen {op : Opcode} {len : Nat} (hlen : op.memLen = some len) :
    op.usesPred = true := by
  cases op <;> first | rfl | cases hlen

section InBounds

variable {F : HostMath} {d : Device} {op : Opcode} {len : Nat}

theorem BvInsn.fieldsInRange_of_memory {i : BvInsn} (hop : Opcode.ofByte i.op = some op)
    (hfields : op.FieldsInRange i) (hpred : ¬ PredOutOfRange i.pred) : i.FieldsInRange := by
  intro op' hop'
  obtain rfl := Option.some.inj (hop.symm.trans hop')
  exact ⟨hfields, fun _ => hpred⟩

/-- A memory instruction that stops does so at a lane the test refuses, and looks at its fields only
if an enabled lane comes before. -/
theorem files_of_memory_stop (hop : Opcode.ofByte d.fetch.op = some op)
    (hlen : op.memLen = some len) {l : Fin warpSize} (hl : d.Refused d.fetch len l)
    (hbefore : ∀ l' < l, d.EnabledLane d.fetch.pred l' →
      d.WorksInside d.fetch (op.FieldsInRange d.fetch) len l') :
    d.fetch.FieldsInRange ∨ d.StorevRefused := by
  have hpred : ¬ PredOutOfRange d.fetch.pred := fun h => not_predHolds_of_outOfRange h hl.1.2
  by_cases hf : op.FieldsInRange d.fetch
  · exact Or.inl (BvInsn.fieldsInRange_of_memory hop hf hpred)
  · obtain rfl : op = .storev := by_contra fun hne => hf (fieldsInRange_of_memLen hlen hne)
    obtain rfl : vecLanes * 4 = len := Option.some.inj hlen
    exact Or.inr ⟨hop, l, hl, fun l' hlt hl' => hf (hbefore l' hlt hl').1⟩

theorem executeInsn_memory_defined_iff (hex : d.Executing)
    (hop : Opcode.ofByte d.fetch.op = some op) (hlen : op.memLen = some len) :
    (∀ a, executeInsn F d.counted d.fetch ≠ .undefined a) ↔ d.InBounds := by
  have hsat := executeInsn_memory_sat F d.counted hop hlen
  constructor
  · intro hdef
    cases hres : executeInsn F d.counted d.fetch with
    | ok d' =>
        rw [hres] at hsat
        refine ⟨?_, fun op' len' hop' hlen' l hslip => ?_⟩
        · by_cases hen : ∃ l, d.EnabledLane d.fetch.pred l
          · obtain ⟨l, hl⟩ := hen
            exact Or.inl (BvInsn.fieldsInRange_of_memory hop (hsat.1 l hl).1 (hsat.2 l hl.1))
          · push Not at hen
            exact Or.inr (Or.inl fun l => maskedLane_of_not_enabled (hsat.2 l) (hen l))
        · exact absurd (hsat.1 l hslip.1).2.2 (not_le.mpr hslip.2.2)
    | stop d' =>
        rw [hres] at hsat
        obtain ⟨l, hl, hrefused, hbefore⟩ := hsat
        refine ⟨(files_of_memory_stop hop hlen ⟨hl, hrefused⟩ hbefore).imp_right Or.inr,
          fun op' len' hop' hlen' l' hslip => ⟨l, ?_, ?_⟩⟩
        all_goals
          obtain rfl := Option.some.inj (hop.symm.trans hop')
          obtain rfl := Option.some.inj (hlen.symm.trans hlen')
        · rcases lt_trichotomy l l' with hlt | rfl | hgt
          · exact hlt
          · exact absurd hslip.2.1 hrefused
          · exact absurd (hbefore l' hgt hslip.1).2.2 (not_le.mpr hslip.2.2)
        · exact ⟨hl, hrefused⟩
    | undefined a => exact absurd hres (hdef a)
  · rintro ⟨hfiles, hlanes⟩ a hund
    obtain ⟨la, hla⟩ := hex.exists_active
    rcases hsat.of_eq_undefined hund with ⟨hpred, -⟩ | ⟨l, hl, hbefore, hpass, hbad⟩
    · rcases hfiles with hin | hmasked | ⟨-, l, ⟨hl, -⟩, -⟩
      · exact (hin op hop).2 (usesPred_of_memLen hlen) hpred
      · exact not_maskedLane_of_outOfRange hla hpred (hmasked la)
      · exact not_predHolds_of_outOfRange hpred hl.2
    rcases hbad with ⟨hnf, -⟩ | ⟨-, hneg, -⟩
    · rcases hfiles with hin | hmasked | ⟨hop', l₁, ⟨hl₁, hrefused⟩, hfirst⟩
      · exact hnf (hin op hop).1
      · exact (hmasked l).not_enabled hl
      · -- the lane that is refused is the first one that does anything
        obtain rfl := Option.some.inj (hop.symm.trans hop')
        obtain rfl : vecLanes * 4 = len := Option.some.inj hlen
        rcases lt_trichotomy l l₁ with hlt | rfl | hgt
        · exact hfirst l hlt hl
        · exact hrefused hpass
        · exact hrefused (hbefore l₁ hgt hl₁).2.1
    · obtain ⟨l', hlt, hrefused⟩ := hlanes op len hop hlen l ⟨hl, hpass, hneg⟩
      exact hrefused.2 (hbefore l' hlt hrefused.1).2.1

theorem executeInsn_register_defined_iff (hex : d.Executing)
    (hmem : ∀ op, Opcode.ofByte d.fetch.op = some op → op.memLen = none) :
    (∀ a, executeInsn F d.counted d.fetch ≠ .undefined a) ↔ d.InBounds := by
  have hsat := executeInsn_register_sat F d.counted hex.exists_active hmem
  have hlanes : d.NoLaneSlips := fun op len hop hlen => by simp [hmem op hop] at hlen
  constructor
  · intro hdef
    cases hres : executeInsn F d.counted d.fetch with
    | ok d' =>
        rw [hres] at hsat
        exact ⟨hsat.elim (fun h => Or.inr (Or.inl h)) Or.inl, hlanes⟩
    | stop d' =>
        rw [hres] at hsat
        exact ⟨Or.inl hsat, hlanes⟩
    | undefined a => exact absurd hres (hdef a)
  · rintro ⟨hin | hmasked | ⟨hop, -⟩, -⟩ a hund
    · exact (hsat.of_eq_undefined hund).1 hin
    · obtain ⟨-, ⟨l, hl⟩, -⟩ := hsat.of_eq_undefined hund
      exact hl (hmasked l)
    · cases hmem _ hop

/-- Every access of a step is inside the register files and device memory exactly when the
instruction it executes is in bounds. -/
theorem bvrtStep_defined_iff : (∀ a, bvrtStep F d ≠ .error a) ↔ (d.Executing → d.InBounds) := by
  by_cases hex : d.Executing
  swap
  · refine ⟨fun _ h => absurd h hex, fun _ a hstep => hex (bvrtStep_eq_error_iff.mp hstep).1⟩
  have herror (a : Access) : bvrtStep F d = .error a ↔
      executeInsn F d.counted d.fetch = .undefined a :=
    bvrtStep_eq_error_iff.trans (and_iff_right hex)
  simp only [ne_eq, herror, hex, forall_const]
  by_cases hmem : ∃ op len, Opcode.ofByte d.fetch.op = some op ∧ op.memLen = some len
  · obtain ⟨op, len, hop, hlen⟩ := hmem
    exact executeInsn_memory_defined_iff hex hop hlen
  · push Not at hmem
    exact executeInsn_register_defined_iff hex fun op hop =>
      Option.eq_none_iff_forall_ne_some.mpr fun len => hmem op len hop

theorem exists_bvrtStep_iff : (∃ st d', bvrtStep F d = .ok (st, d')) ↔
    (d.Executing → d.InBounds) := by
  rw [← bvrtStep_defined_iff (F := F)]
  constructor
  · rintro ⟨st, d', hstep⟩ a herror
    rw [hstep] at herror
    cases herror
  · intro hdef
    cases hstep : bvrtStep F d with
    | ok r => exact ⟨r.1, r.2, rfl⟩
    | error a => exact absurd hstep (hdef a)

end InBounds

/-! ### Device memory -/

/-- Every access of the step lies inside device memory, and none lies past the end of a register
file, where it reads and writes whatever is next. -/
def Device.MemorySafe (F : HostMath) (d : Device) : Prop :=
  ∀ a, bvrtStep F d ≠ .error a

/-- **Memory safety.** The steps of a run stay inside device memory exactly when in all of them the
register fields are in range (or not looked at) and no lane slips through the bounds test with a
small negative address. -/
theorem run_memorySafe_iff (F : HostMath) (d₀ : Device) :
    (∀ d, d₀.RunsTo F d → d.MemorySafe F) ↔ ∀ d, d₀.RunsTo F d → d.Executing → d.InBounds :=
  forall₂_congr fun _ _ => bvrtStep_defined_iff

/-- A kernel `k` of one instruction, `LOAD S4, S16, 0`. -/
def loadKernel : BvbcImage :=
  { BvbcImage.zero with
    kernels := [{ name := kernelName (cstr "k"), entry := 0, nargs := 0 }]
    insns := .array [bven Opcode.load.toByte 0 4 16 0 0 0 0]
    ninsn := 1 }

/-- Launched with the argument -4, it reads the four bytes below device memory. -/
theorem not_forall_reachable_memorySafe :
    ¬ ∀ (F : HostMath) (d : Device), Reachable F d → d.MemorySafe F := by
  intro h
  have hlaunch : Reachable HostMath.integer _ :=
    ⟨bvrtLoad (bvrtCreate 64 fun _ => 0) loadKernel, cstr "k", [-4], _, rfl, .start⟩
  exact h _ _ hlaunch (.mem (2 ^ 64 - 4) 4) rfl

/-! ### Register files -/

/-- The step indexes no register file past its end, and an instruction with a field out of range for
the file its opcode uses traps. Scalar registers are named by a byte and there are 256 of them. -/
def Device.RegisterSafe (F : HostMath) (d : Device) : Prop :=
  (∀ a, bvrtStep F d = .error a → ¬ a.IsRegister) ∧
    (d.Executing → ¬ d.fetch.FieldsInRange → ∃ d', bvrtStep F d = .ok (.trap, d'))

/-- A step stays inside the register files, trapping where a field is out of range, exactly when the
instruction it executes has all fields in range, or is a `STOREV` that traps for its address
first. -/
theorem registerSafe_iff (F : HostMath) (d : Device) :
    d.RegisterSafe F ↔ (d.Executing → d.fetch.FieldsInRange ∨ d.StorevRefused) := by
  constructor
  · rintro ⟨-, htrap⟩ hex
    by_contra hcon
    obtain ⟨hfields, hstorev⟩ := not_or.mp hcon
    obtain ⟨d', hstep⟩ := htrap hex hfields
    obtain ⟨d'', hstop⟩ : ∃ d'', executeInsn F d.counted d.fetch = .stop d'' := by
      rw [bvrtStep_of_executing hex] at hstep
      cases hres : executeInsn F d.counted d.fetch with
      | stop d'' => exact ⟨d'', rfl⟩
      | ok d'' => simp [hres, Exec.result] at hstep
      | undefined a => simp [hres, Exec.result] at hstep
    by_cases hmem : ∃ op len, Opcode.ofByte d.fetch.op = some op ∧ op.memLen = some len
    · obtain ⟨op, len, hop, hlen⟩ := hmem
      obtain ⟨l, hl, hrefused, hbefore⟩ :=
        (executeInsn_memory_sat F d.counted hop hlen).of_eq_stop hstop
      exact (files_of_memory_stop hop hlen ⟨hl, hrefused⟩ hbefore).elim hfields hstorev
    · push Not at hmem
      exact hfields ((executeInsn_register_sat F d.counted hex.exists_active fun op hop =>
        Option.eq_none_iff_forall_ne_some.mpr fun len => hmem op len hop).of_eq_stop hstop)
  · intro hcond
    by_cases hex : d.Executing
    swap
    · refine ⟨fun a hstep => absurd (bvrtStep_eq_error_iff.mp hstep).1 hex, fun h => absurd h hex⟩
    rcases hcond hex with hfields | ⟨hop, l, ⟨hl, hrefused⟩, hfirst⟩
    · refine ⟨fun a hstep hreg => ?_, fun _ hnf => absurd hfields hnf⟩
      obtain ⟨-, hund⟩ := bvrtStep_eq_error_iff.mp hstep
      by_cases hmem : ∃ op len, Opcode.ofByte d.fetch.op = some op ∧ op.memLen = some len
      · obtain ⟨op, len, hop, hlen⟩ := hmem
        have hin := hfields op hop
        rcases (executeInsn_memory_sat F d.counted hop hlen).of_eq_undefined hund with
          ⟨hpred, -⟩ | ⟨l, -, -, -, ⟨hnf, -⟩ | ⟨-, -, off, n, rfl⟩⟩
        · exact hin.2 (usesPred_of_memLen hlen) hpred
        · exact hnf hin.1
        · exact hreg
      · push Not at hmem
        exact ((executeInsn_register_sat F d.counted hex.exists_active fun op hop =>
          Option.eq_none_iff_forall_ne_some.mpr fun len => hmem op len hop).of_eq_undefined
            hund).1 hfields
    · -- the lane that is refused is the first one that does anything
      have hsat := executeInsn_memory_sat F d.counted hop rfl
      cases hres : executeInsn F d.counted d.fetch with
      | stop d' =>
          have hstep : bvrtStep F d = .ok (.trap, d') := by
            rw [bvrtStep_of_executing hex, hres]
            rfl
          exact ⟨fun a ha => by simp [hstep] at ha, fun _ _ => ⟨d', hstep⟩⟩
      | ok d' =>
          rw [hres] at hsat
          exact absurd (hsat.1 l hl).2.1 hrefused
      | undefined a =>
          rw [hres] at hsat
          rcases hsat with ⟨hpred, -⟩ | ⟨l', hl', hbefore, hpass, -⟩
          · exact absurd hl.2 (not_predHolds_of_outOfRange hpred)
          · rcases lt_trichotomy l' l with hlt | rfl | hgt
            · exact absurd hl' (hfirst l' hlt)
            · exact absurd hpass hrefused
            · exact absurd (hbefore l hgt hl).2.1 hrefused

/-- **Register safety.** The steps of a run stay inside the register files, and trap where a field
is out of range, exactly when every instruction they execute has all fields in range, or is a
`STOREV` that traps for its address first. -/
theorem run_registerSafe_iff (F : HostMath) (d₀ : Device) :
    (∀ d, d₀.RunsTo F d → d.RegisterSafe F) ↔
      ∀ d, d₀.RunsTo F d → d.Executing → d.fetch.FieldsInRange ∨ d.StorevRefused :=
  forall₂_congr fun d _ => registerSafe_iff F d

/-- An image that one of the two producers hands out. -/
def Produced (img : BvbcImage) : Prop :=
  (∃ buf, bvbcUnpack buf = .ok img) ∨ ∃ source img₀, bradcAssemble source img₀ = .ok img

/-- A vector sum written with a scalar destination past the last vector register. -/
def vaddSource : List Byte := cstr ".kernel k\nVADD S100, S1, V3\n.end"

def vaddImage : BvbcImage :=
  { BvbcImage.zero with
    version := 1
    kernels := [{ name := kernelName (cstr "k"), entry := 0, nargs := 0 }]
    insns := .array [bven Opcode.vadd.toByte 0 100 1 3 0 0 0]
    ninsn := 1
    stringPool := cstr "k" ++ [0] }

/-- The assembler emits it, and its first step writes vector register 100. -/
theorem not_forall_produced_registerSafe :
    ¬ ∀ (F : HostMath) (img : BvbcImage), Produced img → ∀ d kernel args d₁, d.img = img →
      bvrtLaunch d kernel args = some d₁ → ∀ d', d₁.RunsTo F d' → d'.RegisterSafe F := by
  intro h
  have hproduced : Produced vaddImage :=
    Or.inr ⟨vaddSource, BvbcImage.zero, by decide⟩
  have hsafe :=
    h HostMath.integer vaddImage hproduced (bvrtLoad (bvrtCreate 64 fun _ => 0) vaddImage)
    (cstr "k") [] _ rfl rfl _ .start
  exact hsafe.1 (.vreg 100) rfl trivial

end BradVector
