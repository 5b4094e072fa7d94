import BradVector.Proof.Kernels
import BradVector.Proof.LaneOrder

/-!
# The kernels of the host libraries in any order

The kernels of BVML and BVN use `S1`, which a launch fills with the number of the lane, as a scratch
register. No lane looks at the number: at every instruction at which `S1` may still hold it, it is
not read. So all lanes store the same, and a kernel runs the same way whatever order its lanes are
taken in.
-/

namespace BradVector

open CSem Machine

/-! ### Where the lanes differ -/

/-- All registers the kernels use are known, `S1` excepted where it `varies`. -/
structure Thread.Full (t : Thread) (varies : Bool) : Prop where
  p0 : t.p0.isSome
  s : ∀ r, (r = sThreadId → varies = false) → (t.s r).isSome

/-- Where the branch at `pc` goes. -/
def BvInsn.target (i : BvInsn) (pc : Nat) : Nat :=
  (BitVec.ofNat 32 pc + 1 + i.imm.signExtend 32).toNat

theorem ofNat_target (i : BvInsn) (pc : Nat) :
    BitVec.ofNat 32 pc + 1 + i.imm.signExtend 32 = BitVec.ofNat 32 (i.target pc) := by
  rw [BvInsn.target, BitVec.ofNat_toNat, BitVec.setWidth_eq]

/-- An instruction at `pc`, where `varies` says at which instructions `S1` may vary: it is one of
those the kernels consist of, reads no varying register, and leads to instructions that expect no
more than it leaves. -/
def BvInsn.followed (i : BvInsn) (size : Nat) (varies : Nat → Bool) (pc : Nat) : Bool :=
  let next (known : Bool) := i.pred = 0 && pc + 1 < size && (!varies pc || varies (pc + 1) || known)
  let reads (r : BitVec 8) := !varies pc || r ≠ sThreadId
  match Opcode.ofByte i.op with
  | some .addi | some .rcp | some .exp2 | some .add | some .sub | some .mul | some .max
  | some .iadd | some .isub | some .load =>
      next (i.dst = sThreadId) && reads i.src1 && reads i.src2
  | some .mad | some .store => next false && reads i.src1 && reads i.src2 && reads i.dst
  | some .cmp => i.dst = 0 && next false && reads i.src1 && reads i.src2
  | some .br => i.pred = 0 && i.target pc < size && (!varies pc || varies (i.target pc))
  | some .brCond =>
      i.pred = 1 && i.target pc < size && (!varies pc || varies (i.target pc)) && pc + 1 < size &&
        (!varies pc || varies (pc + 1))
  | some .exit => true
  | _ => false

section Full

variable {F : HostMath} {t : Thread} {v v' : Bool} {i : BvInsn}

theorem Thread.Full.get (h : t.Full v) {r : BitVec 8} (hr : v = false ∨ r ≠ sThreadId) :
    ∃ w, t.s r = some w :=
  Option.isSome_iff_exists.mp (h.s r fun heq => hr.resolve_right (not_not_intro heq))

theorem Thread.Full.mono (h : t.Full v) (hv : v = false ∨ v' = true) : t.Full v' := by
  refine ⟨h.p0, fun r hr => h.s r fun heq => hv.resolve_right fun htrue => ?_⟩
  rw [hr heq] at htrue
  cases htrue

theorem Thread.Full.set (h : t.Full v) {dst : BitVec 8} (w : Word)
    (hv : v = false ∨ v' = true ∨ dst = sThreadId) : (t.set dst (some w)).Full v' := by
  unfold Thread.set
  by_cases hzero : dst = sZero
  · rw [if_pos hzero]
    refine h.mono (hv.imp_right fun hv => hv.resolve_right fun hid => ?_)
    rw [hzero] at hid
    exact absurd hid (by decide)
  · rw [if_neg hzero]
    refine ⟨h.p0, fun r hr => ?_⟩
    by_cases hrd : r = dst
    · rw [hrd]
      simp
    · dsimp only
      rw [Function.update_of_ne hrd]
      refine h.s r fun hid => hv.resolve_right ?_
      rintro (htrue | hdst)
      · rw [hr hid] at htrue
        cases htrue
      · exact hrd (hid.trans hdst.symm)

/-- An instruction other than a branch and EXIT: it can be run, and the next one finds what it
expects. -/
theorem Thread.Full.exec {size pc : Nat} {varies : Nat → Bool} (h : t.Full (varies pc))
    (hc : i.followed size varies pc = true) (hbr : Opcode.ofByte i.op ≠ some .br)
    (hcond : Opcode.ofByte i.op ≠ some .brCond) (hexit : Opcode.ofByte i.op ≠ some .exit) :
    t.Knows i ∧ pc + 1 < size ∧ (t.exec F i).Full (varies (pc + 1)) := by
  unfold BvInsn.followed at hc
  unfold Thread.Knows Thread.exec
  cases hop : Opcode.ofByte i.op with
  | none => simp [hop] at hc
  | some op =>
      cases op
      case br => exact absurd hop hbr
      case brCond => exact absurd hop hcond
      case exit => exact absurd hop hexit
      all_goals
        simp [hop] at hc
      case load =>
        obtain ⟨⟨⟨⟨hpred, hlt⟩, hv⟩, h₁⟩, h₂⟩ := hc
        obtain ⟨a, ha⟩ := h.get h₁
        refine ⟨⟨hpred, by simp [ha]⟩, hlt, ?_⟩
        simp only [Thread.addr, ha, Option.map_some]
        exact h.set _ (by rwa [← or_assoc])
      case addi | rcp | exp2 =>
        obtain ⟨⟨⟨⟨hpred, hlt⟩, hv⟩, h₁⟩, h₂⟩ := hc
        obtain ⟨a, ha⟩ := h.get h₁
        refine ⟨⟨hpred, trivial⟩, hlt, ?_⟩
        simp only [ha, Option.map_some]
        exact h.set _ (by rwa [← or_assoc])
      case add | sub | mul | max | iadd | isub =>
        obtain ⟨⟨⟨⟨hpred, hlt⟩, hv⟩, h₁⟩, h₂⟩ := hc
        obtain ⟨a, ha⟩ := h.get h₁
        obtain ⟨b, hb⟩ := h.get h₂
        refine ⟨⟨hpred, trivial⟩, hlt, ?_⟩
        simp only [ha, hb, Option.map₂_some_some]
        exact h.set _ (by rwa [← or_assoc])
      case mad =>
        obtain ⟨⟨⟨⟨⟨hpred, hlt⟩, hv⟩, h₁⟩, h₂⟩, h₃⟩ := hc
        obtain ⟨a, ha⟩ := h.get h₁
        obtain ⟨b, hb⟩ := h.get h₂
        obtain ⟨x, hx⟩ := h.get h₃
        refine ⟨⟨hpred, trivial⟩, hlt, ?_⟩
        simp only [ha, hb, hx, Option.map₂_some_some]
        exact h.set _ (hv.imp_right .inl)
      case store =>
        obtain ⟨⟨⟨⟨⟨hpred, hlt⟩, hv⟩, h₁⟩, h₂⟩, h₃⟩ := hc
        obtain ⟨a, ha⟩ := h.get h₁
        obtain ⟨x, hx⟩ := h.get h₃
        refine ⟨⟨hpred, by simp [ha, hx]⟩, hlt, ?_⟩
        simp only [Thread.addr, ha, hx, Option.map_some]
        exact ⟨(h.mono hv).p0, (h.mono hv).s⟩
      case cmp =>
        obtain ⟨⟨⟨hdst, ⟨hpred, hlt⟩, hv⟩, h₁⟩, h₂⟩ := hc
        obtain ⟨a, ha⟩ := h.get h₁
        obtain ⟨b, hb⟩ := h.get h₂
        refine ⟨⟨hpred, hdst⟩, hlt, ?_⟩
        simp only [ha, hb, Option.map₂_some_some]
        exact ⟨rfl, (h.mono hv).s⟩

end Full

/-! ### What is read before it is written -/

/-- Another value in a scalar register of the lane. -/
def Local.setS (c : Local) (r : BitVec 8) (w : Word) : Local :=
  { c with lane := { c.lane with s := Function.update c.lane.s r w } }

/-- The work of a lane neither looks at `r` nor changes it: it is the same whatever `r` holds. -/
def IgnoresS (r : BitVec 8) (body : Local → LaneOutcome Local) : Prop :=
  ∀ c w, body (c.setS r w) = body c >>= fun c' => .ok (c'.setS r w)

/-- The work of a lane writes `r` without looking at it. -/
def OverwritesS (r : BitVec 8) (body : Local → LaneOutcome Local) : Prop :=
  ∀ c w, body (c.setS r w) = body c

/-- No lane looks at `r` or changes it. -/
def Device.Ignores (d : Device) (F : HostMath) (r : BitVec 8) : Prop :=
  ∀ body, effect F d.warp.pc d.warp.cycles d.fetch = .lanes body → ∀ l, IgnoresS r (body l)

/-- The lanes write `r` without looking at it. -/
def Device.Overwrites (d : Device) (F : HostMath) (r : BitVec 8) : Prop :=
  ∃ body, effect F d.warp.pc d.warp.cycles d.fetch = .lanes body ∧ ∀ l, OverwritesS r (body l)

/-- The run from `d₀` comes to a state before any instruction has written `r` afresh. -/
inductive Device.RunsBefore (F : HostMath) (r : BitVec 8) (d₀ : Device) : Device → Prop
  | start : RunsBefore F r d₀ d₀
  | step {d d' : Device} (run : RunsBefore F r d₀ d) (hnot : ¬ d.Overwrites F r)
      (hstep : bvrtStep F d = .ok (.ok, d')) : RunsBefore F r d₀ d'

section Scalars

variable {i : BvInsn} {r : BitVec 8} {c : Local} {v w : Word}

theorem setS_s_of_ne {q : BitVec 8} (h : q ≠ r) : (c.setS r w).lane.s q = c.lane.s q :=
  Function.update_of_ne h _ _

theorem setS_memAddr (h : i.src1 ≠ r) : (c.setS r w).lane.memAddr i = c.lane.memAddr i := by
  unfold Lane.memAddr
  rw [setS_s_of_ne h]

theorem setS_mem : (c.setS r w).mem = c.mem := rfl

theorem wrS_setS_of_ne (h : i.dst ≠ r) :
    { c with lane := c.lane.wrS i.dst v }.setS r w =
      { c.setS r w with lane := (c.setS r w).lane.wrS i.dst v } := by
  unfold Local.setS Lane.wrS
  split_ifs
  · rfl
  · dsimp only
    rw [Function.update_comm h]

theorem wrS_setS_self (h : i.dst = r) (hr : r ≠ sZero) :
    { c.setS r w with lane := (c.setS r w).lane.wrS i.dst v } =
      { c with lane := c.lane.wrS i.dst v } := by
  unfold Local.setS Lane.wrS
  rw [h, if_neg hr, if_neg hr]
  dsimp only
  rw [Function.update_idem]

/-- An instruction whose value does not depend on `r`. -/
theorem scalar_unread {f : (BitVec 8 → Word) → Word}
    (hf : ∀ s w, f (Function.update s r w) = f s) :
    (i.dst ≠ r → IgnoresS r (scalar i f)) ∧
      (i.dst = r → r ≠ sZero → OverwritesS r (scalar i f)) := by
  constructor
  · intro hne c w
    have hvalue : f (c.setS r w).lane.s = f c.lane.s := hf _ _
    unfold scalar
    rw [hvalue]
    exact congrArg Outcome.ok (wrS_setS_of_ne hne).symm
  · intro heq hr c w
    have hvalue : f (c.setS r w).lane.s = f c.lane.s := hf _ _
    unfold scalar
    rw [hvalue, wrS_setS_self heq hr]

theorem load_unread (h : i.src1 ≠ r) :
    (i.dst ≠ r → IgnoresS r (load i)) ∧ (i.dst = r → r ≠ sZero → OverwritesS r (load i)) := by
  constructor
  · intro hne c w
    unfold load
    dsimp only
    rw [setS_memAddr h, setS_mem]
    split_ifs
    · rfl
    · cases c.mem.read32 (c.lane.memAddr i).toNat with
      | ok v => exact congrArg Outcome.ok (wrS_setS_of_ne hne).symm
      | stop | undefined => rfl
  · intro heq hr c w
    unfold load
    dsimp only
    rw [setS_memAddr h, setS_mem]
    split_ifs
    · rfl
    · cases c.mem.read32 (c.lane.memAddr i).toNat with
      | ok v => exact congrArg Outcome.ok (wrS_setS_self heq hr)
      | stop | undefined => rfl

theorem store_unread (h₁ : i.src1 ≠ r) (h₂ : i.dst ≠ r) : IgnoresS r (store i) := by
  intro c w
  unfold store
  dsimp only
  rw [setS_memAddr h₁, setS_mem, setS_s_of_ne h₂]
  split_ifs
  · rfl
  · cases c.mem.write32 (c.lane.memAddr i).toNat (c.lane.s i.dst) <;> rfl

theorem cmp_unread (h₁ : i.src1 ≠ r) (h₂ : i.src2 ≠ r) : IgnoresS r (cmp i) := by
  intro c w
  unfold cmp
  dsimp only
  rw [setS_s_of_ne h₁, setS_s_of_ne h₂]
  unfold Lane.writeP
  split_ifs <;> rfl

end Scalars

theorem BvInsn.followed_lanes {i : BvInsn} {size pc : Nat} {varies : Nat → Bool}
    (hc : i.followed size varies pc = true) (hbr : Opcode.ofByte i.op ≠ some .br)
    (hcond : Opcode.ofByte i.op ≠ some .brCond) (hexit : Opcode.ofByte i.op ≠ some .exit)
    (F : HostMath) (at' cycles : Word) : ∃ body, effect F at' cycles i = .lanes body := by
  unfold BvInsn.followed at hc
  unfold effect
  cases hop : Opcode.ofByte i.op with
  | none => simp [hop] at hc
  | some op =>
      cases op
      case br => exact absurd hop hbr
      case brCond => exact absurd hop hcond
      case exit => exact absurd hop hexit
      all_goals first
        | exact ⟨_, rfl⟩
        | simp [hop] at hc

/-- Where `S1` may vary no instruction looks at it, and behind one that does not write it it may
still vary. -/
theorem BvInsn.followed_unread {i : BvInsn} {size pc : Nat} {varies : Nat → Bool} {F : HostMath}
    {at' cycles : Word} {body : Fin warpSize → Local → LaneOutcome Local}
    (hc : i.followed size varies pc = true) (hv : varies pc = true)
    (heff : effect F at' cycles i = .lanes body) :
    (varies (pc + 1) = true ∧ ∀ l, IgnoresS sThreadId (body l)) ∨
      ∀ l, OverwritesS sThreadId (body l) := by
  have hzero : sThreadId ≠ sZero := by decide
  unfold BvInsn.followed at hc
  unfold effect at heff
  cases hop : Opcode.ofByte i.op with
  | none => simp [hop] at hc
  | some op =>
      cases op
      all_goals
        simp [hop, hv] at hc
      case br | brCond | exit => simp [hop] at heff
      all_goals
        simp only [hop, Effect.lanes.injEq] at heff
        subst heff
      case load =>
        obtain ⟨⟨⟨-, hnext⟩, h₁⟩, -⟩ := hc
        have hload := load_unread (i := i) h₁
        by_cases hdst : i.dst = sThreadId
        · exact .inr fun _ => hload.2 hdst hzero
        · exact .inl ⟨hnext.resolve_right hdst, fun _ => hload.1 hdst⟩
      case addi | rcp | exp2 | add | sub | mul | max | iadd | isub =>
        obtain ⟨⟨⟨-, hnext⟩, h₁⟩, h₂⟩ := hc
        refine (em (i.dst = sThreadId)).elim (fun hdst => .inr fun _ =>
          (scalar_unread ?_).2 hdst hzero)
          fun hdst => .inl ⟨hnext.resolve_right hdst, fun _ => (scalar_unread ?_).1 hdst⟩
        all_goals
          intro s w
          simp only [Function.update_of_ne h₁, Function.update_of_ne h₂]
      case mad =>
        obtain ⟨⟨⟨⟨-, hnext⟩, h₁⟩, h₂⟩, h₃⟩ := hc
        refine .inl ⟨hnext, fun _ => (scalar_unread ?_).1 h₃⟩
        intro s w
        simp only [Function.update_of_ne h₁, Function.update_of_ne h₂, Function.update_of_ne h₃]
      case store =>
        obtain ⟨⟨⟨⟨-, hnext⟩, h₁⟩, -⟩, h₃⟩ := hc
        exact .inl ⟨hnext, fun _ => store_unread h₁ h₃⟩
      case cmp =>
        obtain ⟨⟨⟨-, ⟨-, hnext⟩⟩, h₁⟩, h₂⟩ := hc
        exact .inl ⟨hnext, fun _ => cmp_unread h₁ h₂⟩

/-! ### The warp -/

/-- Every instruction of the image is followed by what it leads to. -/
structure BvbcImage.Annotated (img : BvbcImage) (varies : Nat → Bool) : Prop where
  ninsn_le : img.ninsn ≤ bvbcMaxInsn
  followed : ∀ pc < img.ninsn, (bvDecode (img.insn pc)).followed img.ninsn varies pc = true

/-- The warp is in lockstep at some instruction, and `S1` does not vary there but where it may. -/
def Device.InLockstep (d : Device) (img : BvbcImage) (varies : Nat → Bool) : Prop :=
  ∃ pc t, pc < img.ninsn ∧ d.At img pc t ∧ t.Full (varies pc)

section Warp

variable {F : HostMath} {d e : Device} {img : BvbcImage} {varies : Nat → Bool}

/-- What comes of an instruction: the next one in lockstep, the end, or an access outside the
memory. As long as `S1` is not written afresh, it is one where `S1` may vary. -/
theorem Device.At.next_cases {pc : Nat} {t : Thread} (hat : d.At img pc t) (hlt : pc < img.ninsn)
    (hfull : t.Full (varies pc)) (himg : img.Annotated varies) :
    (∃ e, d.next F = .ok e ∧
        ((∃ pc' t', pc' < img.ninsn ∧ e.At img pc' t' ∧ t'.Full (varies pc') ∧
            (varies pc = true → ¬ d.Overwrites F sThreadId → varies pc' = true)) ∨
          e.warp.active = 0)) ∨
      img.Fetches pc d.fetch ∧ t.Knows d.fetch ∧ ¬ t.Fits d.fetch := by
  have hf : img.Fetches pc (bvDecode (img.insn pc)) := ⟨hlt, himg.ninsn_le, rfl⟩
  have hfetch := (hat.executing hf).2
  have hc := himg.followed pc hlt
  rw [← hfetch] at hf hc
  by_cases hbr : Opcode.ofByte d.fetch.op = some .br
  · simp [BvInsn.followed, hbr] at hc
    obtain ⟨⟨hpred, hto⟩, hv⟩ := hc
    obtain ⟨e, he, hat'⟩ :=
      hat.branch_next (F := F) hf (.inl hbr) (ofNat_target d.fetch pc) (.inl ⟨hpred, rfl⟩)
    refine .inl ⟨e, he, .inl ⟨_, t, hto, hat', hfull.mono hv, fun hvaries _ => ?_⟩⟩
    exact hv.resolve_left (by simp [hvaries])
  by_cases hcond : Opcode.ofByte d.fetch.op = some .brCond
  · simp [BvInsn.followed, hcond] at hc
    obtain ⟨⟨⟨⟨hpred, hto⟩, hv⟩, hon⟩, hv'⟩ := hc
    obtain ⟨w, hw⟩ := Option.isSome_iff_exists.mp hfull.p0
    obtain ⟨e, he, hat'⟩ :=
      hat.branch_next (F := F) hf (.inr hcond) (ofNat_target d.fetch pc) (.inr ⟨hpred, w, hw, rfl⟩)
    refine .inl ⟨e, he, .inl ?_⟩
    by_cases htaken : w ≠ 0
    · rw [decide_eq_true htaken, if_pos rfl] at hat'
      exact ⟨_, t, hto, hat', hfull.mono hv, fun hvaries _ => hv.resolve_left (by simp [hvaries])⟩
    · rw [decide_eq_false htaken, if_neg Bool.false_ne_true] at hat'
      exact ⟨pc + 1, t, hon, hat', hfull.mono hv', fun hvaries _ =>
        hv'.resolve_left (by simp [hvaries])⟩
  by_cases hexit : Opcode.ofByte d.fetch.op = some .exit
  · obtain ⟨e, he, hhalt, -⟩ := hat.exit_next (F := F) hf hexit
    exact .inl ⟨e, he, .inr hhalt⟩
  obtain ⟨hknows, hon, hfull'⟩ := hfull.exec (F := F) hc hbr hcond hexit
  by_cases hfits : t.Fits d.fetch
  · obtain ⟨e, he, hat'⟩ := hat.exec_next (F := F) hf hknows hfits
    refine .inl ⟨e, he, .inl ⟨pc + 1, _, hon, hat', hfull', fun hvaries hnot => ?_⟩⟩
    obtain ⟨body, hbody⟩ := BvInsn.followed_lanes hc hbr hcond hexit F d.warp.pc d.warp.cycles
    rcases BvInsn.followed_unread hc hvaries hbody with ⟨hnext, -⟩ | hover
    · exact hnext
    · exact absurd ⟨body, hbody, hover⟩ hnot
  · exact .inr ⟨hf, hknows, hfits⟩

theorem Device.InLockstep.next_cases (h : d.InLockstep img varies) (himg : img.Annotated varies) :
    (∃ e, d.next F = .ok e ∧ (e.InLockstep img varies ∨ e.warp.active = 0)) ∨
      ∃ pc t, d.At img pc t ∧ img.Fetches pc d.fetch ∧ t.Knows d.fetch ∧ ¬ t.Fits d.fetch := by
  obtain ⟨pc, t, hlt, hat, hfull⟩ := h
  rcases hat.next_cases (F := F) hlt hfull himg with
    ⟨e, he, ⟨pc', t', hlt', hat', hfull', -⟩ | hhalt⟩ | hout
  · exact .inl ⟨e, he, .inl ⟨pc', t', hlt', hat', hfull'⟩⟩
  · exact .inl ⟨e, he, .inr hhalt⟩
  · exact .inr ⟨pc, t, hat, hout⟩

/-- A run that has not yet written `S1` afresh is where `S1` may vary, or at its end. -/
theorem Device.RunsBefore.inLockstep {pc : Nat} {t : Thread} (himg : img.Annotated varies)
    (hlt : pc < img.ninsn) (hat : d.At img pc t) (hfull : t.Full (varies pc))
    (hv : varies pc = true) (hrun : Device.RunsBefore F sThreadId d e) :
    (∃ pc' t', pc' < img.ninsn ∧ e.At img pc' t' ∧ t'.Full (varies pc') ∧ varies pc' = true) ∨
      e.warp.active = 0 := by
  induction hrun with
  | start => exact .inl ⟨pc, t, hlt, hat, hfull, hv⟩
  | @step e e' _ hnot hstep ih =>
      have hnext : e.next F = .ok e' := next_eq_ok_iff.mpr hstep
      rcases ih with ⟨pc', t', hlt', hat', hfull', hv'⟩ | hhalt
      · rcases hat'.next_cases (F := F) hlt' hfull' himg with
          ⟨e'', he'', hthere⟩ | ⟨hf, hknows, hfits⟩
        · obtain rfl := Except.ok.inj (hnext.symm.trans he'')
          rcases hthere with ⟨pc'', t'', hlt'', hat'', hfull'', hkeeps⟩ | hhalt
          · exact .inl ⟨pc'', t'', hlt'', hat'', hfull'', hkeeps hv' hnot⟩
          · exact .inr hhalt
        · exact absurd (hat'.fits_of_next hf hknows hnext) hfits
      · exact absurd hhalt (executing_of_next hnext).1.1

/-- Up to the instruction that writes it afresh, and at that one, nothing looks at `S1`. -/
theorem Device.RunsBefore.ignores_or_overwrites {pc : Nat} {t : Thread}
    (himg : img.Annotated varies)
    (hlt : pc < img.ninsn) (hat : d.At img pc t) (hfull : t.Full (varies pc))
    (hv : varies pc = true) (hrun : Device.RunsBefore F sThreadId d e) (hex : e.Executing) :
    e.Ignores F sThreadId ∨ e.Overwrites F sThreadId := by
  rcases hrun.inLockstep himg hlt hat hfull hv with ⟨pc', t', hlt', hat', -, hv'⟩ | hhalt
  · have hc := himg.followed pc' hlt'
    rw [← (hat'.executing ⟨hlt', himg.ninsn_le, rfl⟩).2] at hc
    by_cases hover : e.Overwrites F sThreadId
    · exact .inr hover
    · refine .inl fun body hbody => ?_
      rcases BvInsn.followed_unread hc hv' hbody with ⟨-, hignores⟩ | hoverwrites
      · exact hignores
      · exact absurd ⟨body, hbody, hoverwrites⟩ hover
  · exact absurd hhalt hex.1

theorem Device.InLockstep.next (h : d.InLockstep img varies) (himg : img.Annotated varies)
    (hnext : d.next F = .ok e) : e.InLockstep img varies ∨ e.warp.active = 0 := by
  rcases h.next_cases (F := F) himg with ⟨e', he', hdone⟩ | ⟨pc, t, hat, hf, hknows, hfits⟩
  · rw [hnext] at he'
    obtain rfl := Except.ok.inj he'
    exact hdone
  · exact absurd (hat.fits_of_next hf hknows hnext) hfits

/-- A warp in lockstep has no race: its lanes store the same. -/
theorem Device.InLockstep.raceFree (h : d.InLockstep img varies) (himg : img.Annotated varies) :
    d.RaceFree := by
  obtain ⟨pc, t, hlt, hat, hfull⟩ := h
  have hf : img.Fetches pc (bvDecode (img.insn pc)) := ⟨hlt, himg.ninsn_le, rfl⟩
  have hfetch := (hat.executing hf).2
  have hc := himg.followed pc hlt
  generalize bvDecode (img.insn pc) = i at hf hfetch hc
  subst hfetch
  cases hop : Opcode.ofByte d.fetch.op with
  | none => simp [BvInsn.followed, hop] at hc
  | some op =>
      by_cases hstore : op = .store
      · subst hstore
        obtain ⟨hknows, -, -⟩ :=
          hfull.exec (F := .integer) hc (by simp [hop]) (by simp [hop]) (by simp [hop])
        obtain ⟨-, haddr, hword⟩ : _ ∧ _ := by simpa [Thread.Knows, hop] using hknows
        obtain ⟨a, ha⟩ := Option.isSome_iff_exists.mp haddr
        obtain ⟨w, hw⟩ := Option.isSome_iff_exists.mp hword
        refine ⟨fun op' hop' l l' _ _ _ => .inr ?_, fun h => ?_, fun h => ?_⟩
        · obtain rfl := Option.some.inj (hop.symm.trans hop')
          refine ⟨rfl, ?_, fun _ => ?_, fun h => by cases h⟩
          · rw [Lane.memAddr, Lane.memAddr, hat.s l _ a ha, hat.s l' _ a ha]
          · rw [hat.s l _ w hw, hat.s l' _ w hw]
        · rw [hop] at h
          cases h
        · rw [hop] at h
          cases h
      · have hkind : op.writesMem = false ∧ op ≠ .rand ∧ op ≠ .ret := by
          cases op
          case store => exact absurd rfl hstore
          all_goals first
            | decide
            | simp [BvInsn.followed, hop] at hc
        exact raceFree_of_registers op hop hkind.1 hkind.2.1 hkind.2.2

/-- An access outside the memory fails in the lane that is taken first, whichever it is. -/
theorem forEach_laneStep_fails {pred : BitVec 8} {body : Fin warpSize → Local → LaneOutcome Local}
    {x : LaneOutcome Local} (hx : ∀ l, body l (d.local l) = x) (hfail : ∀ c, x ≠ .ok c)
    (hen : ∀ l, d.EnabledLane pred l) {ls ls' : List (Fin warpSize)} (hne : ls ≠ [])
    (hne' : ls' ≠ []) :
    Outcome.forEach (laneStep pred body) ls d = Outcome.forEach (laneStep pred body) ls' d := by
  obtain ⟨l, rest, rfl⟩ := List.exists_cons_of_ne_nil hne
  obtain ⟨l', rest', rfl⟩ := List.exists_cons_of_ne_nil hne'
  rw [Outcome.forEach, Outcome.forEach, laneStep_eq (hen l), laneStep_eq (hen l'), hx, hx]
  cases x with
  | ok c => exact absurd rfl (hfail c)
  | stop | undefined => rfl

/-- Outside the memory, an access fails in the same way in every lane. -/
theorem Device.At.access_fails {pc : Nat} {t : Thread} {i : BvInsn} (h : d.At img pc t)
    (hfits : ¬ t.Fits i) :
    ∃ (body : Local → LaneOutcome Local) (x : LaneOutcome Local),
      effect F d.warp.pc d.warp.cycles i = .lanes (fun _ => body) ∧ (∀ l, body (d.local l) = x) ∧
        ∀ c, x ≠ .ok c := by
  have hfail (a : BitVec 64) (c : Local) :
      (if d.mem.outOfBounds a 4 then .stop () else .undefined (.mem a.toNat 4) :
        LaneOutcome Local) ≠ .ok c := by
    split_ifs <;> simp
  unfold Thread.Fits at hfits
  cases hop : Opcode.ofByte i.op with
  | none => simp [hop] at hfits
  | some op =>
      cases op
      case load =>
        simp only [hop, not_forall, exists_prop] at hfits
        obtain ⟨a, ha, hout⟩ := hfits
        refine ⟨load i, _, by simp only [effect, hop], fun l => ?_, hfail a⟩
        unfold load
        simp only [Device.local, (h.lane l).addr ha, DevMem.read32, h.mem, if_neg hout]
        rfl
      case store =>
        simp only [hop, not_forall, exists_prop] at hfits
        obtain ⟨a, ha, hout⟩ := hfits
        refine ⟨store i, _, by simp only [effect, hop], fun l => ?_, hfail a⟩
        unfold store
        simp only [Device.local, (h.lane l).addr ha, DevMem.write32, h.mem, if_neg hout]
        rfl
      all_goals simp [hop] at hfits

/-- **One instruction in lockstep** comes to the same in every order of the lanes, traps and
accesses outside the memory included. -/
theorem Device.InLockstep.executeInsnIn_eq (h : d.InLockstep img varies)
    (himg : img.Annotated varies)
    {ls : List (Fin warpSize)} (hls : ls.Perm (List.finRange warpSize)) :
    executeInsnIn ls F d.counted d.fetch = executeInsn F d.counted d.fetch := by
  have hnodup := List.nodup_finRange warpSize
  have hrace := h.raceFree himg
  rw [← executeInsnIn_finRange]
  rcases h.next_cases (F := F) himg with ⟨e, he, -⟩ | ⟨pc, t, hat, hf, hknows, hfits⟩
  · have hok := (executeInsnIn_finRange _).trans (executing_of_next he).2
    rw [hok]
    exact executeInsnIn_perm hrace hnodup hls.symm hok
  · have hat' : d.counted.At img pc t := ⟨hat.img, hat.pc, hat.active, hat.s, hat.p0, hat.mem⟩
    obtain ⟨body, x, heff, hx, hfail⟩ := hat'.access_fails (F := F) hfits
    have hne : ls ≠ [] := by
      rintro rfl
      exact absurd hls.length_eq (by decide)
    have hne' : List.finRange warpSize ≠ [] := by decide
    unfold executeInsnIn
    rw [heff]
    dsimp only
    rw [hknows.1, forEach_laneStep_fails hx hfail hat'.enabledLane hne hne']

variable {sched : Device → List (Fin warpSize)}

theorem Device.InLockstep.bvrtStepIn_eq (h : d.InLockstep img varies) (himg : img.Annotated varies)
    (hsched : (sched d).Perm (List.finRange warpSize)) : bvrtStepIn sched F d = bvrtStep F d := by
  have hex : d.Executing := by
    obtain ⟨pc, t, hlt, hat, -⟩ := h
    exact (hat.executing ⟨hlt, himg.ninsn_le, rfl⟩).1
  rw [bvrtStepIn_of_executing hex, bvrtStep_of_executing hex, h.executeInsnIn_eq himg hsched]

theorem Device.InLockstep.bvrtRunLoopIn_eq (h : d.InLockstep img varies ∨ d.warp.active = 0)
    (himg : img.Annotated varies) (hsched : ∀ d, (sched d).Perm (List.finRange warpSize))
    (maxInsns fuel : Nat) :
    bvrtRunLoopIn sched F maxInsns fuel d = bvrtRunLoop F maxInsns fuel d := by
  induction fuel generalizing d with
  | zero => rfl
  | succ fuel ih =>
      rw [bvrtRunLoopIn, bvrtRunLoop]
      by_cases hgo : d.warp.active ≠ 0 ∧ d.insns < maxInsns
      case neg => rw [if_neg hgo, if_neg hgo]
      have hlock := h.resolve_right hgo.1
      rw [if_pos hgo, if_pos hgo, hlock.bvrtStepIn_eq himg (hsched d)]
      cases hstep : bvrtStep F d with
      | error a => rfl
      | ok r =>
          obtain ⟨st, e⟩ := r
          cases st
          case ok => exact ih (hlock.next himg (next_eq_ok_iff.mpr hstep))
          all_goals rfl

end Warp

/-! ### The shipped kernels -/

/-- Where `S1` may hold the number of the lane: from the start of a kernel to the instruction that
first writes it. -/
def bvmlVaries (pc : Nat) : Bool := pc ≤ 4 || (17 ≤ pc && pc ≤ 21) || pc = 32

def bvnVaries (pc : Nat) : Bool :=
  pc ≤ 4 || (14 ≤ pc && pc ≤ 17) || (28 ≤ pc && pc ≤ 34) || (68 ≤ pc && pc ≤ 71)

theorem bvmlCode_followed :
    ∀ k (h : k < bvmlCode.length), bvmlCode[k].followed bvmlCode.length bvmlVaries k = true := by
  decide +kernel

theorem bvnCode_followed :
    ∀ k (h : k < bvnCode.length), bvnCode[k].followed bvnCode.length bvnVaries k = true := by
  decide +kernel

section Shipped

variable {img : BvbcImage} {code : List BvInsn} {entries : List (List Byte × Word)}
  {varies : Nat → Bool}

theorem ninsn_of_summary (h : img.summary = (code, entries)) : img.ninsn = code.length := by
  have hinsns : (List.range img.ninsn).map (fun k => bvDecode (img.insn k)) = code :=
    congrArg Prod.fst h
  simpa using congrArg List.length hinsns

theorem annotated_of_summary (h : img.summary = (code, entries)) (hmax : code.length ≤ bvbcMaxInsn)
    (hcode : ∀ k (hk : k < code.length), code[k].followed code.length varies k = true) :
    img.Annotated varies := by
  have hlen := ninsn_of_summary h
  have hholds : img.Holds 0 code := holds_of_summary h hmax (by simp)
  refine ⟨hlen ▸ hmax, fun pc hpc => ?_⟩
  have hlt : pc < code.length := hlen ▸ hpc
  have hinsn := (hholds pc hlt).insn
  rw [Nat.zero_add] at hinsn
  rw [hinsn, hlen]
  exact hcode pc hlt

/-- A launch of a kernel that starts where `S1` may vary. -/
theorem launch_at_entry {d₀ d : Device} {kernel : List Byte} {args : List Word}
    (h : img.summary = (code, entries)) (hload : d₀.img = img)
    (hentries : ∀ e ∈ entries, varies e.2.toNat = true ∧ e.2.toNat < code.length)
    (hlaunch : bvrtLaunch d₀ kernel args = some d) :
    ∃ pc t, pc < img.ninsn ∧ d.At img pc t ∧ t.Full (varies pc) ∧ varies pc = true := by
  cases hk : bvbcFindKernel img kernel with
  | none =>
      rw [bvrtLaunch, hload, hk] at hlaunch
      cases hlaunch
  | some ki =>
      have hlt : ki < img.kernels.length := (List.findIdx?_eq_some_iff_findIdx_eq.mp hk).1
      have hmem : (cstrOf img.kernels[ki].name, img.kernels[ki].entry) ∈ entries := by
        have hkernels : img.kernels.map (fun k => (cstrOf k.name, k.entry)) = entries :=
          congrArg Prod.snd h
        rw [← hkernels]
        exact List.mem_map.mpr ⟨_, List.getElem_mem hlt, rfl⟩
      obtain ⟨hvaries, hinside⟩ := hentries _ hmem
      have hentry : img.Entry kernel img.kernels[ki].entry.toNat := by
        rw [BvbcImage.Entry, hk, Option.map_some, List.getD_eq_getElem?_getD,
          List.getElem?_eq_getElem hlt, Option.getD_some, BitVec.ofNat_toNat, BitVec.setWidth_eq]
      obtain ⟨e, he, hat, -⟩ := launch_at hentry args hload
      rw [hlaunch] at he
      obtain rfl := Option.some.inj he
      refine ⟨_, _, ninsn_of_summary h ▸ hinside, hat, ⟨rfl, fun r hr => ?_⟩, hvaries⟩
      have hne : r ≠ sThreadId := fun hid => by
        rw [hvaries] at hr
        cases hr hid
      simp [Thread.launch, hne]

/-- Code that follows its annotation, from where its kernels start. -/
theorem kernels_anyOrder {F : HostMath} {sched : Device → List (Fin warpSize)} {d₀ d : Device}
    {kernel : List Byte} {args : List Word} (h : img.summary = (code, entries))
    (hmax : code.length ≤ bvbcMaxInsn)
    (hcode : ∀ k (hk : k < code.length), code[k].followed code.length varies k = true)
    (hentries : ∀ e ∈ entries, varies e.2.toNat = true ∧ e.2.toNat < code.length)
    (hload : d₀.img = img) (hlaunch : bvrtLaunch d₀ kernel args = some d)
    (hsched : ∀ d, (sched d).Perm (List.finRange warpSize)) (maxInsns : Nat) :
    bvrtRunIn sched F d maxInsns = bvrtRun F d maxInsns ∧
      ∀ e, d.RunsBefore F sThreadId e → e.Executing →
        e.Ignores F sThreadId ∨ e.Overwrites F sThreadId := by
  have himg := annotated_of_summary h hmax hcode
  obtain ⟨pc, t, hlt, hat, hfull, hv⟩ := launch_at_entry h hload hentries hlaunch
  refine ⟨?_, fun e hrun hex => hrun.ignores_or_overwrites himg hlt hat hfull hv hex⟩
  exact Device.InLockstep.bvrtRunLoopIn_eq (.inl ⟨pc, t, hlt, hat, hfull⟩) himg hsched maxInsns _

end Shipped

/-- **The kernels in any order.** A kernel of BVML or BVN, as the assembler makes it of the shipped
text, runs in the same way for every order of the lanes at every instruction: the same status, the
same device, and the same access where it is undefined. It does not look at the number of the lane
in `S1` before it has written that register. -/
theorem hostKernels_anyOrder (F : HostMath) (sched : Device → List (Fin warpSize)) {img : BvbcImage}
    {d₀ d : Device} {kernel : List Byte} {args : List Word}
    (himg : bradlibCompile bvmlKernelSrc = some img ∨ bradlibCompile bvnKernelSrc = some img)
    (hload : d₀.img = img) (hlaunch : bvrtLaunch d₀ kernel args = some d)
    (hsched : ∀ d, (sched d).Perm (List.finRange warpSize)) (maxInsns : Nat) :
    bvrtRunIn sched F d maxInsns = bvrtRun F d maxInsns ∧
      ∀ e, d.RunsBefore F sThreadId e → e.Executing →
        e.Ignores F sThreadId ∨ e.Overwrites F sThreadId := by
  rcases himg with himg | himg
  · have hsummary := bradlibCompile_bvml
    rw [himg] at hsummary
    exact kernels_anyOrder (Option.some.inj hsummary) (by decide +kernel) bvmlCode_followed
      (by decide +kernel) hload hlaunch hsched maxInsns
  · have hsummary := bradlibCompile_bvn
    rw [himg] at hsummary
    exact kernels_anyOrder (Option.some.inj hsummary) (by decide +kernel) bvnCode_followed
      (by decide +kernel) hload hlaunch hsched maxInsns

theorem saxpy_reversed :
    ∃ img d, bradlibCompile bvmlKernelSrc = some img ∧
      bvrtLaunch (bvrtLoad (bvrtCreate 64 fun _ => 0) img) (cstr "saxpy")
      [0, 16, 32, 2, 4, 4, 1] = some d ∧
        bvrtRunIn (fun _ => (List.finRange warpSize).reverse) .integer d 100 =
          bvrtRun .integer d 100 ∧
          (d.Ignores .integer sThreadId ∨ d.Overwrites .integer sThreadId) := by
  obtain ⟨img, himg, hsummary⟩ := Option.map_eq_some_iff.mp bradlibCompile_bvml
  have hentry : img.Entry (cstr "saxpy") 0 := entry_of_summary hsummary (by decide)
  obtain ⟨d, hlaunch, hat, -⟩ :=
    launch_at (d := bvrtLoad (bvrtCreate 64 fun _ => 0) img) hentry [0, 16, 32, 2, 4, 4, 1] rfl
  obtain ⟨horder, hunread⟩ :=
    hostKernels_anyOrder .integer (fun _ => (List.finRange warpSize).reverse)
    (.inl himg) rfl hlaunch (fun _ => List.reverse_perm _) 100
  have himg' := annotated_of_summary hsummary (by decide +kernel) bvmlCode_followed
  have hex : d.Executing :=
    (hat.executing ⟨by rw [ninsn_of_summary hsummary]; decide, himg'.ninsn_le, rfl⟩).1
  exact ⟨img, d, himg, hlaunch, horder, hunread d .start hex⟩

end BradVector
